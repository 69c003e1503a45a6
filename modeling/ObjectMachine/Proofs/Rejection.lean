import ObjectMachine.Proofs.Table

/-!
# Why bytes are rejected

There are two faults. Bytes are no image at all if the three bytes in front or the name behind them
are wrong, and this is decided before anything else is read. `Refuses` says of a reader which bytes
it finds to be no image, with a rule for each way of putting readers together, and so follows the
header to its end (`readHeader_refuses`). Everything else that can be wrong is that bytes run out.

In particular they run out when a count is too large: every record takes at least a byte, so there
cannot be more records than bytes (`counted_exhausted`). Counts stand at three depths in a section,
and `TableSection.Declares` gives their places. `Exhausted` carries the failure of the innermost
reader outwards, past the records that were read before it.
-/

namespace ObjectMachine

open Spelling

variable {α β : Type}

/-! ## What is no image -/

/-- The reader finds the bytes in front to be no image exactly when `F` holds of them, and for the
reason that stands in `F`. -/
def Refuses (r : EStateM LoadFault Cursor α) (F : FormatFault → List UInt8 → Prop) : Prop :=
  ∀ c f, (∃ c', r c = .error (.format f) c') ↔ F f c.rest

section
variable {F F' : FormatFault → List UInt8 → Prop}

theorem Refuses.congr {r : EStateM LoadFault Cursor α} (hr : Refuses r F)
    (h : ∀ f bytes, F f bytes ↔ F' f bytes) : Refuses r F' := by
  intro c f
  rw [hr c f, h]

theorem Refuses.pure (a : α) : Refuses (Pure.pure a) fun _ _ => False := by
  intro c f
  simp [Pure.pure, EStateM.pure]

/-- A reader that refuses the bytes if something holds. -/
theorem Refuses.unless {p : Prop} [Decidable p] {found : FormatFault}
    {k : Unit → EStateM LoadFault Cursor α} (hk : Refuses (k ()) F) :
    Refuses (if p then MonadExcept.throw (.format found) >>= k else k ())
      fun f bytes => (p ∧ f = found) ∨ (¬ p ∧ F f bytes) := by
  intro c f
  by_cases h : p
  · have refused : (MonadExcept.throw (.format found) >>= k : EStateM LoadFault Cursor α) c =
        .error (.format found) c := rfl
    rw [if_pos h, refused]
    simp [h, eq_comm]
  · rw [if_neg h, hk c f]
    simp [h]

/-- Bytes that run out are not refused. -/
theorem Image.cutOff_ne_format (r : Read α) (c c' : Cursor) (f : FormatFault) :
    cutOff r c ≠ .error (.format f) c' := by
  rw [cutOff_eq]
  cases r c <;> simp

/-- Therefore bytes are refused only by what is read behind the first part of them. -/
theorem Refuses.cutOff_bind {r : Read α} {G : Spelling α} {k : α → EStateM LoadFault Cursor β}
    {F : α → FormatFault → List UInt8 → Prop} (hr : Accepts r G) (hk : ∀ a, Refuses (k a) (F a)) :
    Refuses (Image.cutOff r >>= k) fun f bytes =>
      ∃ a front rest, G a front ∧ bytes = front ++ rest ∧ F a f rest := by
  intro c f
  simp only [bind, EStateM.bind]
  constructor
  · rintro ⟨c', failed⟩
    cases hs : Image.cutOff r c with
    | error e c₁ =>
      rw [hs] at failed
      cases failed
      exact absurd hs (Image.cutOff_ne_format r c c' f)
    | ok a c₁ =>
      rw [hs] at failed
      obtain ⟨front, hfront, hrest, -⟩ := (Image.cutOff_accepts hr _ _ _).mp hs
      exact ⟨a, front, c₁.rest, hfront, hrest, (hk a _ _).mp ⟨c', failed⟩⟩
  · rintro ⟨a, front, rest, hfront, hrest, hF⟩
    obtain ⟨position, bytes⟩ := c
    obtain rfl : bytes = front ++ rest := hrest
    rw [(Image.cutOff_accepts hr).reads hfront position rest]
    exact (hk a ⟨_, rest⟩ f).mpr hF

end

namespace Image

/-- The name behind the three bytes in front. -/
def nameBytes : List UInt8 := [79, 66, 74, 69, 67, 84, 73, 82, 44, 70, 79, 66]

/-- Which bytes the header says to be no image: other bytes stand in front, or the name behind them
is complete and is another one. -/
theorem readHeader_refuses : Refuses readHeader fun f bytes =>
    (3 ≤ bytes.length ∧ bytes.take 3 ≠ [70, 79, 66] ∧ f = .magic (bytes.take 3)) ∨
    ∃ (length : UInt8) (name rest : List UInt8),
      bytes = [70, 79, 66] ++ [length] ++ name ++ rest ∧ name.length = length.toNat ∧
      name ≠ nameBytes ∧ f = .forkName (Text.ofBytes name) := by
  have named {raw : List UInt8} : Text.ofBytes raw = forkName ↔ raw = nameBytes :=
    Text.ofBytes_eq_iff (by decide)
  refine (Refuses.cutOff_bind (Read.bytes_accepts magic.length) fun found =>
    .unless (.cutOff_bind Read.byte_accepts fun n =>
      .cutOff_bind (Read.bytes_accepts n.toNat) fun raw =>
        .unless (.cutOff_bind Read.word_accepts fun fileSize =>
          .cutOff_bind Read.word_accepts fun entryPoint => .pure _))).congr fun f bytes => ?_
  simp only [written, ne_eq, named, and_false, exists_false, or_false, true_and, exists_and_left,
    ↓existsAndEq, Decidable.not_not, and_true]
  constructor
  · rintro ⟨found, three, rest, rfl, ⟨other, rfl⟩ | ⟨rfl, length, name, rest, rfl, complete, other,
      rfl⟩⟩
    · have front : (found ++ rest).take 3 = found := List.take_left' three
      refine .inl ⟨?_, front.symm ▸ other, by rw [front]⟩
      rw [List.length_append, three]
      exact Nat.le_add_right 3 _
    · exact .inr ⟨length, name, rest, by simp [magic], complete, other, rfl⟩
  · rintro (⟨enough, other, rfl⟩ | ⟨length, name, rest, rfl, complete, other, rfl⟩)
    · exact ⟨bytes.take 3, List.length_take_of_le enough, bytes.drop 3,
        (List.take_append_drop 3 bytes).symm, .inl ⟨other, rfl⟩⟩
    · exact ⟨magic, rfl, [length] ++ (name ++ rest), by simp [magic],
        .inr ⟨rfl, length, name, rest, rfl, complete, other, rfl⟩⟩

/-- Only the header can say that bytes are no image. -/
theorem decode_eq_format_iff (data : List UInt8) (f : FormatFault) :
    decode data = .error (.format f) ↔ ∃ c, readHeader (.start data) = .error (.format f) c := by
  simp only [decode, read_eq]
  cases readHeader (.start data) with
  | error e c => simp
  | ok header c =>
    simp only [reduceCtorEq, exists_false, iff_false]
    intro refused
    split at refused
    · cases refused
    · rename_i e c' hs
      cases refused
      exact cutOff_ne_format _ c c' f hs

end Image

/-! ## Readers that run out of bytes -/

/-- The bytes in front are too few for the reader, whatever their position is. -/
def Exhausted (r : Read α) (bytes : List UInt8) : Prop :=
  ∀ position, ∃ e c, r ⟨position, bytes⟩ = .error e c

section
variable {r : Read α} {G : Spelling α} {k : α → Read β} {u v : List UInt8}

theorem Exhausted.bind (h : Exhausted r u) : Exhausted (r >>= k) u := by
  intro position
  obtain ⟨e, c, failed⟩ := h position
  exact ⟨e, c, by simp only [Bind.bind, EStateM.bind, failed]⟩

/-- Behind what has been read, the bytes are too few for what is read next. -/
theorem Exhausted.after (hr : Accepts r G) {a : α} (h : G a u) (hk : Exhausted (k a) v) :
    Exhausted (r >>= k) (u ++ v) := by
  intro position
  obtain ⟨e, c, failed⟩ := hk (position + u.length)
  exact ⟨e, c, by simp only [Bind.bind, EStateM.bind, hr.reads h position v, failed]⟩

theorem length_le_of_each (takes : ∀ a bytes, G a bytes → bytes ≠ []) {as : List α}
    (h : each G as u) : as.length ≤ u.length := by
  induction as generalizing u with
  | nil => exact Nat.zero_le _
  | cons a as ih =>
    obtain ⟨first, others, hfirst, hothers, rfl⟩ := h
    have := List.length_pos_iff.mpr (takes a first hfirst)
    have := ih hothers
    rw [List.length_append, List.length_cons]
    omega

namespace Read

/-- As every record takes a byte, there are not more records than bytes. -/
theorem counted_exhausted (hr : Accepts r G) (takes : ∀ a bytes, G a bytes → bytes ≠ [])
    {n : UInt32} {rest : List UInt8} (excess : rest.length < n.toNat) :
    Exhausted (counted r) (Write.word n ++ rest) := by
  refine .after word_accepts ⟨trivial, rfl⟩ fun position => ?_
  cases hs : times r n.toNat ⟨position, rest⟩ with
  | error e c => exact ⟨e, c, rfl⟩
  | ok as c =>
    -- the records would have taken more bytes than there are
    obtain ⟨bytes, ⟨hlength, has⟩, hrest, -⟩ := (times_accepts hr n.toNat _ _ _).mp hs
    have fewer := length_le_of_each takes has
    have total := congrArg List.length hrest
    simp only [List.length_append] at total
    omega

/-- Behind some of the records, the bytes are too few for the next one. -/
theorem times_exhausted (hr : Accepts r G) {n : Nat} {as : List α} (has : each G as u)
    (short : as.length < n) (h : Exhausted r v) : Exhausted (times r n) (u ++ v) := by
  induction as generalizing n u with
  | nil =>
    obtain ⟨n, rfl⟩ := Nat.exists_eq_succ_of_ne_zero (Nat.ne_of_gt short)
    rw [show u = [] from has]
    exact h.bind
  | cons a as ih =>
    obtain ⟨n, rfl⟩ := Nat.exists_eq_succ_of_ne_zero (Nat.ne_of_gt (Nat.zero_lt_of_lt short))
    obtain ⟨first, others, hfirst, hothers, rfl⟩ := has
    rw [List.append_assoc]
    exact .after hr hfirst (ih hothers (Nat.lt_of_succ_lt_succ short)).bind

/-- The same behind their number. -/
theorem counted_exhausted_inside {write : α → List UInt8} {fits : α → Prop}
    (hr : Accepts r (written write fits)) {n : UInt32} {as : List α} (short : as.length < n.toNat)
    (has : ∀ a ∈ as, fits a) (h : Exhausted r v) :
    Exhausted (counted r) (Write.word n ++ (as.flatMap write ++ v)) :=
  .after word_accepts ⟨trivial, rfl⟩ (times_exhausted hr (each_written.mpr ⟨has, rfl⟩) short h)

end Read

end

/-! ## Where counts stand -/

/-- The bytes of a method record in front of its parameters. -/
def MethodRecord.head (m : MethodRecord) : List UInt8 :=
  Write.word m.name ++ Write.word m.returns ++ [m.access, m.flags]

/-- The bytes of a type record in front of its interfaces. -/
def TypeRecord.head (t : TypeRecord) : List UInt8 :=
  [t.kind] ++ Write.word t.name ++ Write.word t.space ++ [t.access, t.flags] ++ Write.word t.base

/-- Bytes that are a method record up to the count `n`, and then `rest`. -/
inductive MethodCount (n : UInt32) (rest : List UInt8) : List UInt8 → Prop
  | parameters (m : MethodRecord) : MethodCount n rest (m.head ++ (Write.word n ++ rest))
  | locals (m : MethodRecord) (fits : m.Fits) : MethodCount n rest
    (m.head ++ (Write.counted Write.variableRecord m.parameters ++ (Write.word n ++ rest)))
  | code (m : MethodRecord) (fits : m.Fits) : MethodCount n rest
    (m.head ++ (Write.counted Write.variableRecord m.parameters ++
      (Write.counted Write.variableRecord m.locals ++ (Write.word n ++ rest))))

/-- Bytes that are a type record up to the count `n`, and then `rest`. The count may be one of a
method that stands behind other methods of the type. -/
inductive TypeCount (n : UInt32) (rest : List UInt8) : List UInt8 → Prop
  | interfaces (t : TypeRecord) : TypeCount n rest (t.head ++ (Write.word n ++ rest))
  | fields (t : TypeRecord) (fits : t.Fits) : TypeCount n rest
    (t.head ++ (Write.counted Write.word t.interfaces ++ (Write.word n ++ rest)))
  | methods (t : TypeRecord) (fits : t.Fits) : TypeCount n rest
    (t.head ++ (Write.counted Write.word t.interfaces ++
      (Write.counted Write.field t.fields ++ (Write.word n ++ rest))))
  | inMethod (t : TypeRecord) (fits : t.Fits) {count : UInt32} {bytes : List UInt8}
    (more : t.methods.length < count.toNat) (method : MethodCount n rest bytes) : TypeCount n rest
    (t.head ++ (Write.counted Write.word t.interfaces ++ (Write.counted Write.field t.fields ++
      (Write.word count ++ (t.methods.flatMap Write.method ++ bytes)))))

/-- The bytes of a section that is named for records go up to the count `n`, and then are `rest`.
The count may be one of a type that stands behind other types. -/
inductive TableSection.Declares (s : TableSection) (n : UInt32) (rest : List UInt8) : Prop
  | strings (named : s.name = Text.toBytes ".strings") (payload : s.payload = Write.word n ++ rest)
  | constants (named : s.name = Text.toBytes ".constants")
    (payload : s.payload = Write.word n ++ rest)
  | types (named : s.name = Text.toBytes ".types") (payload : s.payload = Write.word n ++ rest)
  | inType (named : s.name = Text.toBytes ".types") {count : UInt32}
    (ts : List TypeRecord) {bytes : List UInt8} (more : ts.length < count.toNat)
    (fits : ∀ t ∈ ts, t.Fits) (type : TypeCount n rest bytes)
    (payload : s.payload = Write.word count ++ (ts.flatMap Write.typeRecord ++ bytes))

/-! ## Counts that are too large -/

theorem Write.word_ne_nil (w : UInt32) : Write.word w ≠ [] := by
  simp [word, size, littleEndian]

/-- Records that are written with at least a byte are not more than the bytes. -/
theorem Read.counted_exhausted_written {r : Read α} {write : α → List UInt8} {fits : α → Prop}
    (hr : Accepts r (written write fits)) (takes : ∀ a, write a ≠ []) {n : UInt32}
    {rest : List UInt8} (excess : rest.length < n.toNat) :
    Exhausted (counted r) (Write.word n ++ rest) :=
  counted_exhausted hr (fun a _ h => h.2 ▸ takes a) excess

section
variable {n : UInt32} {rest bytes v : List UInt8} {s : TableSection}

/-- What stands in front of the counts of a method can be read, so it is for the rest to fail. -/
theorem Read.method_exhausted (m : MethodRecord) (h : Exhausted (do
    let parameters ← counted variableRecord
    let locals ← counted variableRecord
    let code ← counted instruction
    return { m with parameters, locals, code }) v) : Exhausted method (m.head ++ v) := by
  have chain : Exhausted method (Write.word m.name ++ (Write.word m.returns ++
      ([m.access] ++ ([m.flags] ++ v)))) :=
    .after word_accepts ⟨trivial, rfl⟩ <| .after word_accepts ⟨trivial, rfl⟩ <|
      .after byte_accepts ⟨trivial, rfl⟩ <| .after byte_accepts ⟨trivial, rfl⟩ h
  simpa [MethodRecord.head] using chain

theorem Read.typeRecord_exhausted (t : TypeRecord) (h : Exhausted (do
    let interfaces ← counted word
    let fields ← counted field
    let methods ← counted method
    return { t with interfaces, fields, methods }) v) : Exhausted typeRecord (t.head ++ v) := by
  have chain : Exhausted typeRecord ([t.kind] ++ (Write.word t.name ++ (Write.word t.space ++
      ([t.access] ++ ([t.flags] ++ (Write.word t.base ++ v)))))) :=
    .after byte_accepts ⟨trivial, rfl⟩ <| .after word_accepts ⟨trivial, rfl⟩ <|
      .after word_accepts ⟨trivial, rfl⟩ <| .after byte_accepts ⟨trivial, rfl⟩ <|
        .after byte_accepts ⟨trivial, rfl⟩ <| .after word_accepts ⟨trivial, rfl⟩ h
  simpa [TypeRecord.head] using chain

theorem MethodCount.exhausted (h : MethodCount n rest bytes) (excess : rest.length < n.toNat) :
    Exhausted Read.method bytes := by
  have several := Read.counted_written Read.variableRecord_accepts
  have tooMany : Exhausted (Read.counted Read.variableRecord) (Write.word n ++ rest) :=
    Read.counted_exhausted_written Read.variableRecord_accepts
      (fun v => by simp [Write.variableRecord, Write.word_ne_nil]) excess
  cases h with
  | parameters m => exact Read.method_exhausted m tooMany.bind
  | locals m fits =>
    exact Read.method_exhausted m (.after several ⟨⟨fits.parameters, by simp⟩, rfl⟩ tooMany.bind)
  | code m fits =>
    have instructions : Exhausted (Read.counted Read.instruction) (Write.word n ++ rest) :=
      Read.counted_exhausted_written Read.instruction_accepts
        (fun i => by simp [Write.instruction]) excess
    exact Read.method_exhausted m (.after several ⟨⟨fits.parameters, by simp⟩, rfl⟩
      (.after several ⟨⟨fits.locals, by simp⟩, rfl⟩ instructions.bind))

theorem TypeCount.exhausted (h : TypeCount n rest bytes) (excess : rest.length < n.toNat) :
    Exhausted Read.typeRecord bytes := by
  have interfaces := Read.counted_written Read.word_accepts
  have fields := Read.counted_written Read.field_accepts
  cases h with
  | interfaces t =>
    exact Read.typeRecord_exhausted t
      (Read.counted_exhausted_written Read.word_accepts Write.word_ne_nil excess).bind
  | fields t fits =>
    exact Read.typeRecord_exhausted t (.after interfaces ⟨⟨fits.interfaces, by simp⟩, rfl⟩
      (Read.counted_exhausted_written Read.field_accepts
        (fun f => by simp [Write.field]) excess).bind)
  | methods t fits =>
    exact Read.typeRecord_exhausted t (.after interfaces ⟨⟨fits.interfaces, by simp⟩, rfl⟩
      (.after fields ⟨⟨fits.fields, by simp⟩, rfl⟩
        (Read.counted_exhausted_written Read.method_accepts
          (fun m => by simp [Write.method]) excess).bind))
  | inMethod t fits more method =>
    exact Read.typeRecord_exhausted t (.after interfaces ⟨⟨fits.interfaces, by simp⟩, rfl⟩
      (.after fields ⟨⟨fits.fields, by simp⟩, rfl⟩
        (Read.counted_exhausted_inside Read.method_accepts more fits.methods.2
          (method.exhausted excess)).bind))

theorem Exhausted.map_alone {r : Read α} (h : Exhausted r bytes) (f : α → β) :
    ∃ e, f <$> r.alone bytes = .error e := by
  obtain ⟨e, c, failed⟩ := h 0
  exact ⟨e, by simp only [Read.alone, Cursor.start, failed]; rfl⟩

/-- A section with a count that is too large cannot be read. -/
theorem TableSection.Declares.records_eq_error (h : s.Declares n rest)
    (excess : rest.length < n.toNat) : ∃ e, s.records = .error e := by
  cases h with
  | strings named payload =>
    have tooMany : Exhausted (Read.counted Read.text) s.payload :=
      payload ▸ Read.counted_exhausted Read.text_accepts
        (by rintro _ _ ⟨raw, ⟨-, rfl⟩, -⟩; simp [Write.sized, Write.size, Write.littleEndian])
        excess
    rw [records_of_strings named]
    exact tooMany.map_alone _
  | constants named payload =>
    have tooMany : Exhausted (Read.counted Read.constant) s.payload :=
      payload ▸ Read.counted_exhausted_written Read.constant_accepts
        (fun c => by simp [Write.constant]) excess
    rw [records_of_constants named]
    exact tooMany.map_alone _
  | types named payload =>
    have tooMany : Exhausted (Read.counted Read.typeRecord) s.payload :=
      payload ▸ Read.counted_exhausted_written Read.typeRecord_accepts
        (fun t => by simp [Write.typeRecord]) excess
    rw [records_of_types named]
    exact tooMany.map_alone _
  | inType named ts more fits type payload =>
    have tooMany : Exhausted (Read.counted Read.typeRecord) s.payload :=
      payload ▸ Read.counted_exhausted_inside Read.typeRecord_accepts more fits
        (type.exhausted excess)
    rw [records_of_types named]
    exact tooMany.map_alone _

/-- If the last section cannot be read, then there is a first one that cannot. -/
theorem mapM_records_append (ss : List TableSection) (h : ∃ e, s.records = .error e) :
    ∃ e, (ss ++ [s]).mapM TableSection.records = .error e := by
  obtain ⟨e, failed⟩ := h
  rw [List.mapM_append]
  cases ss.mapM TableSection.records with
  | error e' => exact ⟨e', rfl⟩
  | ok rs =>
    rw [List.mapM_cons, failed]
    exact ⟨e, rfl⟩

end

namespace Image

/-- **Why decoding fails.** Bytes are found to be no image exactly if the signature is wrong. Every
other failure is that bytes run out, and it is one of them if some count is more than the number of
bytes behind it, in a section that is complete and begins before the declared end of the table. -/
theorem decode_fails_as_classified (data : List UInt8) :
    (∀ f, decode data = .error (.format f) ↔
      (3 ≤ data.length ∧ data.take 3 ≠ [70, 79, 66] ∧ f = .magic (data.take 3)) ∨
      ∃ (length : UInt8) (name rest : List UInt8),
        data = [70, 79, 66] ++ [length] ++ name ++ rest ∧ name.length = length.toNat ∧
        name ≠ [79, 66, 74, 69, 67, 84, 73, 82, 44, 70, 79, 66] ∧
        f = .forkName (Text.ofBytes name)) ∧
    (∀ e, decode data = .error e → (∀ f, e ≠ .format f) → ∃ cause, e = .truncated cause) ∧
    (∀ header c, readHeader (.start data) = .ok header c → ∀ f, decode data ≠ .error (.format f)) ∧
    ∀ (fileSize entryPoint : UInt32) (ss : List TableSection) (s : TableSection)
      (behind : List UInt8),
      data = headerBytes fileSize.toNat entryPoint ++ (tableBytes (ss ++ [s]) ++ behind) →
      BeginBefore (24 + fileSize.toNat) 24 (ss ++ [s]) →
      ∀ n rest, s.Declares n rest → rest.length < n.toNat →
        ∃ cause, decode data = .error (.truncated cause) := by
  refine ⟨fun f => ?_, fun e _ other => ?_, fun header c hs f refused => ?_, ?_⟩
  · rw [decode_eq_format_iff]
    exact readHeader_refuses (.start data) f
  · cases e with
    | format f => exact absurd rfl (other f)
    | truncated cause => exact ⟨cause, rfl⟩
  · obtain ⟨c', failed⟩ := (decode_eq_format_iff data f).mp refused
    cases hs.symm.trans failed
  · rintro fileSize entryPoint ss s behind rfl begin n rest declared excess
    obtain ⟨e, failed⟩ := mapM_records_append ss (declared.records_eq_error excess)
    exact ⟨e, decode_of_error fileSize entryPoint behind begin failed⟩

def blankType : TypeRecord := ⟨0, 0, 0, 0, 0, 0, [], [], []⟩

def blankMethod : MethodRecord := ⟨0, 0, 0, 0, [], [], []⟩

/-- A section of two types. The second one has a method with far more instructions than bytes. -/
def overdrawn : TableSection where
  name := Text.toBytes ".types"
  payload := Write.word 2 ++ Write.typeRecord blankType
    ++ blankType.head ++ Write.size 0 ++ Write.size 0 ++ Write.word 1
    ++ blankMethod.head ++ Write.size 0 ++ Write.size 0 ++ Write.word 0xffffffff ++ [42, 0]
  name_ne_nil := by decide
  zero_notMem := by decide
  payload_fits := by decide

/-- A count that is too large is found behind a section and a type that can be read. A name that is
no text is another name. -/
theorem decode_fails_as_classified_overdrawn :
    (∃ cause, decode (fileBytes 7 [oneString, overdrawn]) = .error (.truncated cause)) ∧
    decode [70, 79, 66, 1, 255] = .error (.format (.forkName "\ufffd")) := by
  have declared : overdrawn.Declares 0xffffffff [42, 0] :=
    .inType rfl [blankType] (by decide) (by decide)
      (.inMethod blankType (by decide) (by decide) (.code blankMethod (by decide))) rfl
  constructor
  · obtain ⟨-, -, -, truncated⟩ := decode_fails_as_classified (fileBytes 7 [oneString, overdrawn])
    exact truncated (.ofNat (tableBytes [oneString, overdrawn]).length) 7 [oneString] overdrawn []
      rfl (beginBefore_of_le (by decide)) _ _ declared (by decide)
  · obtain ⟨refused, -⟩ := decode_fails_as_classified [70, 79, 66, 1, 255]
    exact (refused _).mpr (.inr ⟨1, [255], [], rfl, rfl, by decide, rfl⟩)

end Image

end ObjectMachine
