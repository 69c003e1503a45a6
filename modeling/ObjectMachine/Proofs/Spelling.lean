import Mathlib.Tactic.MkIffOfInductiveProp
import Mathlib.Tactic.Simproc.ExistsAndEq
import ObjectMachine.Image.Decode
import ObjectMachine.Image.Encode

/-!
# What readers accept

A reader takes bytes from the front of what is left. `Accepts r G` says exactly which: `r` succeeds
with `a` if and only if the bytes in front spell `a` in the sense of `G`, and then it takes those
bytes and no others. Since it is an equivalence, it gives the round trip of what is written, the
rejection of everything else and, as bytes that are cut short spell nothing, the detection of a cut.

The rules follow the way in which readers are put together, so that every record is settled by
naming its parts in order.
-/

namespace ObjectMachine

variable {α β ε : Type}

/-- Which bytes spell a value. -/
abbrev Spelling (α : Type) := α → List UInt8 → Prop

namespace Spelling

/-- The bytes that are written for a value that fits. -/
def written (write : α → List UInt8) (fits : α → Prop) : Spelling α :=
  fun a bytes => fits a ∧ bytes = write a

/-- A value that stands behind another one, which it may depend on. -/
def after (G : Spelling α) (H : α → Spelling β) : Spelling β :=
  fun b bytes => ∃ a u v, G a u ∧ H a b v ∧ bytes = u ++ v

/-- What a spelled value is turned into. -/
def mapped (f : α → β) (G : Spelling α) : Spelling β := fun b bytes => ∃ a, G a bytes ∧ b = f a

/-- Values one behind the other. -/
def each (G : Spelling α) : Spelling (List α)
  | [], bytes => bytes = []
  | a :: as, bytes => ∃ u v, G a u ∧ each G as v ∧ bytes = u ++ v

theorem each_written {write : α → List UInt8} {fits : α → Prop} {as : List α} {bytes : List UInt8} :
    each (written write fits) as bytes ↔ (∀ a ∈ as, fits a) ∧ bytes = as.flatMap write := by
  induction as generalizing bytes with
  | nil => simp [each]
  | cons a as ih =>
    simp only [each, written, ih, List.forall_mem_cons, List.flatMap_cons]
    constructor
    · rintro ⟨u, v, ⟨ha, rfl⟩, ⟨has, rfl⟩, rfl⟩
      exact ⟨⟨ha, has⟩, rfl⟩
    · rintro ⟨⟨ha, has⟩, rfl⟩
      exact ⟨_, _, ⟨ha, rfl⟩, ⟨has, rfl⟩, rfl⟩

theorem each_mapped {f : α → β} {G : Spelling α} {bs : List β} {bytes : List UInt8} :
    each (mapped f G) bs bytes ↔ mapped (List.map f) (each G) bs bytes := by
  induction bs generalizing bytes with
  | nil =>
    constructor
    · intro h
      exact ⟨[], h, rfl⟩
    · rintro ⟨as, h, has⟩
      cases List.map_eq_nil_iff.mp has.symm
      exact h
  | cons b bs ih =>
    simp only [each, ih]
    constructor
    · rintro ⟨u, v, ⟨a, ha, rfl⟩, ⟨as, has, rfl⟩, rfl⟩
      exact ⟨a :: as, ⟨u, v, ha, has, rfl⟩, rfl⟩
    · rintro ⟨as, has, hbs⟩
      obtain ⟨a, as, rfl, rfl, rfl⟩ := List.map_eq_cons_iff.mp hbs.symm
      obtain ⟨u, v, ha, has, rfl⟩ := has
      exact ⟨u, v, ⟨a, ha, rfl⟩, ⟨as, has, rfl⟩, rfl⟩

end Spelling

open Spelling

/-- The reader succeeds exactly when the bytes in front spell a value, and takes those bytes. -/
def Accepts (r : EStateM ε Cursor α) (G : Spelling α) : Prop :=
  ∀ c a c', r c = .ok a c' ↔
    ∃ bytes, G a bytes ∧ c.rest = bytes ++ c'.rest ∧ c'.position = c.position + bytes.length

namespace Accepts

variable {r : EStateM ε Cursor α} {k : α → EStateM ε Cursor β} {G : Spelling α}
  {H : α → Spelling β}

/-- The spelling of a value is read back, and the bytes behind it are left. -/
theorem reads (hr : Accepts r G) {a : α} {bytes : List UInt8} (h : G a bytes) (position : Nat)
    (rest : List UInt8) :
    r ⟨position, bytes ++ rest⟩ = .ok a ⟨position + bytes.length, rest⟩ :=
  (hr _ _ _).mpr ⟨bytes, h, rfl, rfl⟩

/-- A spelling that is cut short is not read: what would be read is read from the whole spelling
too, and takes less of it than there is. -/
theorem fails_of_lt (hr : Accepts r G) {a : α} {bytes : List UInt8} (h : G a bytes)
    (position : Nat) {n : Nat} (hn : n < bytes.length) :
    ∃ e c, r ⟨position, bytes.take n⟩ = .error e c := by
  cases hs : r ⟨position, bytes.take n⟩ with
  | error e c => exact ⟨e, c, rfl⟩
  | ok a' c =>
    obtain ⟨part, hpart, hfront, -⟩ := (hr _ _ _).mp hs
    have whole : bytes = part ++ (c.rest ++ bytes.drop n) := by
      rw [← List.append_assoc, ← hfront, List.take_append_drop]
    have early := hr.reads hpart position (c.rest ++ bytes.drop n)
    have late := hr.reads h position []
    rw [← whole] at early
    rw [List.append_nil] at late
    rw [late] at early
    have stop : position + bytes.length = position + part.length := by
      injection early with _ hc
      exact congrArg Cursor.position hc
    have short := congrArg List.length hfront
    simp only [List.length_take, List.length_append] at short
    omega

theorem congr {G' : Spelling α} (hr : Accepts r G) (h : ∀ a bytes, G a bytes ↔ G' a bytes) :
    Accepts r G' := by
  intro c a c'
  simp only [hr c a c', h]

theorem pure (a : α) : Accepts (Pure.pure a : EStateM ε Cursor α) fun a' bytes =>
    a' = a ∧ bytes = [] := by
  intro c a' c'
  simp only [Pure.pure, EStateM.pure, EStateM.Result.ok.injEq]
  constructor
  · rintro ⟨rfl, rfl⟩
    exact ⟨[], ⟨rfl, rfl⟩, rfl, rfl⟩
  · rintro ⟨_, ⟨rfl, rfl⟩, hrest, hposition⟩
    exact ⟨rfl, by cases c; cases c'; simp_all⟩

theorem throw (e : ε) : Accepts (throw e : EStateM ε Cursor α) fun _ _ => False := by
  intro c a c'
  constructor
  · intro h
    cases h
  · rintro ⟨_, ⟨⟩, _⟩

theorem bind (hr : Accepts r G) (hk : ∀ a, Accepts (k a) (H a)) :
    Accepts (r >>= k) (G.after H) := by
  intro c b c''
  simp only [Bind.bind, EStateM.bind]
  constructor
  · intro h
    cases hs : r c with
    | error e c' => rw [hs] at h; cases h
    | ok a c' =>
      rw [hs] at h
      obtain ⟨u, hu, hrest, hposition⟩ := (hr _ _ _).mp hs
      obtain ⟨v, hv, hrest', hposition'⟩ := (hk a _ _ _).mp h
      refine ⟨u ++ v, ⟨a, u, v, hu, hv, rfl⟩, ?_, ?_⟩
      · rw [hrest, hrest', List.append_assoc]
      · rw [hposition', hposition, List.length_append, Nat.add_assoc]
  · rintro ⟨_, ⟨a, u, v, hu, hv, rfl⟩, hrest, hposition⟩
    obtain ⟨position, rest⟩ := c
    obtain rfl : rest = u ++ (v ++ c''.rest) := by rw [← List.append_assoc]; exact hrest
    simp only [hr.reads hu position (v ++ c''.rest)]
    refine (hk a _ _ _).mpr ⟨v, hv, rfl, ?_⟩
    rw [hposition, List.length_append, Nat.add_assoc]

end Accepts

/-! ## Bytes and words -/

namespace Write

theorem littleEndian_read (bytes : List UInt8) :
    littleEndian bytes.length (Read.littleEndian bytes) = bytes := by
  induction bytes with
  | nil => rfl
  | cons b rest ih =>
    have hb := b.toNat_lt
    have low : (b.toNat + 256 * Read.littleEndian rest) % 256 = b.toNat := by omega
    have high : (b.toNat + 256 * Read.littleEndian rest) / 256 = Read.littleEndian rest := by omega
    simp only [List.length_cons, littleEndian, Read.littleEndian, low, high, ih,
      UInt8.ofNat_toNat]

theorem read_littleEndian_lt (bytes : List UInt8) :
    Read.littleEndian bytes < Nat.pow 256 bytes.length := by
  induction bytes with
  | nil => decide
  | cons b rest ih =>
    have hb := b.toNat_lt
    change b.toNat + 256 * Read.littleEndian rest < Nat.pow 256 rest.length * 256
    omega

end Write

namespace Read

theorem bytes_accepts (n : Nat) :
    Accepts (bytes n) fun taken bytes => taken.length = n ∧ bytes = taken := by
  intro c taken c'
  constructor
  · intro h
    simp only [bytes] at h
    split at h
    · rename_i enough
      cases h
      exact ⟨_, ⟨enough, rfl⟩, (List.take_append_drop n c.rest).symm, by rw [enough]; rfl⟩
    · cases h
  · rintro ⟨taken, ⟨rfl, rfl⟩, hrest, hposition⟩
    obtain ⟨position, rest⟩ := c
    obtain rfl : rest = taken ++ c'.rest := hrest
    rw [bytes_append]
    cases c'
    simp_all

theorem byte_accepts : Accepts byte (written (fun b => [b]) fun _ => True) := by
  intro c b c'
  obtain ⟨position, rest⟩ := c
  obtain ⟨position', rest'⟩ := c'
  cases rest with
  | nil => simp [byte, written]
  | cons first rest => simp [byte, written, Cursor.skip]; grind

theorem word_accepts : Accepts word (written Write.word fun _ => True) := by
  refine ((bytes_accepts 4).bind fun _ => .pure _).congr fun w bytes => ?_
  constructor
  · rintro ⟨_, taken, _, ⟨four, rfl⟩, ⟨rfl, rfl⟩, rfl⟩
    have fits := Write.read_littleEndian_lt taken
    have back := Write.littleEndian_read taken
    rw [four] at fits back
    have number : (UInt32.ofNat (Read.littleEndian taken)).toNat = Read.littleEndian taken :=
      UInt32.toNat_ofNat_of_lt fits
    refine ⟨trivial, ?_⟩
    rw [Write.word, Write.size, number, back, List.append_nil]
  · rintro ⟨-, rfl⟩
    refine ⟨Write.word w, _, [], ⟨Write.length_littleEndian 4 w.toNat, rfl⟩, ⟨?_, rfl⟩,
      (List.append_nil _).symm⟩
    rw [Write.word, Write.size, Write.littleEndian_littleEndian w.toNat_lt, UInt32.ofNat_toNat]

/-- Bytes after their number, and what is done with them. -/
theorem sized_accepts {k : List UInt8 → Read β} {H : List UInt8 → Spelling β}
    (hk : ∀ b, Accepts (k b) (H b)) :
    Accepts (do let n ← word; let b ← bytes n.toNat; k b)
      ((written Write.sized fun b => b.length < UInt32.size).after H) := by
  refine (word_accepts.bind fun n => (bytes_accepts n.toNat).bind hk).congr fun x bytes => ?_
  constructor
  · rintro ⟨n, _, _, ⟨-, rfl⟩, ⟨_, b, v, ⟨hlength, rfl⟩, hb, rfl⟩, rfl⟩
    have fits : b.length < UInt32.size := by rw [hlength]; exact n.toNat_lt
    refine ⟨b, _, v, ⟨fits, rfl⟩, hb, ?_⟩
    rw [Write.sized, hlength, List.append_assoc]; rfl
  · rintro ⟨b, _, v, ⟨fits, rfl⟩, hb, rfl⟩
    have hn : (UInt32.ofNat b.length).toNat = b.length := UInt32.toNat_ofNat_of_lt fits
    refine ⟨.ofNat b.length, _, _, ⟨trivial, rfl⟩, ⟨b, _, v, ⟨hn.symm, rfl⟩, hb, rfl⟩, ?_⟩
    rw [Write.word, hn, Write.sized, List.append_assoc]

/-! ## Lists and texts -/

theorem times_accepts {r : Read α} {G : Spelling α} (hr : Accepts r G) (n : Nat) :
    Accepts (times r n) fun as bytes => as.length = n ∧ each G as bytes := by
  induction n with
  | zero =>
    refine (Accepts.pure []).congr fun as bytes => ?_
    cases as <;> simp [each]
  | succ n ih =>
    refine (hr.bind fun a => ih.bind fun as => .pure (a :: as)).congr fun as bytes => ?_
    constructor
    · rintro ⟨a, u, _, ha, ⟨as, v, _, ⟨hlength, has⟩, ⟨rfl, rfl⟩, rfl⟩, rfl⟩
      exact ⟨by simp [hlength], u, v, ha, has, by simp⟩
    · rintro ⟨hlength, has⟩
      cases as with
      | nil => cases hlength
      | cons a as =>
        obtain ⟨u, v, ha, has, rfl⟩ := has
        exact ⟨a, u, v, ha, ⟨as, v, [], ⟨by simpa using hlength, has⟩, ⟨rfl, rfl⟩, by simp⟩, rfl⟩

theorem counted_accepts {r : Read α} {G : Spelling α} (hr : Accepts r G) :
    Accepts (counted r) fun as bytes => as.length < UInt32.size ∧
      ∃ body, each G as body ∧ bytes = Write.size as.length ++ body := by
  refine (word_accepts.bind fun n => times_accepts hr n.toNat).congr fun as bytes => ?_
  constructor
  · rintro ⟨n, _, body, ⟨-, rfl⟩, ⟨hlength, has⟩, rfl⟩
    refine ⟨?_, body, has, ?_⟩
    · rw [hlength]; exact n.toNat_lt
    · rw [hlength]; rfl
  · rintro ⟨fits, body, has, rfl⟩
    have hn : (UInt32.ofNat as.length).toNat = as.length := UInt32.toNat_ofNat_of_lt fits
    exact ⟨.ofNat as.length, _, body, ⟨trivial, rfl⟩, ⟨hn.symm, has⟩, by rw [Write.word, hn]⟩

/-- Records that are written for their values are written after their number. -/
theorem counted_written {r : Read α} {write : α → List UInt8} {fits : α → Prop}
    (hr : Accepts r (written write fits)) : Accepts (counted r)
      (written (Write.counted write) fun as => as.length < UInt32.size ∧ ∀ a ∈ as, fits a) := by
  refine (counted_accepts hr).congr fun as bytes => ?_
  simp [each_written, written, Write.counted, and_assoc]

/-- A text is read from any bytes after their number, whether or not they are characters. -/
theorem text_accepts :
    Accepts text
      (mapped Text.ofBytes (written Write.sized fun raw => raw.length < UInt32.size)) := by
  refine (sized_accepts fun raw => .pure (Text.ofBytes raw)).congr fun s bytes => ?_
  simp [after, mapped, written, and_assoc, and_comm]

theorem counted_text_accepts : Accepts (counted text) (mapped (List.map Text.ofBytes)
    (written (Write.counted Write.sized) fun raws =>
      raws.length < UInt32.size ∧ ∀ raw ∈ raws, raw.length < UInt32.size)) := by
  refine (counted_accepts text_accepts).congr fun strings bytes => ?_
  simp only [each_mapped, mapped, each_written, written, Write.counted]
  constructor
  · rintro ⟨hlength, _, ⟨raws, ⟨fits, rfl⟩, rfl⟩, rfl⟩
    rw [List.length_map] at hlength ⊢
    exact ⟨raws, ⟨⟨hlength, fits⟩, rfl⟩, rfl⟩
  · rintro ⟨raws, ⟨⟨hlength, fits⟩, rfl⟩, rfl⟩
    rw [List.length_map]
    exact ⟨hlength, _, ⟨raws, ⟨fits, rfl⟩, rfl⟩, rfl⟩

end Read

/-! ## Records -/

/-- The number of operands is a byte. -/
def Instruction.Fits (i : Instruction) : Prop := i.operands.length < UInt8.size

/-- The numbers of parameters, variables and instructions are words. -/
@[mk_iff]
structure MethodRecord.Fits (m : MethodRecord) : Prop where
  parameters : m.parameters.length < UInt32.size
  locals : m.locals.length < UInt32.size
  code : m.code.length < UInt32.size ∧ ∀ i ∈ m.code, i.Fits

/-- The numbers of interfaces, fields and methods are words. -/
@[mk_iff]
structure TypeRecord.Fits (t : TypeRecord) : Prop where
  interfaces : t.interfaces.length < UInt32.size
  fields : t.fields.length < UInt32.size
  methods : t.methods.length < UInt32.size ∧ ∀ m ∈ t.methods, m.Fits

/-- The length of the spelling is a word. -/
def ConstantRecord.Fits (c : ConstantRecord) : Prop := c.bytes.length < UInt32.size

instance (i : Instruction) : Decidable i.Fits :=
  inferInstanceAs (Decidable (i.operands.length < UInt8.size))

instance (m : MethodRecord) : Decidable m.Fits := decidable_of_iff _ (m.fits_iff).symm

instance (t : TypeRecord) : Decidable t.Fits := decidable_of_iff _ (t.fits_iff).symm

instance (c : ConstantRecord) : Decidable c.Fits :=
  inferInstanceAs (Decidable (c.bytes.length < UInt32.size))

namespace Read

theorem field_accepts : Accepts field (written Write.field fun _ => True) := by
  refine (word_accepts.bind fun name => word_accepts.bind fun type =>
    byte_accepts.bind fun access => byte_accepts.bind fun flags => .pure _).congr fun f bytes => ?_
  cases f
  simp [after, written, Write.field]

theorem variableRecord_accepts :
    Accepts variableRecord (written Write.variableRecord fun _ => True) := by
  refine (word_accepts.bind fun name => word_accepts.bind fun type => .pure _).congr
    fun v bytes => ?_
  cases v
  simp [after, written, Write.variableRecord]

theorem instruction_accepts : Accepts instruction (written Write.instruction Instruction.Fits) := by
  refine (byte_accepts.bind fun opcode => byte_accepts.bind fun n =>
    (times_accepts word_accepts n.toNat).bind fun operands => .pure _).congr fun i bytes => ?_
  obtain ⟨opcode, operands⟩ := i
  simp only [after, each_written, written, Instruction.Fits, Write.instruction]
  constructor
  · rintro ⟨_, _, _, ⟨-, rfl⟩, ⟨n, _, _, ⟨-, rfl⟩, ⟨_, _, _, ⟨hlength, -, rfl⟩, ⟨h, rfl⟩, rfl⟩,
      rfl⟩, rfl⟩
    cases h
    rw [hlength]
    exact ⟨n.toNat_lt, by simp⟩
  · rintro ⟨fits, rfl⟩
    have hn : (UInt8.ofNat operands.length).toNat = operands.length := UInt8.toNat_ofNat_of_lt fits
    exact ⟨opcode, _, _, ⟨trivial, rfl⟩, ⟨.ofNat operands.length, _, _, ⟨trivial, rfl⟩,
      ⟨operands, _, [], ⟨hn.symm, by simp, rfl⟩, ⟨rfl, rfl⟩, rfl⟩, rfl⟩, by simp⟩

theorem method_accepts : Accepts method (written Write.method MethodRecord.Fits) := by
  have several := counted_written variableRecord_accepts
  refine (word_accepts.bind fun name => word_accepts.bind fun returns =>
    byte_accepts.bind fun access => byte_accepts.bind fun flags => several.bind fun parameters =>
    several.bind fun locals => (counted_written instruction_accepts).bind fun code =>
    .pure _).congr fun m bytes => ?_
  cases m
  simp [after, written, Write.method, MethodRecord.fits_iff, and_assoc]

theorem typeRecord_accepts : Accepts typeRecord (written Write.typeRecord TypeRecord.Fits) := by
  refine (byte_accepts.bind fun kind => word_accepts.bind fun name => word_accepts.bind fun space =>
    byte_accepts.bind fun access => byte_accepts.bind fun flags => word_accepts.bind fun base =>
    (counted_written word_accepts).bind fun interfaces =>
    (counted_written field_accepts).bind fun fields =>
    (counted_written method_accepts).bind fun methods => .pure _).congr fun t bytes => ?_
  cases t
  simp [after, written, Write.typeRecord, TypeRecord.fits_iff, and_assoc]

theorem constant_accepts : Accepts constant (written Write.constant ConstantRecord.Fits) := by
  refine (byte_accepts.bind fun tag => sized_accepts fun bytes => .pure _).congr fun c bytes => ?_
  cases c
  simp [after, written, Write.constant, ConstantRecord.Fits]

end Read

end ObjectMachine
