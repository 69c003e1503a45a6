import ObjectMachine.Image.Decode

/-!
# Reading by position

A cursor carries the bytes that are left, so it cannot leave them. A reader that keeps a whole
buffer and a position in it can: it asks how many bytes remain and then goes to the position without
looking again. `Scan` is such a reader, with `none` for an access outside the buffer, and all
decoding is written for it once more.

A scan follows a read if it never makes such an access and otherwise comes to the same
(`Scan.Follows`). This is a matter of the few accesses to the buffer (`Follows.byte`,
`Follows.bytes`, `Follows.terminated`); it carries over to whatever is put together from them, to
any calls in any order (`ReadCall.scanAll_eq`) and to the decoding of any bytes (`Scan.decode_eq`).
-/

namespace ObjectMachine

/-- A read by position in a buffer: a result with the position after it, or `none` if the buffer was
left. -/
def Scan (ε α : Type) := List UInt8 → Nat → Option (EStateM.Result ε Nat α)

/-! ## Accesses to the buffer -/

namespace Scan

variable {ε α β : Type}

instance : Monad (Scan ε) where
  pure a := fun _ position => some (.ok a position)
  bind x f := fun buffer position =>
    match x buffer position with
    | none => none
    | some (.ok a position) => f a buffer position
    | some (.error e position) => some (.error e position)

/-- Fails where it is. -/
def fail (e : ε) : Scan ε α := fun _ position => some (.error e position)

/-- The position, and how many bytes the buffer has. -/
def place : Scan ε (Nat × Nat) := fun buffer position =>
  some (.ok (position, buffer.length) position)

/-- The bytes from one position up to another, both of which have to be in the buffer. -/
def slice (buffer : List UInt8) (first last : Nat) : Option (List UInt8) :=
  if first ≤ last ∧ last ≤ buffer.length then some ((buffer.drop first).take (last - first))
  else none

/-- Fails unless a number of bytes is left. -/
def ensure (n : Nat) : Scan ReadFault Unit := fun buffer position =>
  let remaining := buffer.length - position
  if remaining < n then some (.error (.unexpectedEnd position n remaining) position)
  else some (.ok () position)

def byte : Scan ReadFault UInt8 := do
  ensure 1
  fun buffer position => buffer[position]?.map fun b => .ok b (position + 1)

def bytes (n : Nat) : Scan ReadFault (List UInt8) := do
  ensure n
  fun buffer position =>
    (slice buffer position (position + n)).map fun taken => .ok taken (position + n)

/-- A number of bytes, copied to a place that has room for exactly as many. -/
def copied (n : Nat) : Scan ReadFault (List UInt8) := do
  let taken ← bytes n
  fun _ position => if taken.length = n then some (.ok taken position) else none

def word : Scan ReadFault UInt32 := do return .ofNat (Read.littleEndian (← copied 4))

def text : Scan ReadFault String := do
  let n ← word
  return Text.ofBytes (← bytes n.toNat)

/-- A text that ends with a NUL byte. -/
def terminated : Scan ReadFault String := fun buffer position => do
  let rest ← slice buffer (min position buffer.length) buffer.length
  match rest.findIdx? (· == 0) with
  | none => return .error (.unterminated position) position
  | some nul => return .ok (Text.ofBytes (← slice rest 0 nul)) (position + nul + 1)

/-! ## Records -/

def times (r : Scan ReadFault α) : Nat → Scan ReadFault (List α)
  | 0 => pure []
  | n + 1 => do
    let a ← r
    let as ← times r n
    return a :: as

def counted (r : Scan ReadFault α) : Scan ReadFault (List α) := do
  let n ← word
  times r n.toNat

def field : Scan ReadFault FieldRecord := do
  let name ← word
  let type ← word
  let access ← byte
  let flags ← byte
  return { name, type, access, flags }

def variableRecord : Scan ReadFault VariableRecord := do
  let name ← word
  let type ← word
  return { name, type }

def instruction : Scan ReadFault Instruction := do
  let opcode ← byte
  let n ← byte
  let operands ← times word n.toNat
  return { opcode, operands }

def method : Scan ReadFault MethodRecord := do
  let name ← word
  let returns ← word
  let access ← byte
  let flags ← byte
  let parameters ← counted variableRecord
  let locals ← counted variableRecord
  let code ← counted instruction
  return { name, returns, access, flags, parameters, locals, code }

def typeRecord : Scan ReadFault TypeRecord := do
  let kind ← byte
  let name ← word
  let space ← word
  let access ← byte
  let flags ← byte
  let base ← word
  let interfaces ← counted word
  let fields ← counted field
  let methods ← counted method
  return { kind, name, space, access, flags, base, interfaces, fields, methods }

def constant : Scan ReadFault ConstantRecord := do
  let tag ← byte
  let n ← word
  return { tag, bytes := ← bytes n.toNat }

/-! ## Images -/

/-- Scans a buffer of its own. -/
def within (payload : List UInt8) (r : Scan ReadFault α) : Scan ReadFault α := fun _ position =>
  match r payload 0 with
  | none => none
  | some (.ok a _) => some (.ok a position)
  | some (.error e _) => some (.error e position)

def addSection (image : Image) (name : String) (payload : List UInt8) : Scan ReadFault Image := do
  if name = ".strings" then
    let records ← within payload (counted text)
    return { image with strings := image.strings ++ records }
  else if name = ".types" then
    let records ← within payload (counted typeRecord)
    return { image with types := image.types ++ records }
  else if name = ".constants" then
    let records ← within payload (counted constant)
    return { image with constants := image.constants ++ records }
  else return image

/-- At most `n` sections that begin before the end of the table. -/
def sections (tableEnd : Nat) : Nat → Image → Scan ReadFault Image
  | 0, image => pure image
  | n + 1, image => do
    let (position, length) ← place
    if position < tableEnd ∧ position < length then
      let name ← terminated
      if name = "" then return image
      else
        let size ← word
        let payload ← bytes size.toNat
        sections tableEnd n (← addSection image name payload)
    else return image

/-- A scan whose failure means that the image is cut off. -/
def cutOff (r : Scan ReadFault α) : Scan LoadFault α := fun buffer position =>
  match r buffer position with
  | none => none
  | some (.ok a position) => some (.ok a position)
  | some (.error e position) => some (.error (.truncated e) position)

def header : Scan LoadFault Header := do
  let found ← cutOff (bytes Image.magic.length)
  if found ≠ Image.magic then fail (.format (.magic found))
  else
    let n ← cutOff byte
    let name := Text.ofBytes (← cutOff (bytes n.toNat))
    if name ≠ Image.forkName then fail (.format (.forkName name))
    else
      let fileSize ← cutOff word
      let entryPoint ← cutOff word
      return { forkName := name, fileSize, entryPoint }

def image : Scan LoadFault Image := do
  let h ← header
  let (position, length) ← place
  cutOff (sections (position + h.fileSize.toNat) (length - position) { header := h })

/-- The image that a byte sequence holds. -/
def decode (data : List UInt8) : Option (Except LoadFault Image) :=
  (image data 0).map fun
    | .ok image _ => .ok image
    | .error e _ => .error e

end Scan

/-! ## Following a read -/

/-- The cursor at a position in a buffer. -/
def Cursor.inside (buffer : List UInt8) (position : Nat) : Cursor :=
  ⟨position, buffer.drop position⟩

namespace Scan

variable {ε α β : Type} {buffer : List UInt8}

/-- The same result, and a position in the buffer. -/
inductive Matches (buffer : List UInt8) :
    Option (EStateM.Result ε Nat α) → EStateM.Result ε Cursor α → Prop
  | ok (a : α) {position : Nat} (h : position ≤ buffer.length) :
    Matches buffer (some (.ok a position)) (.ok a (.inside buffer position))
  | error (e : ε) {position : Nat} (h : position ≤ buffer.length) :
    Matches buffer (some (.error e position)) (.error e (.inside buffer position))

/-- Wherever it begins in a buffer, the scan does not leave the buffer, and it comes to the same as
the read. -/
def Follows (scan : Scan ε α) (read : EStateM ε Cursor α) : Prop :=
  ∀ buffer position, position ≤ buffer.length →
    Matches buffer (scan buffer position) (read (.inside buffer position))

namespace Follows

theorem pure (a : α) : Follows (Pure.pure a : Scan ε α) (Pure.pure a) := fun _ _ h => .ok a h

theorem bind {x : Scan ε α} {y : EStateM ε Cursor α} {f : α → Scan ε β}
    {g : α → EStateM ε Cursor β} (hx : Follows x y) (hf : ∀ a, Follows (f a) (g a)) :
    Follows (x >>= f) (y >>= g) := by
  intro buffer position h
  have hxy := hx buffer position h
  simp only [Bind.bind, EStateM.bind]
  generalize x buffer position = found at hxy ⊢
  generalize y (.inside buffer position) = expected at hxy ⊢
  cases hxy with
  | ok a h => exact hf a buffer _ h
  | error e h => exact .error e h

theorem ite {c : Prop} [Decidable c] {x x' : Scan ε α} {y y' : EStateM ε Cursor α}
    (hx : Follows x y) (hx' : Follows x' y') :
    Follows (if c then x else x') (if c then y else y') := by
  by_cases h : c
  · rwa [if_pos h, if_pos h]
  · rwa [if_neg h, if_neg h]

/-! Three kinds of access go to the buffer. -/

theorem bytes (n : Nat) : Follows (bytes n) (Read.bytes n) := by
  intro buffer position h
  have hlength : (buffer.drop position).length = buffer.length - position := List.length_drop
  by_cases hn : buffer.length - position < n
  · have hshort : ((buffer.drop position).take n).length ≠ n := by
      rw [List.length_take, hlength]
      omega
    simp only [Scan.bytes, Bind.bind, ensure, if_pos hn, Read.bytes, Cursor.inside, if_neg hshort,
      Cursor.remaining, hlength]
    exact .error _ h
  · have hlong : ((buffer.drop position).take n).length = n := by
      rw [List.length_take, hlength]
      omega
    have hslice : slice buffer position (position + n) = some ((buffer.drop position).take n) := by
      rw [slice, if_pos (by omega), Nat.add_sub_cancel_left]
    simp only [Scan.bytes, Bind.bind, ensure, if_neg hn, hslice, Option.map_some, Read.bytes,
      Cursor.inside, if_pos hlong, Cursor.skip, List.drop_drop]
    exact .ok _ (by omega)

theorem byte : Follows byte Read.byte := by
  intro buffer position h
  by_cases hn : buffer.length - position < 1
  · have hnil : buffer.drop position = [] := List.drop_eq_nil_of_le (by omega)
    have hremaining : (Cursor.inside buffer position).remaining = buffer.length - position :=
      List.length_drop
    simp only [Scan.byte, Bind.bind, ensure, if_pos hn, Read.byte, hremaining]
    simp only [Cursor.inside, hnil]
    rw [← hnil]
    exact .error _ h
  · have hlt : position < buffer.length := by omega
    simp only [Scan.byte, Bind.bind, ensure, if_neg hn, Read.byte, Cursor.inside,
      List.getElem?_eq_getElem hlt, Option.map_some, List.drop_eq_getElem_cons hlt, Cursor.skip,
      List.drop_succ_cons, List.drop_zero]
    exact .ok _ hlt

/-- Where the first NUL byte is. -/
theorem findIdx?_zero (l : List UInt8) :
    match l.findIdx? (· == 0) with
    | none => l.dropWhile (· != 0) = []
    | some nul => nul < l.length ∧ l.takeWhile (· != 0) = l.take nul ∧
        l.dropWhile (· != 0) = 0 :: l.drop (nul + 1) := by
  induction l with
  | nil => rfl
  | cons b l ih =>
    by_cases hb : b = 0
    · subst hb
      simp [List.findIdx?_cons]
    · have hne : (b == 0) = false := by simpa using hb
      rw [List.findIdx?_cons, hne]
      simp only [Bool.false_eq_true, if_false]
      cases hl : l.findIdx? (· == 0) with
      | none =>
        rw [hl] at ih
        simpa [List.dropWhile_cons, hb] using ih
      | some nul =>
        rw [hl] at ih
        obtain ⟨hlt, htake, hdrop⟩ := ih
        refine ⟨Nat.succ_lt_succ hlt, ?_, ?_⟩
        · simp [hb, htake]
        · simpa [List.dropWhile_cons, hb] using hdrop

theorem terminated : Follows terminated Read.terminated := by
  intro buffer position h
  have hrest : slice buffer (min position buffer.length) buffer.length =
      some (buffer.drop position) := by
    rw [Nat.min_eq_left h, slice, if_pos ⟨h, Nat.le_refl _⟩, ← List.length_drop, List.take_length]
  have hzero := findIdx?_zero (buffer.drop position)
  simp only [Scan.terminated, hrest, Option.bind_eq_bind, Option.bind_some, Read.terminated,
    Cursor.inside]
  cases hnul : (buffer.drop position).findIdx? (· == 0) with
  | none =>
    rw [hnul] at hzero
    simp only [hzero]
    exact .error _ h
  | some nul =>
    rw [hnul] at hzero
    obtain ⟨hlt, htake, hdrop⟩ := hzero
    have htaken : slice (buffer.drop position) 0 nul = some ((buffer.drop position).take nul) := by
      rw [slice, if_pos ⟨Nat.zero_le _, Nat.le_of_lt hlt⟩]
      rfl
    have hlength : ((buffer.drop position).take nul).length = nul :=
      List.length_take_of_le (Nat.le_of_lt hlt)
    simp only [htaken, hdrop, htake, hlength, Option.bind_some, Option.pure_def, List.drop_drop]
    rw [List.length_drop] at hlt
    rw [← Nat.add_assoc]
    exact .ok _ (by omega)

/-! Everything else is put together from them. -/

theorem copied (n : Nat) : Follows (copied n) (Read.bytes n) := by
  intro buffer position h
  have hbytes := bytes n buffer position h
  have hlength : ∀ taken c, Read.bytes n (.inside buffer position) = .ok taken c →
      taken.length = n := by
    intro taken c htaken
    unfold Read.bytes at htaken
    dsimp only at htaken
    split at htaken <;> cases htaken
    assumption
  simp only [Scan.copied, Bind.bind]
  generalize Scan.bytes n buffer position = found at hbytes ⊢
  generalize Read.bytes n (.inside buffer position) = expected at hbytes hlength ⊢
  cases hbytes with
  | ok taken hp =>
    dsimp only
    rw [if_pos (hlength taken _ rfl)]
    exact .ok taken hp
  | error e hp => exact .error e hp

theorem word : Follows word Read.word := bind (copied 4) fun _ => pure _

theorem text : Follows text Read.text := bind word fun n => bind (bytes n.toNat) fun _ => pure _

theorem times {x : Scan ReadFault α} {y : Read α} (h : Follows x y) (n : Nat) :
    Follows (times x n) (Read.times y n) := by
  induction n with
  | zero => exact pure []
  | succ n ih => exact bind h fun _ => bind ih fun _ => pure _

theorem counted {x : Scan ReadFault α} {y : Read α} (h : Follows x y) :
    Follows (counted x) (Read.counted y) := bind word fun n => h.times n.toNat

theorem field : Follows field Read.field :=
  bind word fun _ => bind word fun _ => bind byte fun _ => bind byte fun _ => pure _

theorem variableRecord : Follows variableRecord Read.variableRecord :=
  bind word fun _ => bind word fun _ => pure _

theorem instruction : Follows instruction Read.instruction :=
  bind byte fun _ => bind byte fun n => bind (word.times n.toNat) fun _ => pure _

theorem method : Follows method Read.method :=
  bind word fun _ => bind word fun _ => bind byte fun _ => bind byte fun _ =>
    bind variableRecord.counted fun _ => bind variableRecord.counted fun _ =>
      bind instruction.counted fun _ => pure _

theorem typeRecord : Follows typeRecord Read.typeRecord :=
  bind byte fun _ => bind word fun _ => bind word fun _ => bind byte fun _ => bind byte fun _ =>
    bind word fun _ => bind word.counted fun _ => bind field.counted fun _ =>
      bind method.counted fun _ => pure _

theorem constant : Follows constant Read.constant :=
  bind byte fun _ => bind word fun n => bind (bytes n.toNat) fun _ => pure _

theorem within {x : Scan ReadFault α} {y : Read α} (hx : Follows x y) (payload : List UInt8) :
    Follows (within payload x) (Read.within payload y) := by
  intro buffer position h
  have hxy := hx payload 0 (Nat.zero_le _)
  have hstart : Cursor.inside payload 0 = .start payload := rfl
  rw [hstart] at hxy
  unfold Scan.within Read.within
  generalize x payload 0 = found at hxy ⊢
  generalize y (.start payload) = expected at hxy ⊢
  cases hxy with
  | ok a => exact .ok a h
  | error e => exact .error e h

theorem cutOff {x : Scan ReadFault α} {y : Read α} (hx : Follows x y) :
    Follows (cutOff x) (Image.cutOff y) := by
  intro buffer position h
  have hxy := hx buffer position h
  simp only [Scan.cutOff, Image.cutOff, EStateM.adaptExcept]
  generalize x buffer position = found at hxy ⊢
  generalize y (.inside buffer position) = expected at hxy ⊢
  cases hxy with
  | ok a h => exact .ok a h
  | error e h => exact .error _ h

theorem addSection (image : Image) (name : String) (payload : List UInt8) :
    Follows (addSection image name payload) (Image.addSection image name payload) :=
  ite (bind (text.counted.within payload) fun _ => pure _)
    (ite (bind (typeRecord.counted.within payload) fun _ => pure _)
      (ite (bind (constant.counted.within payload) fun _ => pure _) (pure image)))

/-- What comes next depends on the place. -/
theorem atPlace {f : Nat × Nat → Scan ε α} {g : Cursor → EStateM ε Cursor α}
    (h : ∀ buffer position, position ≤ buffer.length →
      Matches buffer (f (position, buffer.length) buffer position)
        (g (.inside buffer position) (.inside buffer position))) :
    Follows (place >>= f) (get >>= g) := h

theorem hasMore_inside (buffer : List UInt8) (position : Nat) :
    (Cursor.inside buffer position).hasMore = true ↔ position < buffer.length := by
  rw [Cursor.hasMore, Cursor.inside, Bool.not_eq_true', List.isEmpty_eq_false_iff, ne_eq,
    List.drop_eq_nil_iff, Nat.not_le]

theorem sections (tableEnd n : Nat) (image : Image) :
    Follows (sections tableEnd n image) (Image.sections tableEnd n image) := by
  induction n generalizing image with
  | zero => exact pure image
  | succ n ih =>
    refine atPlace fun buffer position h => ?_
    dsimp only
    by_cases hgo : position < tableEnd ∧ position < buffer.length
    · rw [if_pos hgo, if_pos ⟨hgo.1, (hasMore_inside buffer position).mpr hgo.2⟩]
      exact bind terminated (fun name => ite (pure image) (bind word fun size =>
        bind (bytes size.toNat) fun payload =>
          bind (addSection image name payload) fun image => ih image)) buffer position h
    · rw [if_neg hgo, if_neg fun hread => hgo ⟨hread.1, (hasMore_inside _ _).mp hread.2⟩]
      exact pure image buffer position h

/-- What would come after a failure does not matter. -/
theorem failed (e : ε) (g : α → EStateM ε Cursor β) :
    Follows (Scan.fail e : Scan ε β) (throw e >>= g) := fun _ _ h => .error e h

theorem header : Follows header Image.readHeader :=
  bind (bytes _).cutOff fun _ => ite (failed _ _) (bind byte.cutOff fun n =>
    bind (bytes n.toNat).cutOff fun _ => ite (failed _ _) (bind word.cutOff fun _ =>
      bind word.cutOff fun _ => pure _))

theorem image : Follows image Image.read := by
  refine bind header fun h => atPlace fun buffer position hp => ?_
  have hremaining : (Cursor.inside buffer position).remaining = buffer.length - position :=
    List.length_drop
  rw [hremaining]
  exact (sections _ _ _).cutOff buffer position hp

end Follows

/-- **Decoding never leaves the buffer.** Whatever the bytes are, scanning them makes no access
outside of them and comes to the image, or the fault, that decoding comes to. -/
theorem decode_eq (data : List UInt8) : decode data = some (Image.decode data) := by
  have hmatches := Follows.image data 0 (Nat.zero_le _)
  have hstart : Cursor.inside data 0 = .start data := rfl
  rw [hstart] at hmatches
  unfold decode Image.decode
  generalize image data 0 = found at hmatches ⊢
  generalize Image.read (.start data) = expected at hmatches ⊢
  cases hmatches <;> rfl

/-! ## Any calls in any order -/

end Scan

/-- A call of a reader. -/
inductive ReadCall where
  | byte
  | word
  | bytes (n : Nat)
  | text
  | terminated
deriving DecidableEq, Repr

/-- The answer to a call of a reader. -/
inductive ReadAnswer where
  | byte (b : UInt8)
  | word (w : UInt32)
  | bytes (bs : List UInt8)
  | text (s : String)
deriving DecidableEq, Repr

namespace ReadCall

/-- Makes the call by position. -/
def scan : ReadCall → Scan ReadFault ReadAnswer
  | byte => do return .byte (← Scan.byte)
  | word => do return .word (← Scan.word)
  | bytes n => do return .bytes (← Scan.bytes n)
  | text => do return .text (← Scan.text)
  | terminated => do return .text (← Scan.terminated)

/-- Makes the call with a cursor. -/
def read : ReadCall → Read ReadAnswer
  | byte => do return .byte (← Read.byte)
  | word => do return .word (← Read.word)
  | bytes n => do return .bytes (← Read.bytes n)
  | text => do return .text (← Read.text)
  | terminated => do return .text (← Read.terminated)

theorem follows (call : ReadCall) : call.scan.Follows call.read := by
  cases call with
  | byte => exact .bind .byte fun _ => .pure _
  | word => exact .bind .word fun _ => .pure _
  | bytes n => exact .bind (.bytes n) fun _ => .pure _
  | text => exact .bind .text fun _ => .pure _
  | terminated => exact .bind .terminated fun _ => .pure _

/-- One call after the other, whether they fail or not, by position. -/
def scanAll (buffer : List UInt8) :
    List ReadCall → Nat → Option (List (Except ReadFault ReadAnswer))
  | [], _ => some []
  | call :: rest, position =>
    match call.scan buffer position with
    | none => none
    | some (.ok a position) => (scanAll buffer rest position).map (.ok a :: ·)
    | some (.error e position) => (scanAll buffer rest position).map (.error e :: ·)

/-- One call after the other, whether they fail or not, with a cursor. -/
def readAll : List ReadCall → Cursor → List (Except ReadFault ReadAnswer)
  | [], _ => []
  | call :: rest, c =>
    match call.read c with
    | .ok a c => .ok a :: readAll rest c
    | .error e c => .error e :: readAll rest c

/-- Calls in any order stay in the buffer. -/
theorem scanAll_eq (buffer : List UInt8) (calls : List ReadCall) {position : Nat}
    (h : position ≤ buffer.length) :
    scanAll buffer calls position = some (readAll calls (.inside buffer position)) := by
  induction calls generalizing position with
  | nil => rfl
  | cons call rest ih =>
    have hcall := call.follows buffer position h
    unfold scanAll readAll
    generalize call.scan buffer position = found at hcall ⊢
    generalize call.read (.inside buffer position) = expected at hcall ⊢
    cases hcall with
    | ok a h => dsimp only; rw [ih h]; rfl
    | error e h => dsimp only; rw [ih h]; rfl

end ReadCall

end ObjectMachine
