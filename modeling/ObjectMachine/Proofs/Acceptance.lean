import ObjectMachine.Proofs.Sections

/-!
# Which bytes are images

The header is read from one sequence of bytes only, since the name in it is compared without loss.
Behind it stands a table of sections, so the bytes that are decoded are known exactly
(`decode_eq_ok_iff`), and what is written for an image is decoded as that image (`decode_encode`).
-/

namespace ObjectMachine

open Spelling

variable {α ε : Type}

/-! ## The header -/

/-- A reader that gives up unless something holds. -/
theorem Accepts.unless {p : Prop} [Decidable p] {e : ε} {k : Unit → EStateM ε Cursor α}
    {G : Spelling α} (hk : Accepts (k ()) G) :
    Accepts (if p then MonadExcept.throw e >>= k else k ()) fun a bytes => ¬ p ∧ G a bytes := by
  by_cases h : p
  · rw [if_pos h]
    refine ((Accepts.throw e).bind fun _ => hk).congr fun a bytes => ?_
    simp [after, h]
  · rw [if_neg h]
    exact hk.congr fun a bytes => by simp [h]

namespace Image

theorem cutOff_eq (r : Read α) (c : Cursor) : cutOff r c = match r c with
    | .ok a c => .ok a c
    | .error e c => .error (.truncated e) c := by
  simp only [cutOff, EStateM.adaptExcept]
  cases r c <;> rfl

theorem cutOff_accepts {r : Read α} {G : Spelling α} (hr : Accepts r G) :
    Accepts (cutOff r) G := by
  intro c a c'
  rw [← hr c a c', cutOff_eq]
  cases r c <;> simp

/-- The bytes of an image up to the declared size. -/
def signature : List UInt8 := [70, 79, 66, 12, 79, 66, 74, 69, 67, 84, 73, 82, 44, 70, 79, 66]

theorem headerBytes_eq (size : Nat) (entryPoint : UInt32) :
    headerBytes size entryPoint = signature ++ Write.size size ++ Write.word entryPoint := by
  have name : Text.toBytes forkName = [79, 66, 74, 69, 67, 84, 73, 82, 44, 70, 79, 66] := by decide
  simp only [headerBytes, name]
  rfl

theorem length_headerBytes (size : Nat) (entryPoint : UInt32) :
    (headerBytes size entryPoint).length = 24 := by
  simp [headerBytes_eq, signature, Write.size, Write.word]

/-- The header is read from its own bytes only: the name in it is read without loss. -/
theorem readHeader_accepts : Accepts readHeader fun h bytes =>
    h.forkName = forkName ∧ bytes = headerBytes h.fileSize.toNat h.entryPoint := by
  have name {raw : List UInt8} : Text.ofBytes raw = forkName ↔ raw = Text.toBytes forkName :=
    Text.ofBytes_eq_iff (by decide)
  refine ((cutOff_accepts (Read.bytes_accepts magic.length)).bind fun found =>
    .unless ((cutOff_accepts Read.byte_accepts).bind fun n =>
      (cutOff_accepts (Read.bytes_accepts n.toNat)).bind fun raw =>
        .unless ((cutOff_accepts Read.word_accepts).bind fun fileSize =>
          (cutOff_accepts Read.word_accepts).bind fun entryPoint => .pure _))).congr
            fun h bytes => ?_
  obtain ⟨fork, fileSize, entryPoint⟩ := h
  simp only [after, ne_eq, Decidable.not_not, written, true_and, name, Header.mk.injEq,
    exists_and_left, ↓existsAndEq, and_true, List.append_nil, exists_eq_left, List.cons_append,
    List.nil_append, headerBytes, List.append_assoc]
  constructor
  · rintro ⟨n, ⟨hn, rfl⟩, rfl⟩
    rw [hn, UInt8.ofNat_toNat]
    exact ⟨Text.ofBytes_toBytes forkName, rfl⟩
  · rintro ⟨rfl, rfl⟩
    exact ⟨_, ⟨by decide, (Text.ofBytes_toBytes forkName).symm⟩, rfl⟩

/-! ## Images -/

theorem read_eq (c : Cursor) : read c = match readHeader c with
    | .ok h c => cutOff (sections (c.position + h.fileSize.toNat) c.remaining { header := h }) c
    | .error e c => .error e c := by
  simp only [read, bind, EStateM.bind]
  cases readHeader c <;> rfl

/-- What is decoded behind a header is what the loop over the sections makes of it. -/
theorem decode_headerBytes (fileSize entryPoint : UInt32) (body : List UInt8) :
    decode (headerBytes fileSize.toNat entryPoint ++ body) =
      match sections (24 + fileSize.toNat) body.length
        { header := { forkName, fileSize, entryPoint } } ⟨24, body⟩ with
      | .ok image _ => .ok image
      | .error e _ => .error (.truncated e) := by
  have header := readHeader_accepts.reads (a := ⟨forkName, fileSize, entryPoint⟩) ⟨rfl, rfl⟩ 0 body
  rw [length_headerBytes] at header
  simp only [decode, read_eq, Cursor.start, header, cutOff_eq, Cursor.remaining, Nat.zero_add]
  cases sections (24 + fileSize.toNat) body.length _ ⟨24, body⟩ <;> rfl

/-- Nothing is decoded without a header. -/
theorem exists_header_of_decode {data : List UInt8} {image : Image} (h : decode data = .ok image) :
    ∃ (fileSize entryPoint : UInt32) (body : List UInt8),
      data = headerBytes fileSize.toNat entryPoint ++ body := by
  simp only [decode, read_eq] at h
  cases hs : readHeader (.start data) with
  | error e c => rw [hs] at h; cases h
  | ok header c =>
    obtain ⟨_, ⟨-, rfl⟩, hdata, -⟩ := (readHeader_accepts _ _ _).mp hs
    exact ⟨_, _, _, hdata⟩

/-- The image of some records behind a header. -/
def holding (fileSize entryPoint : UInt32) (rs : List Records) : Image where
  header := { forkName, fileSize, entryPoint }
  strings := rs.flatMap (·.strings)
  types := rs.flatMap (·.types)
  constants := rs.flatMap (·.constants)

theorem decode_of_table (fileSize entryPoint : UInt32) {body rest : List UInt8}
    {ss : List TableSection} {rs : List Records}
    (table : TableAt (24 + fileSize.toNat) ⟨24, body⟩ ss rest)
    (held : List.Forall₂ TableSection.Holds ss rs) :
    decode (headerBytes fileSize.toNat entryPoint ++ body) =
      .ok (holding fileSize entryPoint rs) := by
  obtain ⟨c, h⟩ := sections_of_table { header := { forkName, fileSize, entryPoint } }
    (Nat.le_refl body.length) table held
  rw [decode_headerBytes, h]
  rfl

/-- The first section that cannot be read by itself is what is wrong with the image. -/
theorem decode_of_error (fileSize entryPoint : UInt32) {ss : List TableSection}
    (rest : List UInt8) {e : ReadFault} (begin : BeginBefore (24 + fileSize.toNat) 24 ss)
    (failed : ss.mapM TableSection.records = .error e) :
    decode (headerBytes fileSize.toNat entryPoint ++ (tableBytes ss ++ rest)) =
      .error (.truncated e) := by
  have fewer := length_le_tableBytes ss
  obtain ⟨k, turns⟩ : ∃ k, (tableBytes ss ++ rest).length = ss.length + k := by
    rw [List.length_append]
    exact Nat.exists_eq_add_of_le (by omega)
  have stopped : ∃ c, sections (24 + fileSize.toNat) (ss.length + k)
      { header := { forkName, fileSize, entryPoint } } ⟨24, tableBytes ss ++ rest⟩ = .error e c :=
    sections_of_error failed begin
  obtain ⟨c, stopped⟩ := stopped
  rw [decode_headerBytes, turns, stopped]

/-- **Only images are decoded.** Bytes are decoded exactly if they begin with the signature and the
two words of the header, sections follow that begin before the declared end of the table, and each
section that is named for strings, types or constants holds as many of these as it says. -/
theorem decode_eq_ok_iff (data : List UInt8) (image : Image) :
    decode data = .ok image ↔
      ∃ (ss : List TableSection) (rs : List Records) (rest : List UInt8),
        data = signature ++ Write.word image.header.fileSize ++ Write.word image.header.entryPoint
          ++ (tableBytes ss ++ rest) ∧
        BeginBefore (24 + image.header.fileSize.toNat) 24 ss ∧
        (rest = [] ∨ rest.head? = some 0 ∨
          24 + image.header.fileSize.toNat ≤ 24 + (tableBytes ss).length) ∧
        List.Forall₂ TableSection.Holds ss rs ∧
        image.header.forkName = "OBJECTIR,FOB" ∧
        image.strings = rs.flatMap (·.strings) ∧
        image.types = rs.flatMap (·.types) ∧
        image.constants = rs.flatMap (·.constants) := by
  constructor
  · intro h
    obtain ⟨fileSize, entryPoint, body, rfl⟩ := exists_header_of_decode h
    rw [decode_headerBytes] at h
    split at h
    · rename_i image' c hs
      cases h
      obtain ⟨ss, rs, rest, ⟨rfl, begin, stop⟩, held, rfl⟩ :=
        exists_table_of_sections (c := ⟨24, body⟩) (Nat.le_refl body.length) hs
      exact ⟨ss, rs, rest, by rw [headerBytes_eq]; rfl, begin, stop, held, rfl, rfl, rfl, rfl⟩
    · cases h
  · rintro ⟨ss, rs, rest, rfl, begin, stop, held, fork, strings, types, constants⟩
    have decoded := decode_of_table image.header.fileSize image.header.entryPoint
      ⟨rfl, begin, stop⟩ held
    rw [headerBytes_eq] at decoded
    refine decoded.trans (congrArg Except.ok ?_)
    obtain ⟨⟨_, _, _⟩, _, _, _⟩ := image
    simp_all [holding, forkName]

/-! ## Written images -/

/-- The numbers of records and the lengths of texts are words. -/
@[mk_iff]
structure Fits (image : Image) : Prop where
  strings : image.strings.length < UInt32.size ∧
    ∀ s ∈ image.strings, (Text.toBytes s).length < UInt32.size
  types : image.types.length < UInt32.size ∧ ∀ t ∈ image.types, t.Fits
  constants : image.constants.length < UInt32.size ∧ ∀ c ∈ image.constants, c.Fits

instance (image : Image) : Decidable image.Fits := decidable_of_iff _ (image.fits_iff).symm

theorem counted_text_eq (strings : List String) :
    Write.counted Write.text strings = Write.counted Write.sized (strings.map Text.toBytes) := by
  rw [Write.counted, Write.counted, List.flatMap_map, List.length_map]
  rfl

/-- What is written for an image is a table of three sections that hold its records. -/
theorem exists_sections_of_table (image : Image) (fits : image.Fits)
    (size : image.table.length < UInt32.size) : ∃ ss, image.table = tableBytes ss ∧
      List.Forall₂ TableSection.Holds ss
        [{ strings := image.strings }, { types := image.types },
          { constants := image.constants }] := by
  simp only [table, Write.tableSection, Write.sized, List.length_append] at size
  let strings : TableSection := ⟨Text.toBytes ".strings", Write.counted Write.text image.strings,
    by decide, by decide, by omega⟩
  let types : TableSection := ⟨Text.toBytes ".types", Write.counted Write.typeRecord image.types,
    by decide, by decide, by omega⟩
  let constants : TableSection := ⟨Text.toBytes ".constants",
    Write.counted Write.constant image.constants, by decide, by decide, by omega⟩
  have holdsStrings : strings.Holds { strings := image.strings } := by
    have back : (image.strings.map Text.toBytes).map Text.ofBytes = image.strings := by
      simp [Function.comp_def, Text.ofBytes_toBytes]
    rw [← back]
    exact .strings (image.strings.map Text.toBytes) [] rfl (by simpa using fits.strings.1)
      (by simpa using fits.strings.2) (by rw [List.append_nil, ← counted_text_eq])
  have holdsTypes : types.Holds { types := image.types } :=
    .types image.types [] rfl fits.types.1 fits.types.2 (List.append_nil _).symm
  have holdsConstants : constants.Holds { constants := image.constants } :=
    .constants image.constants [] rfl fits.constants.1 fits.constants.2 (List.append_nil _).symm
  refine ⟨[strings, types, constants], ?_,
    .cons holdsStrings (.cons holdsTypes (.cons holdsConstants .nil))⟩
  simp [table, tableBytes, TableSection.bytes, Write.tableSection, strings, types, constants]

/-- **What is written for an image is decoded as that image.** The header has to carry the name of
the format and the size of the section table, and the numbers and lengths have to fit. -/
theorem decode_encode (image : Image) (fork : image.header.forkName = "OBJECTIR,FOB")
    (size : image.header.fileSize.toNat = image.table.length) (fits : image.Fits) :
    decode image.encode = .ok image := by
  have small : image.table.length < UInt32.size := size ▸ image.header.fileSize.toNat_lt
  obtain ⟨ss, htable, held⟩ := exists_sections_of_table image fits small
  have room : 24 + (tableBytes ss).length ≤ 24 + image.header.fileSize.toNat :=
    Nat.le_of_eq (by rw [size, htable])
  have decoded := decode_of_table image.header.fileSize image.header.entryPoint (.of_le room) held
  rw [encode, ← size, htable, decoded]
  obtain ⟨⟨_, _, _⟩, _, _, _⟩ := image
  simp_all [holding, forkName]

def adder : Image where
  header := ⟨"OBJECTIR,FOB", 182, 0⟩
  strings := ["Adder", "größe", "int32"]
  types := [
    { kind := 0, name := 0, space := 0, access := 0, flags := 0, base := 0xffffffff
      interfaces := [3]
      fields := [⟨1, 2, 0, 0⟩]
      methods := [
        { name := 1, returns := 2, access := 0, flags := 1
          parameters := [⟨1, 2⟩]
          locals := [⟨1, 2⟩]
          code := [.of .ldArg [1], .of .ldLoc [0], .of .add [], .of .ret []] }] }]
  constants := [⟨3, [52, 50]⟩]

theorem decode_encode_adder : adder.header.fileSize.toNat = adder.table.length ∧ adder.Fits ∧
    decode adder.encode = .ok adder := by
  have size : adder.header.fileSize.toNat = adder.table.length := by decide +kernel
  have fits : adder.Fits := by decide
  exact ⟨size, fits, decode_encode adder rfl size fits⟩

end Image

end ObjectMachine
