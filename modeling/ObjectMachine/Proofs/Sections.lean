import Mathlib.Data.List.Forall2
import ObjectMachine.Proofs.Lossless
import ObjectMachine.Proofs.Spelling

/-!
# The section table

The loop over the sections of an image, one turn at a time. A turn that finds a section adds the
records that the section holds by itself, so a table of sections that all begin before its end adds
the records of one section after the other (`sections_of_holds`), up to the first section that
cannot be read (`sections_of_error`). Conversely, whatever the loop makes of any bytes, it has read
them as such a table (`exists_table_of_sections`).
-/

namespace ObjectMachine

open Spelling

/-! ## Sections -/

/-- A section: a name that is not empty and holds no NUL byte, and bytes whose number is a word. -/
structure TableSection where
  name : List UInt8
  payload : List UInt8
  name_ne_nil : name ≠ []
  zero_notMem : 0 ∉ name
  payload_fits : payload.length < UInt32.size
deriving DecidableEq

/-- A section as it is written. -/
def TableSection.bytes (s : TableSection) : List UInt8 := s.name ++ [0] ++ Write.sized s.payload

/-- Sections as they are written, one behind the other. -/
def tableBytes (ss : List TableSection) : List UInt8 := ss.flatMap TableSection.bytes

/-- Every section begins before the end of the table. -/
def BeginBefore (tableEnd : Nat) : Nat → List TableSection → Prop
  | _, [] => True
  | offset, s :: ss => offset < tableEnd ∧ BeginBefore tableEnd (offset + s.bytes.length) ss

/-- The bytes from a cursor on are a table of sections that ends before the remaining bytes: at the
end of the bytes, at the declared end of the table or at a section without a name. -/
structure TableAt (tableEnd : Nat) (c : Cursor) (ss : List TableSection) (rest : List UInt8) :
    Prop where
  bytes : c.rest = tableBytes ss ++ rest
  begin : BeginBefore tableEnd c.position ss
  stop : rest = [] ∨ rest.head? = some 0 ∨ tableEnd ≤ c.position + (tableBytes ss).length

/-- What sections hold. -/
structure Records where
  strings : List String := []
  types : List TypeRecord := []
  constants : List ConstantRecord := []
deriving DecidableEq, Repr

/-- An image with further records. -/
def Image.extend (image : Image) (rs : List Records) : Image :=
  { image with
    strings := image.strings ++ rs.flatMap (·.strings)
    types := image.types ++ rs.flatMap (·.types)
    constants := image.constants ++ rs.flatMap (·.constants) }

/-- The names of the sections that hold records. -/
def recordNames : List (List UInt8) := [".strings", ".types", ".constants"].map Text.toBytes

/-- The records in a section: as many as the word in front of them says, and any bytes behind
them. -/
inductive TableSection.Holds (s : TableSection) : Records → Prop
  | strings (raws : List (List UInt8)) (rest : List UInt8)
    (named : s.name = Text.toBytes ".strings")
    (count : raws.length < UInt32.size) (fits : ∀ raw ∈ raws, raw.length < UInt32.size)
    (payload : s.payload = Write.counted Write.sized raws ++ rest) :
    Holds s { strings := raws.map Text.ofBytes }
  | types (types : List TypeRecord) (rest : List UInt8) (named : s.name = Text.toBytes ".types")
    (count : types.length < UInt32.size) (fits : ∀ t ∈ types, t.Fits)
    (payload : s.payload = Write.counted Write.typeRecord types ++ rest) : Holds s { types }
  | constants (constants : List ConstantRecord) (rest : List UInt8)
    (named : s.name = Text.toBytes ".constants")
    (count : constants.length < UInt32.size) (fits : ∀ c ∈ constants, c.Fits)
    (payload : s.payload = Write.counted Write.constant constants ++ rest) : Holds s { constants }
  | skipped (unknown : s.name ∉ recordNames) : Holds s {}

/-- What a reader makes of bytes of its own. -/
def Read.alone {α : Type} (r : Read α) (bytes : List UInt8) : Except ReadFault α :=
  match r (.start bytes) with
  | .ok a _ => .ok a
  | .error e _ => .error e

/-- What is read from a section by itself. -/
def TableSection.records (s : TableSection) : Except ReadFault Records :=
  if s.name = Text.toBytes ".strings" then
    (fun strings => { strings }) <$> (Read.counted Read.text).alone s.payload
  else if s.name = Text.toBytes ".types" then
    (fun types => { types }) <$> (Read.counted Read.typeRecord).alone s.payload
  else if s.name = Text.toBytes ".constants" then
    (fun constants => { constants }) <$> (Read.counted Read.constant).alone s.payload
  else .ok {}

namespace Read

variable {α : Type}

theorem alone_eq_ok_iff {r : Read α} {G : Spelling α} (hr : Accepts r G) {bytes : List UInt8}
    {a : α} : r.alone bytes = .ok a ↔ ∃ front rest, G a front ∧ bytes = front ++ rest := by
  constructor
  · intro h
    simp only [alone] at h
    split at h
    · rename_i a' c hs
      cases h
      obtain ⟨front, hfront, hbytes, -⟩ := (hr _ _ _).mp hs
      exact ⟨front, c.rest, hfront, hbytes⟩
    · cases h
  · rintro ⟨front, rest, hfront, rfl⟩
    simp only [alone, Cursor.start, hr.reads hfront 0 rest]

/-- Which bytes a reader makes something of that is turned into something else. -/
theorem map_alone_eq_ok_iff {β : Type} {r : Read α} {G : Spelling α} (hr : Accepts r G) (f : α → β)
    (bytes : List UInt8) (b : β) :
    f <$> r.alone bytes = .ok b ↔
      ∃ a front rest, G a front ∧ bytes = front ++ rest ∧ f a = b := by
  constructor
  · intro h
    cases hs : r.alone bytes with
    | error e => rw [hs] at h; cases h
    | ok a =>
      rw [hs] at h
      cases h
      obtain ⟨front, rest, hfront, hbytes⟩ := (alone_eq_ok_iff hr).mp hs
      exact ⟨a, front, rest, hfront, hbytes, rfl⟩
  · rintro ⟨a, front, rest, hfront, hbytes, rfl⟩
    rw [(alone_eq_ok_iff hr).mpr ⟨front, rest, hfront, hbytes⟩]
    rfl

theorem within_eq (r : Read α) (payload : List UInt8) (c : Cursor) :
    within payload r c = match r.alone payload with
      | .ok a => .ok a c
      | .error e => .error e c := by
  simp only [within, alone]
  cases r (.start payload) <;> rfl

theorem terminated_accepts :
    Accepts terminated (mapped Text.ofBytes (written (· ++ [0]) fun raw => 0 ∉ raw)) := by
  intro c s c'
  constructor
  · intro h
    simp only [terminated] at h
    split at h
    · cases h
    · rename_i first rest hdrop
      cases h
      have hfirst := List.head?_dropWhile_not (· != 0) c.rest
      have hrest := List.takeWhile_append_dropWhile (p := (· != 0)) (l := c.rest)
      simp only [hdrop, List.head?_cons, bne_eq_false_iff_eq] at hfirst
      rw [hdrop, hfirst] at hrest
      refine ⟨_, ⟨_, ⟨?_, rfl⟩, rfl⟩, ?_, ?_⟩
      · intro hmem
        have := List.all_eq_true.mp (List.all_takeWhile (p := (· != 0)) (l := c.rest)) 0 hmem
        simp at this
      · rw [List.append_assoc]; exact hrest.symm
      · simp [Nat.add_assoc]
  · rintro ⟨_, ⟨raw, ⟨clean, rfl⟩, rfl⟩, hrest, hposition⟩
    have nonzero : ∀ b ∈ raw, (b != 0) = true := by
      intro b hb
      exact bne_iff_ne.mpr fun h => clean (h ▸ hb)
    have hrest : c.rest = raw ++ 0 :: c'.rest := by rw [hrest, List.append_assoc]; rfl
    simp only [terminated, hrest, List.dropWhile_append_of_pos nonzero,
      List.takeWhile_append_of_pos nonzero]
    cases c'
    simp_all [Nat.add_assoc]

theorem get_bind (f : Cursor → Read α) (c : Cursor) : (get >>= f) c = f c c := rfl

/-- The next section with the text of its name, or nothing at a section without a name. -/
def nextSection : Read (Option (String × List UInt8)) := do
  let name ← terminated
  if name = "" then return none
  else
    let size ← word
    let payload ← bytes size.toNat
    return some (name, payload)

theorem ofBytes_eq_empty_iff {raw : List UInt8} : Text.ofBytes raw = "" ↔ raw = [] :=
  Text.ofBytes_eq_iff (by decide)

theorem nextSection_accepts : Accepts nextSection fun found bytes =>
    (found = none ∧ bytes = [0]) ∨
      ∃ s : TableSection, found = some (Text.ofBytes s.name, s.payload) ∧ bytes = s.bytes := by
  have named (name : String) : Accepts (if name = "" then (return none : Read _) else do
      let size ← word
      let payload ← bytes size.toNat
      return some (name, payload)) fun found bytes =>
        (name = "" ∧ found = none ∧ bytes = []) ∨
        (name ≠ "" ∧ ∃ payload, found = some (name, payload) ∧ payload.length < UInt32.size ∧
          bytes = Write.sized payload) := by
    by_cases hname : name = ""
    · rw [if_pos hname]
      exact (Accepts.pure _).congr fun found bytes => by simp [hname]
    · rw [if_neg hname]
      exact (sized_accepts fun payload => .pure _).congr fun found bytes => by
        simp [hname, after, written, and_assoc, and_comm]
  refine (terminated_accepts.bind named).congr fun found bytes => ?_
  simp only [after, mapped, written]
  constructor
  · rintro ⟨_, _, _, ⟨raw, ⟨clean, rfl⟩, rfl⟩,
      ⟨hname, rfl, rfl⟩ | ⟨hname, payload, rfl, fits, rfl⟩, rfl⟩
    · rw [ofBytes_eq_empty_iff] at hname
      exact .inl ⟨rfl, by simp [hname]⟩
    · rw [ne_eq, ofBytes_eq_empty_iff] at hname
      exact .inr ⟨⟨raw, payload, hname, clean, fits⟩, rfl, rfl⟩
  · rintro (⟨rfl, rfl⟩ | ⟨s, rfl, rfl⟩)
    · exact ⟨"", [0], [], ⟨[], by simp, by decide⟩, .inl ⟨rfl, rfl, rfl⟩, rfl⟩
    · exact ⟨_, s.name ++ [0], _, ⟨s.name, ⟨s.zero_notMem, rfl⟩, rfl⟩,
        .inr ⟨by rw [ne_eq, ofBytes_eq_empty_iff]; exact s.name_ne_nil, s.payload, rfl,
          s.payload_fits, rfl⟩, rfl⟩

end Read

/-! ## The records of a section -/

namespace TableSection

variable {s : TableSection} {r : Records}

theorem records_of_strings (h : s.name = Text.toBytes ".strings") : s.records =
    (fun strings => { strings }) <$> (Read.counted Read.text).alone s.payload := if_pos h

theorem records_of_types (h : s.name = Text.toBytes ".types") : s.records =
    (fun types => { types }) <$> (Read.counted Read.typeRecord).alone s.payload := by
  rw [records, if_neg (by rw [h]; decide), if_pos h]

theorem records_of_constants (h : s.name = Text.toBytes ".constants") : s.records =
    (fun constants => { constants }) <$> (Read.counted Read.constant).alone s.payload := by
  rw [records, if_neg (by rw [h]; decide), if_neg (by rw [h]; decide), if_pos h]

theorem records_of_unknown (h : s.name ∉ recordNames) : s.records = .ok {} := by
  simp only [recordNames, List.map_cons, List.map_nil, List.mem_cons, not_or] at h
  rw [records, if_neg h.1, if_neg h.2.1, if_neg h.2.2.1]

/-- The name of a section says how it is read. -/
theorem name_cases (s : TableSection) : s.name = Text.toBytes ".strings" ∨
    s.name = Text.toBytes ".types" ∨ s.name = Text.toBytes ".constants" ∨ s.name ∉ recordNames := by
  simp only [recordNames, List.map_cons, List.map_nil, List.mem_cons, List.not_mem_nil, or_false]
  grind

/-- What is read from a section by itself are the records in it. -/
theorem records_eq_ok_iff : s.records = .ok r ↔ s.Holds r := by
  have strings := Read.map_alone_eq_ok_iff Read.counted_text_accepts
    (fun strings => ({ strings } : Records)) s.payload r
  have types := Read.map_alone_eq_ok_iff (Read.counted_written Read.typeRecord_accepts)
    (fun types => ({ types } : Records)) s.payload r
  have constants := Read.map_alone_eq_ok_iff (Read.counted_written Read.constant_accepts)
    (fun constants => ({ constants } : Records)) s.payload r
  constructor
  · intro h
    rcases s.name_cases with named | named | named | unknown
    · rw [records_of_strings named, strings] at h
      obtain ⟨_, _, rest, ⟨raws, ⟨⟨count, fits⟩, rfl⟩, rfl⟩, payload, rfl⟩ := h
      exact .strings raws rest named count fits payload
    · rw [records_of_types named, types] at h
      obtain ⟨ts, _, rest, ⟨⟨count, fits⟩, rfl⟩, payload, rfl⟩ := h
      exact .types ts rest named count fits payload
    · rw [records_of_constants named, constants] at h
      obtain ⟨cs, _, rest, ⟨⟨count, fits⟩, rfl⟩, payload, rfl⟩ := h
      exact .constants cs rest named count fits payload
    · rw [records_of_unknown unknown] at h
      cases h
      exact .skipped unknown
  · intro h
    cases h with
    | strings raws rest named count fits payload =>
      rw [records_of_strings named, strings]
      exact ⟨_, _, rest, ⟨raws, ⟨⟨count, fits⟩, rfl⟩, rfl⟩, payload, rfl⟩
    | types ts rest named count fits payload =>
      rw [records_of_types named, types]
      exact ⟨ts, _, rest, ⟨⟨count, fits⟩, rfl⟩, payload, rfl⟩
    | constants cs rest named count fits payload =>
      rw [records_of_constants named, constants]
      exact ⟨cs, _, rest, ⟨⟨count, fits⟩, rfl⟩, payload, rfl⟩
    | skipped unknown => exact records_of_unknown unknown

end TableSection

namespace Image

/-- Reading from a payload and adding what is read. -/
theorem within_extend {α : Type} (image : Image) (r : Read α) (hold : α → Records)
    (payload : List UInt8) (c : Cursor) :
    (Read.within payload r >>= fun a => pure (image.extend [hold a])) c =
      match hold <$> r.alone payload with
      | .ok records => .ok (image.extend [records]) c
      | .error e => .error e c := by
  simp only [bind, EStateM.bind, Read.within_eq]
  cases r.alone payload <;> rfl

/-- A section adds the records that are read from it by itself. -/
theorem addSection_eq (image : Image) (s : TableSection) (c : Cursor) :
    image.addSection (Text.ofBytes s.name) s.payload c = match s.records with
      | .ok records => .ok (image.extend [records]) c
      | .error e => .error e c := by
  have strings : Text.ofBytes s.name = ".strings" ↔ s.name = Text.toBytes ".strings" :=
    Text.ofBytes_eq_iff (by decide)
  have types : Text.ofBytes s.name = ".types" ↔ s.name = Text.toBytes ".types" :=
    Text.ofBytes_eq_iff (by decide)
  have constants : Text.ofBytes s.name = ".constants" ↔ s.name = Text.toBytes ".constants" :=
    Text.ofBytes_eq_iff (by decide)
  -- both sides ask for the same name, and then for what the payload is read as
  simp only [addSection, strings, types, constants, TableSection.records]
  split
  · rw [← within_extend]
    simp [extend]
  split
  · rw [← within_extend]
    simp [extend]
  split
  · rw [← within_extend]
    simp [extend]
  · simp [extend, pure, EStateM.pure]

end Image

/-! ## Tables -/

theorem TableSection.length_bytes_pos (s : TableSection) : 0 < s.bytes.length := by
  simp only [bytes, List.length_append, List.length_cons]
  omega

theorem tableBytes_cons (s : TableSection) (ss : List TableSection) :
    tableBytes (s :: ss) = s.bytes ++ tableBytes ss := rfl

theorem length_le_tableBytes (ss : List TableSection) : ss.length ≤ (tableBytes ss).length := by
  induction ss with
  | nil => exact Nat.le_refl 0
  | cons s ss ih =>
    have := s.length_bytes_pos
    rw [tableBytes_cons, List.length_append, List.length_cons]
    omega

/-- Sections begin before the end of a table that has room for all of them. -/
theorem beginBefore_of_le {tableEnd offset : Nat} {ss : List TableSection}
    (h : offset + (tableBytes ss).length ≤ tableEnd) : BeginBefore tableEnd offset ss := by
  induction ss generalizing offset with
  | nil => trivial
  | cons s ss ih =>
    have := s.length_bytes_pos
    rw [tableBytes_cons, List.length_append] at h
    exact ⟨by omega, ih (by omega)⟩

namespace TableAt

variable {tableEnd position : Nat} {rest rest' : List UInt8} {ss : List TableSection}

theorem nil {c : Cursor} (stop : c.rest = [] ∨ c.rest.head? = some 0 ∨ tableEnd ≤ c.position) :
    TableAt tableEnd c [] c.rest := ⟨rfl, trivial, stop⟩

theorem cons {s : TableSection} (begins : position < tableEnd)
    (h : TableAt tableEnd ⟨position + s.bytes.length, rest⟩ ss rest') :
    TableAt tableEnd ⟨position, s.bytes ++ rest⟩ (s :: ss) rest' := by
  refine ⟨?_, ⟨begins, h.begin⟩, ?_⟩
  · rw [tableBytes_cons, List.append_assoc]
    exact congrArg (s.bytes ++ ·) h.bytes
  · rw [tableBytes_cons, List.length_append, ← Nat.add_assoc]
    exact h.stop

/-- Sections for which the table has room are all of it when nothing follows them. -/
theorem of_le (h : position + (tableBytes ss).length ≤ tableEnd) :
    TableAt tableEnd ⟨position, tableBytes ss⟩ ss [] :=
  ⟨(List.append_nil _).symm, beginBefore_of_le h, .inl rfl⟩

end TableAt

/-! ## The loop -/

namespace Image

section
variable {tableEnd n position : Nat} {image image' : Image} {c c' : Cursor} {rest : List UInt8}
  {s : TableSection} {ss : List TableSection} {rs : List Records} {e : ReadFault}

/-- Nothing is read at the end of the table or of the bytes. -/
theorem sections_of_stop (h : c.rest = [] ∨ tableEnd ≤ c.position) :
    sections tableEnd n image c = .ok image c := by
  cases n with
  | zero => rfl
  | succ n =>
    have stop : ¬ (c.position < tableEnd ∧ c.hasMore = true) := by
      rcases h with h | h
      · simp [Cursor.hasMore, h]
      · omega
    rw [sections, Read.get_bind, if_neg stop]
    rfl

/-- Otherwise a turn reads the next section. -/
theorem sections_succ (begins : c.position < tableEnd) (more : c.rest ≠ []) :
    sections tableEnd (n + 1) image c = (Read.nextSection >>= fun
      | none => pure image
      | some (name, payload) => addSection image name payload >>= sections tableEnd n) c := by
  have go : c.position < tableEnd ∧ c.hasMore = true := by
    simpa [Cursor.hasMore] using ⟨begins, more⟩
  have turn : (Read.nextSection >>= fun
      | none => pure image
      | some (name, payload) => addSection image name payload >>= sections tableEnd n) = (do
        let name ← Read.terminated
        if name = "" then return image
        else
          let size ← Read.word
          let payload ← Read.bytes size.toNat
          sections tableEnd n (← addSection image name payload)) := by
    rw [Read.nextSection, bind_assoc]
    congr
    funext name
    split <;> simp [bind_assoc]
  rw [turn, sections, Read.get_bind, if_pos go]

/-- A section that is there is read, and the loop goes on behind it. -/
theorem sections_cons (begins : position < tableEnd) :
    sections tableEnd (n + 1) image ⟨position, s.bytes ++ rest⟩ = match s.records with
      | .ok records => sections tableEnd n (image.extend [records])
          ⟨position + s.bytes.length, rest⟩
      | .error e => .error e ⟨position + s.bytes.length, rest⟩ := by
  have more : s.bytes ++ rest ≠ [] := by simp [TableSection.bytes]
  have found := Read.nextSection_accepts.reads (.inr ⟨s, rfl, rfl⟩) position rest
  rw [sections_succ begins more]
  simp only [bind, EStateM.bind, found, addSection_eq]
  cases s.records <;> rfl

/-- A section without a name ends the table. -/
theorem sections_of_terminator (tableEnd n : Nat) (image : Image) (position : Nat)
    (rest : List UInt8) : ∃ c, sections tableEnd n image ⟨position, 0 :: rest⟩ = .ok image c := by
  by_cases begins : position < tableEnd
  · cases n with
    | zero => exact ⟨_, rfl⟩
    | succ n =>
      have found := Read.nextSection_accepts.reads (.inl ⟨rfl, rfl⟩) position rest
      refine ⟨⟨position + 1, rest⟩, ?_⟩
      rw [sections_succ begins (by simp)]
      simp only [bind, EStateM.bind]
      rw [show 0 :: rest = [0] ++ rest from rfl, found]
      rfl
  · exact ⟨_, sections_of_stop (.inr (Nat.le_of_not_lt begins))⟩

theorem extend_nil (image : Image) : image.extend [] = image := by simp [extend]

theorem extend_cons (image : Image) (r : Records) (rs : List Records) :
    image.extend (r :: rs) = (image.extend [r]).extend rs := by simp [extend]

/-- Sections that hold records add them one after the other. -/
theorem sections_of_holds (held : List.Forall₂ TableSection.Holds ss rs)
    (begin : BeginBefore tableEnd position ss) :
    sections tableEnd (ss.length + n) image ⟨position, tableBytes ss ++ rest⟩ =
      sections tableEnd n (image.extend rs) ⟨position + (tableBytes ss).length, rest⟩ := by
  induction held generalizing position image with
  | nil => simp [tableBytes, extend_nil]
  | @cons s r ss rs hs _ ih =>
    rw [tableBytes_cons, List.append_assoc, List.length_cons, Nat.add_right_comm,
      sections_cons begin.1]
    simp only [TableSection.records_eq_ok_iff.mpr hs]
    rw [ih begin.2, ← extend_cons, List.length_append, Nat.add_assoc]

/-- The first section that cannot be read ends the loop. -/
theorem sections_of_error (failed : ss.mapM TableSection.records = .error e)
    (begin : BeginBefore tableEnd position ss) :
    ∃ c, sections tableEnd (ss.length + n) image ⟨position, tableBytes ss ++ rest⟩ =
      .error e c := by
  induction ss generalizing position image with
  | nil => cases failed
  | cons s ss ih =>
    rw [tableBytes_cons, List.append_assoc, List.length_cons, Nat.add_right_comm,
      sections_cons begin.1]
    rw [List.mapM_cons] at failed
    cases hs : s.records with
    | error e' =>
      rw [hs] at failed
      cases failed
      exact ⟨_, rfl⟩
    | ok r =>
      cases hss : ss.mapM TableSection.records with
      | error e' =>
        rw [hs, hss] at failed
        cases failed
        exact ih hss begin.2
      | ok rs =>
        rw [hs, hss] at failed
        cases failed

/-- Where a turn does not fail there is a section, or one without a name. -/
theorem next_of_sections (begins : c.position < tableEnd) (more : c.rest ≠ [])
    (h : sections tableEnd (n + 1) image c = .ok image' c') :
    (∃ rest, c = ⟨c.position, 0 :: rest⟩) ∨
      ∃ (s : TableSection) (rest : List UInt8), c = ⟨c.position, s.bytes ++ rest⟩ := by
  rw [sections_succ begins more] at h
  simp only [bind, EStateM.bind] at h
  cases found : Read.nextSection c with
  | error e c₁ => rw [found] at h; cases h
  | ok next c₁ =>
    obtain ⟨bytes, hnext, hrest, -⟩ := (Read.nextSection_accepts _ _ _).mp found
    rcases hnext with ⟨-, rfl⟩ | ⟨s, -, rfl⟩
    · exact .inl ⟨c₁.rest, by rw [← List.singleton_append, ← hrest]⟩
    · exact .inr ⟨s, c₁.rest, by rw [← hrest]⟩

/-- Whatever the loop reads is a table of sections that hold what it adds. -/
theorem exists_table_of_sections (enough : c.rest.length ≤ n)
    (h : sections tableEnd n image c = .ok image' c') :
    ∃ ss rs rest, TableAt tableEnd c ss rest ∧ List.Forall₂ TableSection.Holds ss rs ∧
      image' = image.extend rs := by
  induction n generalizing image c with
  | zero =>
    cases h
    have empty := List.length_eq_zero_iff.mp (Nat.le_zero.mp enough)
    exact ⟨[], [], _, .nil (.inl empty), .nil, (extend_nil _).symm⟩
  | succ n ih =>
    by_cases stop : c.rest = [] ∨ tableEnd ≤ c.position
    · rw [sections_of_stop stop] at h
      cases h
      exact ⟨[], [], _, .nil (stop.imp_right .inr), .nil, (extend_nil _).symm⟩
    have begins : c.position < tableEnd := by omega
    have more : c.rest ≠ [] := fun empty => stop (.inl empty)
    rcases next_of_sections begins more h with ⟨rest, hc⟩ | ⟨s, rest, hc⟩
    · obtain ⟨c₁, hend⟩ := sections_of_terminator tableEnd (n + 1) image c.position rest
      rw [hc, hend] at h
      cases h
      exact ⟨[], [], _, .nil (.inr (.inl (by rw [hc]; rfl))), .nil, (extend_nil _).symm⟩
    · rw [hc, sections_cons begins] at h
      cases hs : s.records with
      | error e => rw [hs] at h; cases h
      | ok r =>
        rw [hs] at h
        have shorter : rest.length ≤ n := by
          rw [hc] at enough
          simp only [List.length_append, TableSection.bytes, List.length_cons] at enough
          omega
        obtain ⟨ss, rs, rest', htable, held, himage⟩ := ih shorter h
        rw [hc]
        exact ⟨s :: ss, r :: rs, rest', htable.cons begins,
          .cons (TableSection.records_eq_ok_iff.mp hs) held,
          himage.trans (extend_cons image r rs).symm⟩

/-- Conversely, the records of a table are added. -/
theorem sections_of_table (image : Image) (enough : c.rest.length ≤ n)
    (table : TableAt tableEnd c ss rest) (held : List.Forall₂ TableSection.Holds ss rs) :
    ∃ c', sections tableEnd n image c = .ok (image.extend rs) c' := by
  obtain ⟨position, bytes⟩ := c
  obtain ⟨rfl, begin, stop⟩ := table
  have fewer := length_le_tableBytes ss
  rw [List.length_append] at enough
  obtain ⟨k, rfl⟩ : ∃ k, n = ss.length + k := ⟨n - ss.length, by omega⟩
  rw [sections_of_holds held begin]
  rcases stop with rfl | stop | stop
  · exact ⟨_, sections_of_stop (.inl rfl)⟩
  · obtain ⟨rest, rfl⟩ := List.head?_eq_some_iff.mp stop
    exact sections_of_terminator _ _ _ _ _
  · exact ⟨_, sections_of_stop (.inr stop)⟩

end

end Image

end ObjectMachine
