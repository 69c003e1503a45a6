import ObjectMachine.Proofs.Acceptance

/-!
# Section by section

An image adds up what its sections hold, each read by itself (`decode_fileBytes`). So the order of
sections matters only among those of one name, and sections that hold no records do not matter at
all: tables with the same sections of every name that is read give the same records
(`holding_held_of_same`). Bytes behind the declared end of the table do not matter either
(`TableAt.append`).
-/

namespace ObjectMachine

/-- What a section holds, which is nothing if it cannot be read. -/
def TableSection.held (s : TableSection) : Records :=
  match s.records with
  | .ok r => r
  | .error _ => {}

/-- The bytes of an image with a table of the given sections. -/
def fileBytes (entryPoint : UInt32) (ss : List TableSection) : List UInt8 :=
  Image.headerBytes (tableBytes ss).length entryPoint ++ tableBytes ss

section
variable {s : TableSection} {ss ss' : List TableSection} {rs : List Records}

/-! ## Sections by themselves -/

theorem TableSection.Holds.eq_held {r : Records} (h : s.Holds r) : r = s.held := by
  rw [held, records_eq_ok_iff.mpr h]

theorem mapM_records_eq_ok_iff : ss.mapM TableSection.records = .ok rs ↔
    (∀ s ∈ ss, s.Holds s.held) ∧ rs = ss.map TableSection.held := by
  induction ss generalizing rs with
  | nil => simp [pure, Except.pure, eq_comm]
  | cons s ss ih =>
    rw [List.mapM_cons, List.forall_mem_cons, List.map_cons]
    cases hs : s.records with
    | error e =>
      have unreadable : ¬ s.Holds s.held := by simp [← TableSection.records_eq_ok_iff, hs]
      simp [bind, Except.bind, unreadable]
    | ok r =>
      have holds := TableSection.records_eq_ok_iff.mp hs
      obtain rfl := holds.eq_held
      cases hss : ss.mapM TableSection.records with
      | error e =>
        have unreadable : ¬ ∀ s ∈ ss, s.Holds s.held := fun all => by
          simpa [hss] using ih.mpr ⟨all, rfl⟩
        simp [bind, Except.bind, unreadable]
      | ok rs' =>
        obtain ⟨all, rfl⟩ := ih.mp hss
        constructor
        · intro h
          cases h
          exact ⟨⟨holds, all⟩, rfl⟩
        · rintro ⟨-, rfl⟩
          rfl

theorem forall₂_holds (h : ∀ s ∈ ss, s.Holds s.held) :
    List.Forall₂ TableSection.Holds ss (ss.map TableSection.held) := by
  rw [List.forall₂_map_right_iff, List.forall₂_same]
  exact h

/-- A section holds records of the kind that its name says, and no others. -/
theorem TableSection.held_eq_nil (s : TableSection) :
    (s.name ≠ Text.toBytes ".strings" → s.held.strings = []) ∧
    (s.name ≠ Text.toBytes ".types" → s.held.types = []) ∧
    (s.name ≠ Text.toBytes ".constants" → s.held.constants = []) := by
  rw [held]
  cases hs : s.records with
  | error e => exact ⟨fun _ => rfl, fun _ => rfl, fun _ => rfl⟩
  | ok r =>
    cases records_eq_ok_iff.mp hs with
    | strings raws rest named =>
      exact ⟨fun h => absurd named h, fun _ => rfl, fun _ => rfl⟩
    | types ts rest named =>
      exact ⟨fun _ => rfl, fun h => absurd named h, fun _ => rfl⟩
    | constants cs rest named =>
      exact ⟨fun _ => rfl, fun _ => rfl, fun h => absurd named h⟩
    | skipped => exact ⟨fun _ => rfl, fun _ => rfl, fun _ => rfl⟩

/-! ## Tables with the same records -/

theorem flatMap_filter_of_nil {α β : Type} {p : α → Bool} {f : α → List β} (l : List α)
    (h : ∀ a, p a = false → f a = []) : (l.filter p).flatMap f = l.flatMap f := by
  induction l with
  | nil => rfl
  | cons a l ih =>
    cases hp : p a with
    | true => rw [List.filter_cons_of_pos hp, List.flatMap_cons, List.flatMap_cons, ih]
    | false =>
      rw [List.filter_cons_of_neg (by simp [hp]), List.flatMap_cons, h a hp, ih, List.nil_append]

/-- Records of one kind come from the sections of one name. -/
theorem flatMap_held_of_same {α : Type} (kind : Records → List α) (name : List UInt8)
    (only : ∀ s : TableSection, s.name ≠ name → kind s.held = [])
    (same : ss'.filter (·.name = name) = ss.filter (·.name = name)) :
    (ss'.map TableSection.held).flatMap kind = (ss.map TableSection.held).flatMap kind := by
  have only' : ∀ s : TableSection, decide (s.name = name) = false → kind s.held = [] :=
    fun s h => only s (of_decide_eq_false h)
  rw [List.flatMap_map, List.flatMap_map, ← flatMap_filter_of_nil ss' only', same,
    flatMap_filter_of_nil ss only']

/-- The same sections of every name that is read, each in their order, hold the same records. -/
theorem holding_held_of_same (fileSize entryPoint : UInt32)
    (same : ∀ name ∈ recordNames, ss'.filter (·.name = name) = ss.filter (·.name = name)) :
    Image.holding fileSize entryPoint (ss'.map TableSection.held) =
      Image.holding fileSize entryPoint (ss.map TableSection.held) := by
  have strings := flatMap_held_of_same Records.strings _ (fun s => s.held_eq_nil.1)
    (same (Text.toBytes ".strings") (by decide))
  have types := flatMap_held_of_same Records.types _ (fun s => s.held_eq_nil.2.1)
    (same (Text.toBytes ".types") (by decide))
  have constants := flatMap_held_of_same Records.constants _ (fun s => s.held_eq_nil.2.2)
    (same (Text.toBytes ".constants") (by decide))
  simp only [Image.holding, strings, types, constants]

/-- Leaving out the sections that are not read leaves all sections of a name that is. -/
theorem filter_name_of_filter
    (same : ss'.filter (·.name ∈ recordNames) = ss.filter (·.name ∈ recordNames)) :
    ∀ name ∈ recordNames, ss'.filter (·.name = name) = ss.filter (·.name = name) := by
  intro name known
  have narrowed (l : List TableSection) :
      l.filter (·.name = name) = (l.filter (·.name ∈ recordNames)).filter (·.name = name) := by
    rw [List.filter_filter]
    refine List.filter_congr fun s _ => ?_
    by_cases h : s.name = name <;> simp [h, known]
  rw [narrowed ss', same, ← narrowed]

/-- They can be read if the others can. -/
theorem holds_of_same
    (same : ∀ name ∈ recordNames, ss'.filter (·.name = name) = ss.filter (·.name = name))
    (h : ∀ s ∈ ss, s.Holds s.held) : ∀ s ∈ ss', s.Holds s.held := by
  intro s hs
  by_cases known : s.name ∈ recordNames
  · have kept : s ∈ ss'.filter (·.name = s.name) := by simp [hs]
    rw [same s.name known, List.mem_filter] at kept
    exact h s kept.1
  · have holds : s.Holds {} := .skipped known
    exact holds.eq_held ▸ holds

end

/-! ## Images of tables -/

namespace Image

section
variable {entryPoint : UInt32} {ss ss' : List TableSection} {image : Image}

theorem toNat_size (fits : (tableBytes ss).length < UInt32.size) :
    (UInt32.ofNat (tableBytes ss).length).toNat = (tableBytes ss).length :=
  UInt32.toNat_ofNat_of_lt fits

theorem decode_fileBytes_of_holds (entryPoint : UInt32)
    (fits : (tableBytes ss).length < UInt32.size) (h : ∀ s ∈ ss, s.Holds s.held) :
    decode (fileBytes entryPoint ss) =
      .ok (holding (.ofNat (tableBytes ss).length) entryPoint (ss.map TableSection.held)) := by
  have room : 24 + (tableBytes ss).length ≤ 24 + (UInt32.ofNat (tableBytes ss).length).toNat :=
    Nat.le_of_eq (by rw [toNat_size fits])
  have decoded := decode_of_table (.ofNat (tableBytes ss).length) entryPoint (.of_le room)
    (forall₂_holds h)
  rw [toNat_size fits] at decoded
  exact decoded

theorem decode_fileBytes_of_error {e : ReadFault} (entryPoint : UInt32)
    (fits : (tableBytes ss).length < UInt32.size)
    (failed : ss.mapM TableSection.records = .error e) :
    decode (fileBytes entryPoint ss) = .error (.truncated e) := by
  have decoded := decode_of_error (.ofNat (tableBytes ss).length) entryPoint []
    (beginBefore_of_le (Nat.le_of_eq (by rw [toNat_size fits]))) failed
  rw [toNat_size fits, List.append_nil] at decoded
  exact decoded

theorem decode_fileBytes_eq (entryPoint : UInt32) (fits : (tableBytes ss).length < UInt32.size) :
    decode (fileBytes entryPoint ss) = match ss.mapM TableSection.records with
      | .error e => .error (.truncated e)
      | .ok rs => .ok (holding (.ofNat (tableBytes ss).length) entryPoint rs) := by
  cases hss : ss.mapM TableSection.records with
  | error e => exact decode_fileBytes_of_error entryPoint fits hss
  | ok rs =>
    obtain ⟨holds, rfl⟩ := mapM_records_eq_ok_iff.mp hss
    exact decode_fileBytes_of_holds entryPoint fits holds

/-- What decoding the bytes of a table succeeds with, and that its sections can be read then. -/
theorem holds_of_decode_fileBytes (fits : (tableBytes ss).length < UInt32.size)
    (h : decode (fileBytes entryPoint ss) = .ok image) :
    (∀ s ∈ ss, s.Holds s.held) ∧
      image = holding (.ofNat (tableBytes ss).length) entryPoint (ss.map TableSection.held) := by
  rw [decode_fileBytes_eq entryPoint fits] at h
  cases hss : ss.mapM TableSection.records with
  | error e => rw [hss] at h; cases h
  | ok rs =>
    obtain ⟨holds, rfl⟩ := mapM_records_eq_ok_iff.mp hss
    rw [hss] at h
    cases h
    exact ⟨holds, rfl⟩

/-- A table with the same sections of every name that is read is decoded the same. -/
theorem decode_fileBytes_of_same (fits : (tableBytes ss).length < UInt32.size)
    (fits' : (tableBytes ss').length < UInt32.size)
    (same : ∀ name ∈ recordNames, ss'.filter (·.name = name) = ss.filter (·.name = name))
    (h : decode (fileBytes entryPoint ss) = .ok image) :
    decode (fileBytes entryPoint ss') = .ok { image with
      header := { image.header with fileSize := .ofNat (tableBytes ss').length } } := by
  obtain ⟨holds, rfl⟩ := holds_of_decode_fileBytes fits h
  rw [decode_fileBytes_of_holds entryPoint fits' (holds_of_same same holds),
    holding_held_of_same _ _ same]
  rfl

/-- **An image adds up what its sections hold.** The first section that cannot be read by itself is
what is wrong with the image; if there is none, the records are those of the sections, one behind
the other. So sections that hold no records do not matter, nor does the order of sections of
different names. -/
theorem decode_fileBytes (entryPoint : UInt32) (ss : List TableSection)
    (fits : (tableBytes ss).length < UInt32.size) :
    (decode (fileBytes entryPoint ss) = match ss.mapM TableSection.records with
      | .error e => .error (.truncated e)
      | .ok rs => .ok
        { header := { forkName := "OBJECTIR,FOB", fileSize := .ofNat (tableBytes ss).length,
                      entryPoint }
          strings := rs.flatMap (·.strings)
          types := rs.flatMap (·.types)
          constants := rs.flatMap (·.constants) }) ∧
    (∀ image, decode (fileBytes entryPoint ss) = .ok image → ∀ ss' : List TableSection,
      ((tableBytes ss').length < UInt32.size →
        ss'.filter (·.name ∈ recordNames) = ss.filter (·.name ∈ recordNames) →
        decode (fileBytes entryPoint ss') = .ok { image with
          header := { image.header with fileSize := .ofNat (tableBytes ss').length } }) ∧
      (ss'.Perm ss →
        (∀ name, ss'.filter (·.name = name) = ss.filter (·.name = name)) →
        decode (fileBytes entryPoint ss') = .ok image)) := by
  refine ⟨?_, fun image decoded ss' => ⟨fun fits' same => ?_, fun perm same => ?_⟩⟩
  · rw [decode_fileBytes_eq entryPoint fits]
    cases ss.mapM TableSection.records <;> rfl
  · exact decode_fileBytes_of_same fits fits' (filter_name_of_filter same) decoded
  · have length : (tableBytes ss').length = (tableBytes ss).length :=
      (perm.flatMap_right TableSection.bytes).length_eq
    have size : image.header.fileSize = .ofNat (tableBytes ss').length := by
      rw [length, (holds_of_decode_fileBytes fits decoded).2]
      rfl
    have decoded' := decode_fileBytes_of_same fits (length ▸ fits) (fun name _ => same name) decoded
    rwa [← size] at decoded'

end

def oneString : TableSection :=
  ⟨Text.toBytes ".strings", [1, 0, 0, 0, 1, 0, 0, 0, 65], by decide, by decide, by decide⟩

/-- A section that is not read, although its bytes are a section that would be. -/
def notRead : TableSection :=
  ⟨Text.toBytes ".code", oneString.bytes, by decide, by decide, by decide⟩

/-- The section that is not read can stand in front, behind or nowhere. -/
theorem decode_fileBytes_notRead :
    decode (fileBytes 7 [notRead, oneString]) =
      .ok { header := ⟨"OBJECTIR,FOB", 54, 7⟩, strings := ["A"] } ∧
    decode (fileBytes 7 [oneString, notRead]) =
      .ok { header := ⟨"OBJECTIR,FOB", 54, 7⟩, strings := ["A"] } ∧
    decode (fileBytes 7 [oneString]) =
      .ok { header := ⟨"OBJECTIR,FOB", 22, 7⟩, strings := ["A"] } := by
  obtain ⟨value, changes⟩ := decode_fileBytes 7 [notRead, oneString] (by decide)
  have decoded : decode (fileBytes 7 [notRead, oneString]) =
      .ok { header := ⟨"OBJECTIR,FOB", 54, 7⟩, strings := ["A"] } := value.trans rfl
  have apart : notRead.name ≠ oneString.name := by decide
  have order (name : List UInt8) : [oneString, notRead].filter (·.name = name) =
      [notRead, oneString].filter (·.name = name) := by
    by_cases h : oneString.name = name <;> by_cases h' : notRead.name = name <;> simp_all
  exact ⟨decoded, (changes _ decoded [oneString, notRead]).2 (.swap _ _ _) order,
    (changes _ decoded [oneString]).1 (by decide) (by decide)⟩

end Image

/-! ## Bytes behind the table -/

/-- A table that the bytes cover ends where it did when more bytes follow. -/
theorem TableAt.append {tableEnd : Nat} {c : Cursor} {ss : List TableSection} {rest : List UInt8}
    (table : TableAt tableEnd c ss rest) (covered : tableEnd ≤ c.position + c.rest.length)
    (behind : List UInt8) :
    TableAt tableEnd ⟨c.position, c.rest ++ behind⟩ ss (rest ++ behind) := by
  obtain ⟨bytes, begin, stop⟩ := table
  refine ⟨by rw [bytes, List.append_assoc], begin, ?_⟩
  rcases stop with rfl | terminated | ended
  · -- the bytes were all sections, so these reach the declared end
    rw [bytes, List.append_nil] at covered
    exact .inr (.inr covered)
  · obtain ⟨tail, rfl⟩ := List.head?_eq_some_iff.mp terminated
    exact .inr (.inl rfl)
  · exact .inr (.inr ended)

namespace Image

/-- Whatever is decoded is a table of sections behind a header. -/
theorem exists_table_of_decode {data : List UInt8} {image : Image} (h : decode data = .ok image) :
    ∃ (fileSize entryPoint : UInt32) (body rest : List UInt8) (ss : List TableSection)
      (rs : List Records), data = headerBytes fileSize.toNat entryPoint ++ body ∧
      TableAt (24 + fileSize.toNat) ⟨24, body⟩ ss rest ∧
      List.Forall₂ TableSection.Holds ss rs ∧ image = holding fileSize entryPoint rs := by
  obtain ⟨fileSize, entryPoint, body, rfl⟩ := exists_header_of_decode h
  rw [decode_headerBytes] at h
  split at h
  · rename_i image' c hs
    cases h
    obtain ⟨ss, rs, rest, table, held, rfl⟩ :=
      exists_table_of_sections (c := ⟨24, body⟩) (Nat.le_refl body.length) hs
    exact ⟨fileSize, entryPoint, body, rest, ss, rs, rfl, table, held, rfl⟩
  · cases h

/-- **Bytes behind the declared table do not matter.** If bytes that reach to the declared end of
the table are decoded, then they are decoded the same with any bytes behind them, although all reads
and the search for the end of a name now see these as well. -/
theorem decode_append (data : List UInt8) (image : Image) (decoded : decode data = .ok image)
    (covered : 24 + image.header.fileSize.toNat ≤ data.length) (behind : List UInt8) :
    decode (data ++ behind) = .ok image := by
  obtain ⟨fileSize, entryPoint, body, rest, ss, rs, rfl, table, held, rfl⟩ :=
    exists_table_of_decode decoded
  rw [List.length_append, length_headerBytes] at covered
  rw [List.append_assoc]
  exact decode_of_table fileSize entryPoint (table.append covered behind) held

/-- A section behind the declared end is not read, also if the one before it runs past that end. -/
theorem decode_append_oneString :
    decode (fileBytes 7 [oneString] ++ oneString.bytes) =
      .ok { header := ⟨"OBJECTIR,FOB", 22, 7⟩, strings := ["A"] } ∧
    decode (headerBytes 1 7 ++ oneString.bytes ++ oneString.bytes) =
      .ok { header := ⟨"OBJECTIR,FOB", 1, 7⟩, strings := ["A"] } :=
  ⟨decode_append (fileBytes 7 [oneString]) _ rfl (by decide) oneString.bytes,
    decode_append (headerBytes 1 7 ++ oneString.bytes) _ rfl (by decide) oneString.bytes⟩

end Image

end ObjectMachine
