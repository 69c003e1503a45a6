import ObjectMachine.Proofs.Table

/-!
# Images that are cut short

A reader that accepts exactly the spellings of its values fails on a spelling that is cut short, so
a cut inside the header or inside a section is noticed wherever it falls. A cut between two sections
is not: the loop over the sections ends with the bytes, whatever size the header declares, and the
sections behind the cut are missing without notice (`decode_take_fileBytes`).
-/

namespace ObjectMachine

variable {α β : Type}

/-! ## The header -/

/-- The reader notices that the bytes are cut short, wherever the cut is. -/
def Starves (r : EStateM LoadFault Cursor α) (bytes : List UInt8) : Prop :=
  ∀ position n, n < bytes.length → ∃ e c, r ⟨position, bytes.take n⟩ = .error (.truncated e) c

theorem Starves.pure (a : α) : Starves (Pure.pure a) [] := by
  intro position n hn
  cases hn

theorem Starves.unless {p : Prop} [Decidable p] {e : LoadFault}
    {k : Unit → EStateM LoadFault Cursor α} {bytes : List UInt8} (hp : ¬ p)
    (hk : Starves (k ()) bytes) :
    Starves (if p then MonadExcept.throw e >>= k else k ()) bytes := by
  rw [if_neg hp]
  exact hk

theorem Starves.cutOff_bind {r : Read α} {k : α → EStateM LoadFault Cursor β} {G : Spelling α}
    (hr : Accepts r G) {a : α} {u v : List UInt8} (h : G a u) (hk : Starves (k a) v) :
    Starves (Image.cutOff r >>= k) (u ++ v) := by
  intro position n hn
  simp only [bind, EStateM.bind]
  -- the cut is in what is read first, or it is in what is read then
  by_cases first : n < u.length
  · obtain ⟨e, c, failed⟩ := hr.fails_of_lt h position first
    rw [List.take_append_of_le_length (Nat.le_of_lt first), Image.cutOff_eq, failed]
    exact ⟨e, c, rfl⟩
  · rw [List.length_append] at hn
    obtain ⟨m, rfl⟩ := Nat.exists_eq_add_of_le (Nat.le_of_not_lt first)
    rw [List.take_length_add_append, (Image.cutOff_accepts hr).reads h position (v.take m)]
    exact hk (position + u.length) m (by omega)

namespace Image

theorem readHeader_starves (size entryPoint : UInt32) :
    Starves readHeader (headerBytes size.toNat entryPoint) := by
  have name : Text.ofBytes (Text.toBytes forkName) = forkName := Text.ofBytes_toBytes forkName
  -- what is compared on the way is what an image begins with, so only a cut can end the read
  have starves : Starves readHeader (magic ++ ([UInt8.ofNat (Text.toBytes forkName).length] ++
      (Text.toBytes forkName ++ (Write.word size ++ (Write.word entryPoint ++ []))))) :=
    .cutOff_bind (Read.bytes_accepts _) ⟨rfl, rfl⟩ <| .unless (by simp) <|
      .cutOff_bind Read.byte_accepts ⟨trivial, rfl⟩ <|
        .cutOff_bind (Read.bytes_accepts _) ⟨by decide, rfl⟩ <| .unless (by simp [name]) <|
          .cutOff_bind Read.word_accepts ⟨trivial, rfl⟩ <|
            .cutOff_bind Read.word_accepts ⟨trivial, rfl⟩ <| .pure _
  simpa only [headerBytes, Write.word, List.append_assoc, List.append_nil] using starves

theorem decode_take_headerBytes (size entryPoint : UInt32) (body : List UInt8) {k : Nat}
    (short : k < 24) :
    ∃ e, decode ((headerBytes size.toNat entryPoint ++ body).take k) = .error (.truncated e) := by
  have inside : k < (headerBytes size.toNat entryPoint).length := by
    rw [length_headerBytes]
    exact short
  obtain ⟨e, c, failed⟩ := readHeader_starves size entryPoint 0 k inside
  refine ⟨e, ?_⟩
  rw [List.take_append_of_le_length (Nat.le_of_lt inside)]
  simp only [decode, read_eq, Cursor.start, failed]

end Image

/-! ## The section table -/

section
variable {ss : List TableSection}

theorem tableBytes_take_append_drop (ss : List TableSection) (i : Nat) :
    tableBytes (ss.take i) ++ tableBytes (ss.drop i) = tableBytes ss := by
  rw [tableBytes, tableBytes, ← List.flatMap_append, List.take_append_drop, tableBytes]

/-- A cut falls into a section, or in front of it. -/
theorem exists_section_of_cut {m : Nat} (h : m < (tableBytes ss).length) :
    ∃ (i : Nat) (s : TableSection) (j : Nat), i < ss.length ∧ j < s.bytes.length ∧
      m = (tableBytes (ss.take i)).length + j ∧
      (tableBytes ss).take m = tableBytes (ss.take i) ++ s.bytes.take j := by
  induction ss generalizing m with
  | nil => cases h
  | cons s ss ih =>
    rw [tableBytes_cons, List.length_append] at h
    by_cases first : m < s.bytes.length
    · refine ⟨0, s, m, Nat.succ_pos _, first, by simp [tableBytes], ?_⟩
      rw [tableBytes_cons, List.take_append_of_le_length (Nat.le_of_lt first)]
      rfl
    · obtain ⟨n, rfl⟩ := Nat.exists_eq_add_of_le (Nat.le_of_not_lt first)
      obtain ⟨i, s', j, hi, hj, hn, cut⟩ := ih (Nat.lt_of_add_lt_add_left h)
      refine ⟨i + 1, s', j, Nat.succ_lt_succ hi, hj, ?_, ?_⟩
      · rw [List.take_succ_cons, tableBytes_cons, List.length_append, hn, Nat.add_assoc]
      · rw [tableBytes_cons, List.take_length_add_append, cut, List.take_succ_cons,
          tableBytes_cons, List.append_assoc]

end

namespace Image

section
variable {tableEnd position : Nat} {image : Image} {s : TableSection} {ss : List TableSection}
  {rs : List Records}

/-- Behind sections that can be read, one that is cut short cannot. -/
theorem sections_of_cut (held : List.Forall₂ TableSection.Holds ss rs)
    (begins : position + (tableBytes ss).length < tableEnd) {j : Nat} (begun : 0 < j)
    (short : j < s.bytes.length) :
    ∃ e c, sections tableEnd (tableBytes ss ++ s.bytes.take j).length image
      ⟨position, tableBytes ss ++ s.bytes.take j⟩ = .error e c := by
  have length : (s.bytes.take j).length = j :=
    List.length_take.trans (Nat.min_eq_left (Nat.le_of_lt short))
  have more : s.bytes.take j ≠ [] := List.ne_nil_of_length_pos (by omega)
  -- there are enough turns for the sections in front of the cut and for one more
  obtain ⟨n, turns⟩ : ∃ n, (tableBytes ss ++ s.bytes.take j).length = ss.length + (n + 1) := by
    have fewer := length_le_tableBytes ss
    rw [List.length_append, length]
    exact ⟨(tableBytes ss).length - ss.length + (j - 1), by omega⟩
  obtain ⟨e, c, failed⟩ := Read.nextSection_accepts.fails_of_lt (.inr ⟨s, rfl, rfl⟩)
    (position + (tableBytes ss).length) short
  refine ⟨e, c, ?_⟩
  rw [turns, sections_of_holds held (beginBefore_of_le (Nat.le_of_lt begins)),
    sections_succ begins more]
  simp only [bind, EStateM.bind, failed]

theorem take_fileBytes (entryPoint : UInt32) (fits : (tableBytes ss).length < UInt32.size)
    (m : Nat) :
    (fileBytes entryPoint ss).take (24 + m) =
      headerBytes (UInt32.ofNat (tableBytes ss).length).toNat entryPoint ++
        (tableBytes ss).take m := by
  rw [toNat_size fits, fileBytes,
    ← length_headerBytes (tableBytes ss).length entryPoint, List.take_length_add_append]

/-- The loop ends with the bytes, although the table does not. -/
theorem decode_take_between (entryPoint : UInt32) (fits : (tableBytes ss).length < UInt32.size)
    (held : List.Forall₂ TableSection.Holds ss rs) (i : Nat) :
    decode ((fileBytes entryPoint ss).take (24 + (tableBytes (ss.take i)).length)) =
      .ok (holding (.ofNat (tableBytes ss).length) entryPoint (rs.take i)) := by
  have split := tableBytes_take_append_drop ss i
  have room : 24 + (tableBytes (ss.take i)).length ≤
      24 + (UInt32.ofNat (tableBytes ss).length).toNat := by
    rw [toNat_size fits, ← split, List.length_append]
    omega
  have front : (tableBytes ss).take (tableBytes (ss.take i)).length = tableBytes (ss.take i) := by
    rw [← split, List.take_left]
  rw [take_fileBytes entryPoint fits, front]
  exact decode_of_table _ entryPoint (.of_le room) (List.forall₂_take i held)

theorem decode_take_inside (entryPoint : UInt32) (fits : (tableBytes ss).length < UInt32.size)
    (held : List.Forall₂ TableSection.Holds ss rs) {m : Nat} (short : m < (tableBytes ss).length)
    (inside : ∀ i < ss.length, m ≠ (tableBytes (ss.take i)).length) :
    ∃ e, decode ((fileBytes entryPoint ss).take (24 + m)) = .error (.truncated e) := by
  obtain ⟨i, s, j, hi, hj, rfl, cut⟩ := exists_section_of_cut short
  have begun : 0 < j := by
    have := inside i hi
    omega
  have begins : 24 + (tableBytes (ss.take i)).length <
      24 + (UInt32.ofNat (tableBytes ss).length).toNat := by
    rw [toNat_size fits]
    omega
  obtain ⟨e, c, failed⟩ := sections_of_cut (List.forall₂_take i held) begins begun hj
  refine ⟨e, ?_⟩
  rw [take_fileBytes entryPoint fits, cut, decode_headerBytes, failed]

/-- **A cut is noticed unless it falls between two sections.** Of the bytes of an image whose
sections can all be read, only the first `k` are there. If they end in front of a section, they are
decoded as the image without this section and those behind it; otherwise the image is truncated. -/
theorem decode_take_fileBytes (entryPoint : UInt32) (fits : (tableBytes ss).length < UInt32.size)
    (held : List.Forall₂ TableSection.Holds ss rs) (k : Nat)
    (short : k < (fileBytes entryPoint ss).length) :
    (∀ i < ss.length, k = 24 + (tableBytes (ss.take i)).length →
      decode ((fileBytes entryPoint ss).take k) = .ok
        { header := { forkName := "OBJECTIR,FOB", fileSize := .ofNat (tableBytes ss).length,
                      entryPoint }
          strings := (rs.take i).flatMap (·.strings)
          types := (rs.take i).flatMap (·.types)
          constants := (rs.take i).flatMap (·.constants) }) ∧
    ((∀ i < ss.length, k ≠ 24 + (tableBytes (ss.take i)).length) →
      ∃ e, decode ((fileBytes entryPoint ss).take k) = .error (.truncated e)) := by
  refine ⟨?_, fun inside => ?_⟩
  · rintro i - rfl
    exact decode_take_between entryPoint fits held i
  · by_cases header : k < 24
    · rw [fileBytes, ← toNat_size fits]
      exact decode_take_headerBytes _ entryPoint _ header
    · obtain ⟨m, rfl⟩ := Nat.exists_eq_add_of_le (Nat.le_of_not_lt header)
      rw [fileBytes, List.length_append, length_headerBytes] at short
      refine decode_take_inside entryPoint fits held (by omega) fun i hi => ?_
      have := inside i hi
      omega

end

/-- Of two sections with a string each, the second one is missing without notice when the cut is in
front of it. A byte earlier the first one is not complete. -/
theorem decode_take_fileBytes_oneString :
    decode ((fileBytes 7 [oneString, oneString]).take 46) =
      .ok { header := ⟨"OBJECTIR,FOB", 44, 7⟩, strings := ["A"] } ∧
    ∃ e, decode ((fileBytes 7 [oneString, oneString]).take 45) = .error (.truncated e) := by
  have holds : oneString.Holds { strings := ["A"] } := TableSection.records_eq_ok_iff.mp rfl
  have cut := decode_take_fileBytes 7 (by decide) (.cons holds (.cons holds .nil))
  exact ⟨(cut 46 (by decide)).1 1 (by decide) (by decide), (cut 45 (by decide)).2 (by decide)⟩

/-- It is not true that every cut is noticed: behind the header it is not. -/
theorem not_decode_take_truncated :
    ¬ ∀ (entryPoint : UInt32) (ss : List TableSection) (rs : List Records) (k : Nat),
      ss ≠ [] → (tableBytes ss).length < UInt32.size → List.Forall₂ TableSection.Holds ss rs →
      k < (fileBytes entryPoint ss).length →
      ∃ e, decode ((fileBytes entryPoint ss).take k) = .error (.truncated e) := by
  intro noticed
  have holds : oneString.Holds { strings := ["A"] } := TableSection.records_eq_ok_iff.mp rfl
  obtain ⟨e, failed⟩ := noticed 7 [oneString] _ 24 (by decide) (by decide) (.cons holds .nil)
    (by decide)
  have decoded : decode ((fileBytes 7 [oneString]).take 24) =
      .ok { header := ⟨"OBJECTIR,FOB", 22, 7⟩ } := rfl
  rw [decoded] at failed
  cases failed

end Image

end ObjectMachine
