import ObjectMachine.Text.Utf8

/-!
# Texts that are read without loss

Reading bytes as text is not injective, since every piece that is no character becomes the same
mark. It is injective up to that mark: bytes that are read without one begin with the bytes of a
character (`exists_charBytes`), so a text in which the mark does not occur is read from its own
bytes and from no others (`ofBytes_eq_iff`). Names that are compared after they have been read can
therefore be compared as bytes.
-/

namespace ObjectMachine.Text

/-! ## Characters from their codes -/

theorem toNat_ofNat_of_valid {n : Nat} (valid : n < 0xd800 ∨ (0xdfff < n ∧ n < 0x110000)) :
    (Char.ofNat n).toNat = n := by
  rw [Char.ofNat, dif_pos valid]
  rfl

theorem charBytes_one {b : Nat} (high : b < 0x80) : charBytes (.ofNat b) = [.ofNat b] := by
  have code := toNat_ofNat_of_valid (n := b) (by omega)
  simp only [charBytes, code, if_pos high]

theorem charBytes_two {b b₁ : Nat} (low : 0xc2 ≤ b) (high : b < 0xe0)
    (low₁ : 0x80 ≤ b₁) (high₁ : b₁ ≤ 0xbf) :
    charBytes (.ofNat ((b - 0xc0) * 64 + (b₁ - 0x80))) = [.ofNat b, .ofNat b₁] := by
  generalize hn : (b - 0xc0) * 64 + (b₁ - 0x80) = n
  have code := toNat_ofNat_of_valid (n := n) (by omega)
  simp only [charBytes, code]
  rw [if_neg (by omega), if_pos (by omega), show 0xc0 + n / 64 = b by omega,
    show 0x80 + n % 64 = b₁ by omega]

/-- The second byte is in the narrower ranges where the first one would allow overlong forms or
surrogates. -/
theorem charBytes_three {b b₁ b₂ : Nat} (low : 0xe0 ≤ b) (high : b < 0xf0)
    (low₁ : (if b = 0xe0 then 0xa0 else 0x80) ≤ b₁) (high₁ : b₁ ≤ if b = 0xed then 0x9f else 0xbf)
    (low₂ : 0x80 ≤ b₂) (high₂ : b₂ ≤ 0xbf) :
    charBytes (.ofNat (((b - 0xe0) * 64 + (b₁ - 0x80)) * 64 + (b₂ - 0x80)))
      = [.ofNat b, .ofNat b₁, .ofNat b₂] := by
  have plainLow : 0x80 ≤ b₁ := by split at low₁ <;> omega
  have plainHigh : b₁ ≤ 0xbf := by split at high₁ <;> omega
  generalize hn : ((b - 0xe0) * 64 + (b₁ - 0x80)) * 64 + (b₂ - 0x80) = n
  have long : 0x800 ≤ n := by split at low₁ <;> omega
  have code := toNat_ofNat_of_valid (n := n) (by split at high₁ <;> omega)
  simp only [charBytes, code]
  rw [if_neg (by omega), if_neg (by omega), if_pos (by omega), show 0xe0 + n / 4096 = b by omega,
    show 0x80 + n / 64 % 64 = b₁ by omega, show 0x80 + n % 64 = b₂ by omega]

theorem charBytes_four {b b₁ b₂ b₃ : Nat} (low : 0xf0 ≤ b) (high : b < 0xf5)
    (low₁ : (if b = 0xf0 then 0x90 else 0x80) ≤ b₁) (high₁ : b₁ ≤ if b = 0xf4 then 0x8f else 0xbf)
    (low₂ : 0x80 ≤ b₂) (high₂ : b₂ ≤ 0xbf) (low₃ : 0x80 ≤ b₃) (high₃ : b₃ ≤ 0xbf) :
    charBytes (.ofNat ((((b - 0xf0) * 64 + (b₁ - 0x80)) * 64 + (b₂ - 0x80)) * 64 + (b₃ - 0x80)))
      = [.ofNat b, .ofNat b₁, .ofNat b₂, .ofNat b₃] := by
  have plainLow : 0x80 ≤ b₁ := by split at low₁ <;> omega
  have plainHigh : b₁ ≤ 0xbf := by split at high₁ <;> omega
  generalize hn : (((b - 0xf0) * 64 + (b₁ - 0x80)) * 64 + (b₂ - 0x80)) * 64 + (b₃ - 0x80) = n
  have long : 0x10000 ≤ n := by split at low₁ <;> omega
  have code := toNat_ofNat_of_valid (n := n) (by split at high₁ <;> omega)
  simp only [charBytes, code]
  rw [if_neg (by omega), if_neg (by omega), if_neg (by omega),
    show 0xf0 + n / 262144 = b by omega, show 0x80 + n / 4096 % 64 = b₁ by omega,
    show 0x80 + n / 64 % 64 = b₂ by omega, show 0x80 + n % 64 = b₃ by omega]

/-! ## Reading without a mark -/

/-- Unless a mark is read, the next byte continues the character that has begun. -/
theorem exists_continuation {p : Begun} {bytes : List UInt8}
    (clean : replacement ∉ charsFrom (some p) bytes) :
    ∃ b rest, bytes = UInt8.ofNat b :: rest ∧ b < 256 ∧ p.low ≤ b ∧ b ≤ p.high := by
  cases bytes with
  | nil => simp [charsFrom] at clean
  | cons byte rest =>
    by_cases inRange : p.low ≤ byte.toNat ∧ byte.toNat ≤ p.high
    · exact ⟨byte.toNat, rest, by simp, byte.toNat_lt, inRange⟩
    · simp [charsFrom, feed, inRange] at clean

/-- A byte that can neither be a character nor begin one is read as a mark. -/
theorem replacement_mem_charsFrom {b : Nat} (rest : List UInt8)
    (h : (0x80 ≤ b ∧ b < 0xc2) ∨ (0xf5 ≤ b ∧ b < 256)) :
    replacement ∈ charsFrom none (.ofNat b :: rest) := by
  have hb := toNat_ofNat_of_lt (show b < 256 by omega)
  have read : beginChar (.ofNat b) = ([replacement], none) := by
    simp only [beginChar, hb]
    rw [if_neg (by omega)]
    rcases h with h | h
    · rw [if_pos h.2]
    · repeat rw [if_neg (by omega)]
  simp [charsFrom, feed, read]

/-- Bytes that are read without a mark begin with the bytes of a character. -/
theorem exists_charBytes {byte : UInt8} {rest : List UInt8}
    (clean : replacement ∉ charsFrom none (byte :: rest)) :
    ∃ c rest', byte :: rest = charBytes c ++ rest' := by
  obtain ⟨b, hb, rfl⟩ : ∃ b < 256, byte = UInt8.ofNat b := ⟨byte.toNat, byte.toNat_lt, by simp⟩
  -- the first byte says how many bytes the character has
  by_cases one : b < 0x80
  · exact ⟨_, rest, by rw [charBytes_one one]; rfl⟩
  by_cases two : 0xc2 ≤ b ∧ b < 0xe0
  · rw [charsFrom_begun rest (beginChar_two two.1 two.2)] at clean
    obtain ⟨b₁, rest, rfl, h₁, low₁, high₁⟩ := exists_continuation clean
    exact ⟨_, rest, by rw [charBytes_two two.1 two.2 low₁ high₁]; rfl⟩
  by_cases three : 0xe0 ≤ b ∧ b < 0xf0
  · rw [charsFrom_begun rest (beginChar_three three.1 three.2)] at clean
    obtain ⟨b₁, rest, rfl, h₁, low₁, high₁⟩ := exists_continuation clean
    rw [charsFrom_more rest h₁ low₁ high₁] at clean
    obtain ⟨b₂, rest, rfl, h₂, low₂, high₂⟩ := exists_continuation clean
    exact ⟨_, rest, by rw [charBytes_three three.1 three.2 low₁ high₁ low₂ high₂]; rfl⟩
  by_cases four : 0xf0 ≤ b ∧ b < 0xf5
  · rw [charsFrom_begun rest (beginChar_four four.1 four.2)] at clean
    obtain ⟨b₁, rest, rfl, h₁, low₁, high₁⟩ := exists_continuation clean
    rw [charsFrom_more rest h₁ low₁ high₁] at clean
    obtain ⟨b₂, rest, rfl, h₂, low₂, high₂⟩ := exists_continuation clean
    rw [charsFrom_more rest h₂ low₂ high₂] at clean
    obtain ⟨b₃, rest, rfl, h₃, low₃, high₃⟩ := exists_continuation clean
    exact ⟨_, rest, by rw [charBytes_four four.1 four.2 low₁ high₁ low₂ high₂ low₃ high₃]; rfl⟩
  · exact absurd (replacement_mem_charsFrom rest (by omega)) clean

theorem charBytes_ne_nil (c : Char) : charBytes c ≠ [] := by
  simp only [charBytes]
  split
  · simp
  split
  · simp
  split <;> simp

/-- Bytes that are read without a mark are the bytes of the characters that are read. -/
theorem eq_flatMap_of_clean (bytes : List UInt8) (clean : replacement ∉ charsFrom none bytes) :
    bytes = (charsFrom none bytes).flatMap charBytes := by
  induction hn : bytes.length using Nat.strongRecOn generalizing bytes with
  | ind n ih =>
    cases bytes with
    | nil => rfl
    | cons byte rest =>
      obtain ⟨c, rest', split⟩ := exists_charBytes clean
      rw [split, charsFrom_charBytes] at clean
      have shorter : rest'.length < n := by
        have := congrArg List.length split
        have := List.length_pos_iff.mpr (charBytes_ne_nil c)
        simp only [List.length_append] at *
        omega
      rw [split, charsFrom_charBytes, List.flatMap_cons]
      rw [← ih rest'.length shorter rest' (fun h => clean (List.mem_cons_of_mem c h)) rfl]

/-- **A text without a mark is read from its own bytes and from no others.** -/
theorem ofBytes_eq_iff {bytes : List UInt8} {text : String} (clean : replacement ∉ text.toList) :
    ofBytes bytes = text ↔ bytes = toBytes text := by
  constructor
  · rintro rfl
    rw [ofBytes, String.toList_ofList] at clean
    rw [ofBytes, toBytes, String.toList_ofList]
    exact eq_flatMap_of_clean bytes clean
  · rintro rfl
    exact ofBytes_toBytes text

end ObjectMachine.Text
