/-!
# Text out of bytes

Strings are stored in images as UTF-8. Reading them never fails: a byte sequence that is no
character is replaced by U+FFFD, one replacement for every longest piece that could have begun a
character. The reader is a transducer that takes one byte at a time, so what it has read so far is
all it has to remember.

Main statement: reading the bytes of a text gives the text (`ofBytes_toBytes`).
-/

namespace ObjectMachine.Text

/-- A character whose first bytes have been read. -/
structure Begun where
  /-- How many bytes are still missing. -/
  missing : Nat
  /-- The bits read so far. -/
  code : Nat
  /-- The range that the next byte has to lie in; it excludes overlong forms, surrogates and code
  points that are too large. -/
  low : Nat
  high : Nat
deriving DecidableEq, Repr

/-- The mark that stands for bytes that are no character. -/
def replacement : Char := '\ufffd'

/-- Reads a byte at which a character has to begin: the characters known so far and what has
begun. -/
def beginChar (byte : UInt8) : List Char × Option Begun :=
  let b := byte.toNat
  if b < 0x80 then ([Char.ofNat b], none)
  else if b < 0xc2 then ([replacement], none)
  else if b < 0xe0 then ([], some ⟨1, b - 0xc0, 0x80, 0xbf⟩)
  else if b = 0xe0 then ([], some ⟨2, 0, 0xa0, 0xbf⟩)
  else if b = 0xed then ([], some ⟨2, 0xd, 0x80, 0x9f⟩)
  else if b < 0xf0 then ([], some ⟨2, b - 0xe0, 0x80, 0xbf⟩)
  else if b = 0xf0 then ([], some ⟨3, 0, 0x90, 0xbf⟩)
  else if b < 0xf4 then ([], some ⟨3, b - 0xf0, 0x80, 0xbf⟩)
  else if b = 0xf4 then ([], some ⟨3, 4, 0x80, 0x8f⟩)
  else ([replacement], none)

/-- Reads one byte. A byte that cannot continue what has begun ends it with a replacement and is
then read as the beginning of a character. -/
def feed : Option Begun → UInt8 → List Char × Option Begun
  | none, byte => beginChar byte
  | some p, byte =>
    let b := byte.toNat
    if p.low ≤ b ∧ b ≤ p.high then
      let code := p.code * 64 + (b - 0x80)
      if p.missing ≤ 1 then ([Char.ofNat code], none)
      else ([], some ⟨p.missing - 1, code, 0x80, 0xbf⟩)
    else
      let (chars, begun) := beginChar byte
      (replacement :: chars, begun)

/-- The characters of the remaining bytes, given what has begun before them. -/
def charsFrom : Option Begun → List UInt8 → List Char
  | none, [] => []
  | some _, [] => [replacement]
  | begun, byte :: rest =>
    let (chars, next) := feed begun byte
    chars ++ charsFrom next rest

/-- The text of a byte sequence. -/
def ofBytes (bytes : List UInt8) : String := String.ofList (charsFrom none bytes)

def charBytes (c : Char) : List UInt8 :=
  let n := c.toNat
  if n < 0x80 then [.ofNat n]
  else if n < 0x800 then [.ofNat (0xc0 + n / 64), .ofNat (0x80 + n % 64)]
  else if n < 0x10000 then
    [.ofNat (0xe0 + n / 4096), .ofNat (0x80 + n / 64 % 64), .ofNat (0x80 + n % 64)]
  else
    [.ofNat (0xf0 + n / 262144), .ofNat (0x80 + n / 4096 % 64), .ofNat (0x80 + n / 64 % 64),
      .ofNat (0x80 + n % 64)]

def toBytes (text : String) : List UInt8 := text.toList.flatMap charBytes

/-! ## Reading back what was written -/

/-- A character is no surrogate. -/
theorem toNat_lt_or_gt (c : Char) :
    c.toNat < 0xd800 ∨ (0xdfff < c.toNat ∧ c.toNat < 0x110000) := c.valid

theorem toNat_ofNat_of_lt {b : Nat} (h : b < 256) : (UInt8.ofNat b).toNat = b := by
  simp only [UInt8.toNat_ofNat']
  omega

theorem beginChar_two {b : Nat} (low : 0xc2 ≤ b) (high : b < 0xe0) :
    beginChar (.ofNat b) = ([], some ⟨1, b - 0xc0, 0x80, 0xbf⟩) := by
  have hb := toNat_ofNat_of_lt (show b < 256 by omega)
  simp only [beginChar, hb]
  rw [if_neg (by omega), if_neg (by omega), if_pos high]

theorem beginChar_three {b : Nat} (low : 0xe0 ≤ b) (high : b < 0xf0) :
    beginChar (.ofNat b) = ([], some ⟨2, b - 0xe0, if b = 0xe0 then 0xa0 else 0x80,
      if b = 0xed then 0x9f else 0xbf⟩) := by
  have hb := toNat_ofNat_of_lt (show b < 256 by omega)
  simp only [beginChar, hb]
  rw [if_neg (by omega), if_neg (by omega), if_neg (by omega)]
  by_cases h : b = 0xe0
  · simp [h]
  by_cases h' : b = 0xed
  · simp [h']
  · simp [h, h', high]

theorem beginChar_four {b : Nat} (low : 0xf0 ≤ b) (high : b < 0xf5) :
    beginChar (.ofNat b) = ([], some ⟨3, b - 0xf0, if b = 0xf0 then 0x90 else 0x80,
      if b = 0xf4 then 0x8f else 0xbf⟩) := by
  have hb := toNat_ofNat_of_lt (show b < 256 by omega)
  simp only [beginChar, hb]
  rw [if_neg (by omega), if_neg (by omega), if_neg (by omega), if_neg (by omega),
    if_neg (by omega), if_neg (by omega)]
  by_cases h : b = 0xf0
  · simp [h]
  by_cases h' : b = 0xf4
  · simp [h']
  · rw [if_neg h, if_pos (by omega)]
    simp [h, h']

theorem charsFrom_begun {b : Nat} {p : Begun} (rest : List UInt8)
    (h : beginChar (.ofNat b) = ([], some p)) :
    charsFrom none (.ofNat b :: rest) = charsFrom (some p) rest := by
  simp [charsFrom, feed, h]

/-- A byte in range leaves a character with one byte less to come. -/
theorem charsFrom_more {code low high b k : Nat} (rest : List UInt8) (hb : b < 256)
    (hl : low ≤ b) (hh : b ≤ high) :
    charsFrom (some ⟨k + 2, code, low, high⟩) (.ofNat b :: rest)
      = charsFrom (some ⟨k + 1, code * 64 + (b - 0x80), 0x80, 0xbf⟩) rest := by
  simp [charsFrom, feed, toNat_ofNat_of_lt hb, hl, hh]

/-- A byte in range ends the character that lacked one byte. -/
theorem charsFrom_last {code low high b : Nat} (rest : List UInt8) (hb : b < 256)
    (hl : low ≤ b) (hh : b ≤ high) :
    charsFrom (some ⟨1, code, low, high⟩) (.ofNat b :: rest)
      = Char.ofNat (code * 64 + (b - 0x80)) :: charsFrom none rest := by
  simp [charsFrom, feed, toNat_ofNat_of_lt hb, hl, hh]

/-- The bytes of a character are read as that character. -/
theorem charsFrom_charBytes (c : Char) (rest : List UInt8) :
    charsFrom none (charBytes c ++ rest) = c :: charsFrom none rest := by
  have valid := toNat_lt_or_gt c
  have self := Char.ofNat_toNat c
  simp only [charBytes]
  split
  · rename_i one
    have hb := toNat_ofNat_of_lt (show c.toNat < 256 by omega)
    simp [charsFrom, feed, beginChar, hb, one, self]
  split
  · rw [List.cons_append, List.cons_append, List.nil_append,
      charsFrom_begun _ (beginChar_two (by omega) (by omega)),
      charsFrom_last _ (by omega) (by omega) (by omega)]
    rw [show (0xc0 + c.toNat / 64 - 0xc0) * 64 + (0x80 + c.toNat % 64 - 0x80) = c.toNat by omega,
      self]
  split
  · -- the range of the second byte excludes what two bytes could have held, and surrogates
    rw [List.cons_append, List.cons_append, List.cons_append, List.nil_append,
      charsFrom_begun _ (beginChar_three (by omega) (by omega)),
      charsFrom_more _ (by omega) (by split <;> omega) (by split <;> omega),
      charsFrom_last _ (by omega) (by omega) (by omega)]
    rw [show ((0xe0 + c.toNat / 4096 - 0xe0) * 64 + (0x80 + c.toNat / 64 % 64 - 0x80)) * 64
      + (0x80 + c.toNat % 64 - 0x80) = c.toNat by omega, self]
  · rw [List.cons_append, List.cons_append, List.cons_append, List.cons_append, List.nil_append,
      charsFrom_begun _ (beginChar_four (by omega) (by omega)),
      charsFrom_more _ (by omega) (by split <;> omega) (by split <;> omega),
      charsFrom_more _ (by omega) (by omega) (by omega),
      charsFrom_last _ (by omega) (by omega) (by omega)]
    rw [show (((0xf0 + c.toNat / 262144 - 0xf0) * 64 + (0x80 + c.toNat / 4096 % 64 - 0x80)) * 64
      + (0x80 + c.toNat / 64 % 64 - 0x80)) * 64 + (0x80 + c.toNat % 64 - 0x80) = c.toNat by omega,
      self]

theorem charsFrom_flatMap (cs : List Char) : charsFrom none (cs.flatMap charBytes) = cs := by
  induction cs with
  | nil => rfl
  | cons c cs ih => rw [List.flatMap_cons, charsFrom_charBytes, ih]

/-- Reading the bytes of a text gives the text. -/
theorem ofBytes_toBytes (text : String) : ofBytes (toBytes text) = text := by
  rw [ofBytes, toBytes, charsFrom_flatMap, String.ofList_toList]

end ObjectMachine.Text
