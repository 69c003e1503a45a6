import Mathlib.Data.Nat.Digits.Defs
import ObjectMachine.Proofs.Scanning
import ObjectMachine.Proofs.Sections

/-!
# What a read takes

`ReadCall.Encodes` says which bytes a call of a reader can take and what they encode, and
`ReadCall.width` how many these are, judged by the bytes that are left. The two fit together: bytes
that encode an answer have that width whatever stands behind them (`Encodes.width_eq`), and where
there are enough bytes they encode an answer (`exists_encodes`). So a call succeeds exactly if there
are enough bytes, and then it takes these bytes and no others (`read_eq_ok_iff`).

A call that fails takes nothing, with one exception: a text takes the word with its length before it
finds that the text itself is not there (`cursor_of_read_error`). In any case a call goes forward by
a number of bytes that are there (`leave_eq`), and so do any calls in any order (`after_eq`).
-/

namespace ObjectMachine

open Spelling

variable {α β : Type}

/-! ## Bytes of an answer -/

/-- The number with the given digits to the base 256, the lowest first. -/
def digitsValue (bytes : List UInt8) : Nat := Nat.ofDigits 256 (bytes.map UInt8.toNat)

theorem littleEndian_eq_digitsValue (bytes : List UInt8) :
    Read.littleEndian bytes = digitsValue bytes := by
  induction bytes with
  | nil => rfl
  | cons b rest ih => simp [Read.littleEndian, digitsValue, Nat.ofDigits_cons, ih]

/-- The four bytes of a number are the only ones that are worth it. -/
theorem eq_size_iff {bytes : List UInt8} {n : Nat} :
    (n < UInt32.size ∧ bytes = Write.size n) ↔ bytes.length = 4 ∧ n = digitsValue bytes := by
  rw [← littleEndian_eq_digitsValue]
  constructor
  · rintro ⟨fits, rfl⟩
    exact ⟨Write.length_littleEndian 4 n, (Write.littleEndian_littleEndian fits).symm⟩
  · rintro ⟨four, rfl⟩
    have fits := Write.read_littleEndian_lt bytes
    have back := Write.littleEndian_read bytes
    rw [four] at fits back
    exact ⟨fits, back.symm⟩

namespace ReadCall

/-- The bytes that a call takes for an answer. -/
inductive Encodes : ReadCall → Spelling ReadAnswer
  | byte (b : UInt8) : Encodes byte (.byte b) [b]
  | word (w : UInt32) (four : List UInt8) (length : four.length = 4)
    (value : w.toNat = digitsValue four) : Encodes word (.word w) four
  | bytes (taken : List UInt8) : Encodes (bytes taken.length) (.bytes taken) taken
  | text (four raw : List UInt8) (length : four.length = 4)
    (value : raw.length = digitsValue four) :
    Encodes text (.text (Text.ofBytes raw)) (four ++ raw)
  | terminated (raw : List UInt8) (clean : 0 ∉ raw) :
    Encodes terminated (.text (Text.ofBytes raw)) (raw ++ [0])

/-- How many bytes a call needs of those that are left. A text needs the length that the first four
bytes give beside these, a terminated text everything up to the first NUL byte, or more than there
is if there is none. -/
def width (rest : List UInt8) : ReadCall → Nat
  | byte => 1
  | word => 4
  | bytes n => n
  | text => 4 + digitsValue (rest.take 4)
  | terminated => rest.idxOf 0 + 1

/-- What encodes an answer has the width of the call. -/
theorem Encodes.width_eq {call : ReadCall} {a : ReadAnswer} {taken : List UInt8}
    (h : call.Encodes a taken) (rest : List UInt8) : call.width (taken ++ rest) = taken.length := by
  cases h with
  | byte b => rfl
  | word w four length value => exact length.symm
  | bytes taken => rfl
  | text four raw length value =>
    rw [width, List.append_assoc, List.take_left' length, ← value, List.length_append, length]
  | terminated raw clean =>
    rw [width, List.append_assoc, List.idxOf_append_of_notMem clean, List.singleton_append,
      List.idxOf_cons_self, List.length_append]
    rfl

/-- Enough bytes encode an answer. -/
theorem exists_encodes {call : ReadCall} {rest : List UInt8} (h : call.width rest ≤ rest.length) :
    ∃ a, call.Encodes a (rest.take (call.width rest)) := by
  cases call with
  | byte =>
    cases rest with
    | nil => cases h
    | cons b rest => exact ⟨_, .byte b⟩
  | word =>
    have four : (rest.take 4).length = 4 := List.length_take_of_le h
    obtain ⟨fits, -⟩ := eq_size_iff.mpr ⟨four, rfl⟩
    exact ⟨_, .word (.ofNat _) _ four (UInt32.toNat_ofNat_of_lt fits)⟩
  | bytes n =>
    have length : (rest.take n).length = n := List.length_take_of_le h
    have encodes := Encodes.bytes (rest.take n)
    rw [length] at encodes
    exact ⟨_, encodes⟩
  | text =>
    rw [width] at h ⊢
    have four : (rest.take 4).length = 4 := List.length_take_of_le (by omega)
    rw [List.take_add]
    refine ⟨_, .text _ _ four (List.length_take_of_le ?_)⟩
    rw [List.length_drop]
    omega
  | terminated =>
    have found : 0 ∈ rest := List.idxOf_lt_length_iff.mp h
    obtain ⟨raw, behind, rfl, clean⟩ := List.eq_append_cons_of_mem found
    have split : raw ++ 0 :: behind = raw ++ [0] ++ behind := by simp
    have encodes := Encodes.terminated raw clean
    rw [split, encodes.width_eq, List.take_left]
    exact ⟨_, encodes⟩

end ReadCall

/-! ## Success -/

/-- The reader succeeds with something made from what it reads. -/
theorem Accepts.map {r : Read α} {G : Spelling α} (hr : Accepts r G) (f : α → β) :
    Accepts (do return f (← r)) (mapped f G) := by
  refine (hr.bind fun a => .pure (f a)).congr fun b bytes => ?_
  simp [after, mapped]

namespace ReadCall

/-- A call takes the bytes that encode its answer. -/
theorem read_accepts (call : ReadCall) : Accepts call.read call.Encodes := by
  cases call with
  | byte =>
    refine (Read.byte_accepts.map ReadAnswer.byte).congr fun a taken => ⟨?_, ?_⟩
    · rintro ⟨b, ⟨-, rfl⟩, rfl⟩
      exact .byte b
    · rintro ⟨b⟩
      exact ⟨b, ⟨trivial, rfl⟩, rfl⟩
  | word =>
    refine (Read.word_accepts.map ReadAnswer.word).congr fun a taken => ⟨?_, ?_⟩
    · rintro ⟨w, ⟨-, rfl⟩, rfl⟩
      obtain ⟨length, value⟩ := eq_size_iff.mp ⟨w.toNat_lt, rfl⟩
      exact .word w _ length value
    · rintro (_ | ⟨w, _, length, value⟩)
      exact ⟨w, ⟨trivial, (eq_size_iff.mpr ⟨length, value⟩).2⟩, rfl⟩
  | bytes n =>
    refine ((Read.bytes_accepts n).map ReadAnswer.bytes).congr fun a taken => ⟨?_, ?_⟩
    · rintro ⟨_, ⟨rfl, rfl⟩, rfl⟩
      exact .bytes taken
    · intro h
      cases h
      exact ⟨taken, ⟨rfl, rfl⟩, rfl⟩
  | text =>
    refine (Read.text_accepts.map ReadAnswer.text).congr fun a taken => ⟨?_, ?_⟩
    · rintro ⟨_, ⟨raw, ⟨fits, rfl⟩, rfl⟩, rfl⟩
      obtain ⟨length, value⟩ := eq_size_iff.mp ⟨fits, rfl⟩
      exact .text _ raw length value
    · intro h
      cases h with
      | text four raw length value =>
        obtain ⟨fits, rfl⟩ := eq_size_iff.mpr ⟨length, value⟩
        exact ⟨_, ⟨raw, ⟨fits, rfl⟩, rfl⟩, rfl⟩
  | terminated =>
    refine (Read.terminated_accepts.map ReadAnswer.text).congr fun a taken => ⟨?_, ?_⟩
    · rintro ⟨_, ⟨raw, ⟨clean, rfl⟩, rfl⟩, rfl⟩
      exact .terminated raw clean
    · intro h
      cases h with
      | terminated raw clean => exact ⟨_, ⟨raw, ⟨clean, rfl⟩, rfl⟩, rfl⟩

section
variable {call : ReadCall} {c c' : Cursor}

/-- A call succeeds exactly if there are enough bytes, and it takes those that encode its answer. -/
theorem read_eq_ok_iff {a : ReadAnswer} :
    call.read c = .ok a c' ↔
      call.width c.rest ≤ c.remaining ∧ call.Encodes a (c.rest.take (call.width c.rest)) ∧
        c' = c.skip (call.width c.rest) := by
  rw [call.read_accepts c a c']
  constructor
  · rintro ⟨taken, encodes, hrest, hposition⟩
    have hwidth : call.width c.rest = taken.length := by rw [hrest, encodes.width_eq]
    have htake : c.rest.take taken.length = taken := by rw [hrest, List.take_left]
    have hdrop : c.rest.drop taken.length = c'.rest := by rw [hrest, List.drop_left]
    rw [hwidth, htake]
    refine ⟨?_, encodes, ?_⟩
    · rw [Cursor.remaining, hrest, List.length_append]
      exact Nat.le_add_right _ _
    · rw [Cursor.skip, ← hposition, hdrop]
  · rintro ⟨enough, encodes, rfl⟩
    refine ⟨_, encodes, (List.take_append_drop _ _).symm, ?_⟩
    rw [List.length_take_of_le enough]
    rfl

/-- A call fails exactly if there are not enough bytes. -/
theorem exists_read_error_iff :
    (∃ e c', call.read c = .error e c') ↔ c.remaining < call.width c.rest := by
  constructor
  · rintro ⟨e, c', failed⟩
    by_contra enough
    obtain ⟨a, encodes⟩ := exists_encodes (Nat.not_lt.mp enough)
    rw [read_eq_ok_iff.mpr ⟨Nat.not_lt.mp enough, encodes, rfl⟩] at failed
    cases failed
  · intro short
    cases hs : call.read c with
    | error e c' => exact ⟨e, c', rfl⟩
    | ok a c' => exact absurd (read_eq_ok_iff.mp hs).1 (Nat.not_le.mpr short)

end

end ReadCall

/-! ## Failure -/

namespace Read

section
variable {c c' : Cursor} {e : ReadFault}

/-- Making something of what was read does not fail. -/
theorem error_of_map {r : Read α} {f : α → β}
    (failed : (do return f (← r) : Read β) c = .error e c') : r c = .error e c' := by
  simp only [bind, EStateM.bind] at failed
  cases hs : r c with
  | ok a c₁ => rw [hs] at failed; cases failed
  | error e₁ c₁ => rw [hs] at failed; cases failed; rfl

theorem bytes_eq (n : Nat) (c : Cursor) :
    bytes n c =
      if n ≤ c.remaining then .ok (c.rest.take n) (c.skip n)
      else .error (.unexpectedEnd c.position n c.remaining) c := by
  have enough : (c.rest.take n).length = n ↔ n ≤ c.remaining := by
    rw [List.length_take, Cursor.remaining]
    omega
  simp only [bytes, enough]

/-- A text is read in two parts: its length, and as many bytes behind it. -/
theorem text_eq (c : Cursor) :
    text c =
      if 4 ≤ c.remaining then
        (bytes (UInt32.ofNat (littleEndian (c.rest.take 4))).toNat >>= fun raw =>
          pure (Text.ofBytes raw)) (c.skip 4)
      else .error (.unexpectedEnd c.position 4 c.remaining) c := by
  by_cases four : 4 ≤ c.remaining
  · simp only [text, word, bind, EStateM.bind, bytes_eq 4 c, if_pos four]
    rfl
  · simp only [text, word, bind, EStateM.bind, bytes_eq 4 c, if_neg four]

/-- The reader leaves the cursor where it is when it fails. -/
def Still (r : Read α) : Prop := ∀ c e c', r c = .error e c' → c' = c

theorem bytes_still (n : Nat) : Still (bytes n) := by
  intro c e c' failed
  rw [bytes_eq] at failed
  split at failed <;> cases failed
  rfl

theorem byte_still : Still byte := by
  intro c e c' failed
  simp only [byte] at failed
  split at failed <;> cases failed
  rfl

theorem word_still : Still word := fun c e c' failed => bytes_still 4 c e c' (error_of_map failed)

theorem terminated_still : Still terminated := by
  intro c e c' failed
  simp only [terminated] at failed
  split at failed <;> cases failed
  rfl

/-- A text is the exception: its length stays read. -/
theorem cursor_of_text_error (failed : text c = .error e c') :
    c' = if 4 ≤ c.remaining then c.skip 4 else c := by
  rw [text_eq] at failed
  split at failed
  · rename_i four
    rw [if_pos four]
    -- the second part does not move the cursor either, but it has begun behind the length
    exact bytes_still _ _ _ _ (error_of_map failed)
  · rename_i short
    cases failed
    rw [if_neg short]

end

end Read

namespace Cursor

theorem remaining_inside (buffer : List UInt8) (position : Nat) :
    (inside buffer position).remaining = buffer.length - position := List.length_drop

theorem skip_inside (buffer : List UInt8) (position n : Nat) :
    (inside buffer position).skip n = inside buffer (position + n) := by
  simp only [skip, inside, List.drop_drop]

theorem remaining_skip (c : Cursor) (n : Nat) : (c.skip n).remaining = c.remaining - n :=
  List.length_drop

theorem skip_skip (c : Cursor) (m n : Nat) : (c.skip m).skip n = c.skip (m + n) := by
  simp only [skip, Nat.add_assoc, List.drop_drop]

end Cursor

namespace ReadCall

/-- Where the cursor is after a call that fails. -/
theorem cursor_of_read_error {call : ReadCall} {c c' : Cursor} {e : ReadFault}
    (failed : call.read c = .error e c') :
    c' = if call = .text ∧ 4 ≤ c.remaining then c.skip 4 else c := by
  cases call with
  | byte => simpa using Read.byte_still c e c' (Read.error_of_map failed)
  | word => simpa using Read.word_still c e c' (Read.error_of_map failed)
  | bytes n => simpa using Read.bytes_still n c e c' (Read.error_of_map failed)
  | text => simpa using Read.cursor_of_text_error (Read.error_of_map failed)
  | terminated => simpa using Read.terminated_still c e c' (Read.error_of_map failed)

/-! ## Any calls in any order -/

/-- The cursor after a call, whether it fails or not. -/
def leave (call : ReadCall) (c : Cursor) : Cursor :=
  match call.read c with
  | .ok _ c => c
  | .error _ c => c

/-- The cursor after one call after the other, whether they fail or not. -/
def after (calls : List ReadCall) (c : Cursor) : Cursor :=
  calls.foldl (fun c call => call.leave c) c

/-- A call goes forward by bytes that are there. -/
theorem leave_eq (call : ReadCall) (c : Cursor) :
    ∃ n ≤ c.remaining, call.leave c = c.skip n := by
  rw [leave]
  cases hs : call.read c with
  | ok a c' =>
    obtain ⟨enough, -, rfl⟩ := read_eq_ok_iff.mp hs
    exact ⟨_, enough, rfl⟩
  | error e c' =>
    rw [cursor_of_read_error hs]
    by_cases h : call = .text ∧ 4 ≤ c.remaining
    · rw [if_pos h]
      exact ⟨4, h.2, rfl⟩
    · rw [if_neg h]
      exact ⟨0, Nat.zero_le _, rfl⟩

theorem after_append (calls more : List ReadCall) (c : Cursor) :
    after (calls ++ more) c = after more (after calls c) := List.foldl_append

/-- So do any calls in any order. -/
theorem after_eq (calls : List ReadCall) (c : Cursor) :
    ∃ n ≤ c.remaining, after calls c = c.skip n := by
  induction calls generalizing c with
  | nil => exact ⟨0, Nat.zero_le _, rfl⟩
  | cons call rest ih =>
    obtain ⟨m, hm, hcall⟩ := call.leave_eq c
    obtain ⟨n, hn, hrest⟩ := ih (c.skip m)
    rw [Cursor.remaining_skip] at hn
    refine ⟨m + n, by omega, ?_⟩
    rw [← Cursor.skip_skip, ← hrest, ← hcall]
    rfl

/-! ## Positions in a buffer -/

section
variable {buffer : List UInt8} {position : Nat} {call : ReadCall}

theorem read_inside_eq_ok_iff (inside : position ≤ buffer.length) {a : ReadAnswer} {c' : Cursor} :
    call.read (.inside buffer position) = .ok a c' ↔
      position + call.width (buffer.drop position) ≤ buffer.length ∧
        call.Encodes a ((buffer.drop position).take (call.width (buffer.drop position))) ∧
        c' = .inside buffer (position + call.width (buffer.drop position)) := by
  have enough : call.width (buffer.drop position) ≤ buffer.length - position ↔
      position + call.width (buffer.drop position) ≤ buffer.length := by omega
  rw [← enough, ← Cursor.remaining_inside, ← Cursor.skip_inside]
  exact read_eq_ok_iff

theorem exists_read_inside_error_iff (inside : position ≤ buffer.length) :
    (∃ e c', call.read (.inside buffer position) = .error e c') ↔
      buffer.length < position + call.width (buffer.drop position) := by
  have short : buffer.length - position < call.width (buffer.drop position) ↔
      buffer.length < position + call.width (buffer.drop position) := by omega
  rw [← short, ← Cursor.remaining_inside]
  exact exists_read_error_iff

/-- A terminated text is there if its end is. -/
theorem exists_terminated_error_iff (c : Cursor) :
    (∃ e c', terminated.read c = .error e c') ↔ 0 ∉ c.rest := by
  have bound : c.rest.idxOf 0 ≤ c.rest.length := List.idxOf_le_length
  rw [exists_read_error_iff, ← List.idxOf_eq_length_iff, Cursor.remaining, width]
  omega

end

/-- Calls in any order lead from the beginning of a buffer to a position in it. -/
theorem exists_after_start (buffer : List UInt8) (calls : List ReadCall) :
    ∃ position ≤ buffer.length, after calls (.start buffer) = .inside buffer position := by
  obtain ⟨n, hn, hafter⟩ := after_eq calls (.start buffer)
  refine ⟨n, hn, ?_⟩
  rw [hafter, Cursor.skip, Cursor.start, Nat.zero_add]
  rfl

end ReadCall

/-- **Reads consume what they return.** After any reads, the position is in the buffer and has never
decreased. The next read succeeds exactly if the bytes that it needs are there; then it returns what
they encode, and the position is behind them. A terminated text fails exactly if no NUL byte is
left. -/
theorem reads_consume_what_they_return (buffer : List UInt8) (calls : List ReadCall) :
    let c := ReadCall.after calls (.start buffer)
    c.position ≤ buffer.length ∧ c.position + c.remaining = buffer.length ∧
    (∀ more, c.position ≤ (ReadCall.after (calls ++ more) (.start buffer)).position) ∧
    (∀ call : ReadCall,
      let width := call.width (buffer.drop c.position)
      (∀ a c', call.read c = .ok a c' ↔
        c.position + width ≤ buffer.length ∧
          call.Encodes a ((buffer.drop c.position).take width) ∧
          c' = .inside buffer (c.position + width)) ∧
      ((∃ e c', call.read c = .error e c') ↔ buffer.length < c.position + width)) ∧
    ((∃ e c', ReadCall.terminated.read c = .error e c') ↔ 0 ∉ buffer.drop c.position) := by
  obtain ⟨position, hle, hc⟩ := ReadCall.exists_after_start buffer calls
  rw [hc]
  refine ⟨hle, ?_, fun more => ?_,
    fun call => ⟨fun a c' => ReadCall.read_inside_eq_ok_iff hle,
      ReadCall.exists_read_inside_error_iff hle⟩,
    ReadCall.exists_terminated_error_iff _⟩
  · rw [Cursor.remaining_inside]
    exact Nat.add_sub_of_le hle
  · obtain ⟨n, -, hmore⟩ := ReadCall.after_eq more (.inside buffer position)
    rw [ReadCall.after_append, hc, hmore]
    exact Nat.le_add_right _ _

/-- **A read that fails does not move the cursor, unless it is a text.** Make any reads in any
order, from the beginning of any buffer, and then one that fails. The cursor is where it was before;
but if a text was to be read and the four bytes of its length were there, it is behind these. -/
theorem failed_reads_stay_but_for_texts (buffer : List UInt8) (calls : List ReadCall)
    (call : ReadCall) {e : ReadFault} {c' : Cursor}
    (failed : call.read (ReadCall.after calls (.start buffer)) = .error e c') :
    let c := ReadCall.after calls (.start buffer)
    (call ≠ .text ∨ c.remaining < 4 → c' = c) ∧
    (call = .text ∧ 4 ≤ c.remaining → c'.position = c.position + 4 ∧ c'.rest = c.rest.drop 4) := by
  have hc' := ReadCall.cursor_of_read_error failed
  refine ⟨fun other => ?_, fun text => ?_⟩
  · rw [hc', if_neg]
    rintro ⟨text, four⟩
    exact other.elim (· text) (Nat.not_lt.mpr four)
  · rw [hc', if_pos text]
    exact ⟨rfl, rfl⟩

/-! A length of one hundred with three bytes behind it. -/

def overdrawnText : List UInt8 := [100, 0, 0, 0, 97, 98, 99]

theorem failed_reads_stay_but_for_texts_overdrawn :
    (∃ e, ReadCall.word.read (ReadCall.after [.text] (.start overdrawnText)) =
      .error e (ReadCall.after [.text] (.start overdrawnText))) ∧
    ∃ e c', ReadCall.text.read (.start overdrawnText) = .error e c' ∧ c'.position = 4 := by
  have short : ReadCall.word.read (ReadCall.after [.text] (.start overdrawnText)) =
      .error (.unexpectedEnd 4 4 3) ⟨4, [97, 98, 99]⟩ := rfl
  have long : ReadCall.text.read (ReadCall.after [] (.start overdrawnText)) =
      .error (.unexpectedEnd 4 100 3) ⟨4, [97, 98, 99]⟩ := rfl
  have stays := (failed_reads_stay_but_for_texts overdrawnText [.text] .word short).1
    (.inl (by decide))
  have moves := (failed_reads_stay_but_for_texts overdrawnText [] .text long).2 (by decide)
  exact ⟨⟨_, stays ▸ short⟩, _, _, long, moves.1⟩

/-- A read that fails can move the cursor. -/
theorem not_failed_reads_stay :
    ¬ ∀ (buffer : List UInt8) (calls : List ReadCall) (call : ReadCall) (e : ReadFault)
      (c' : Cursor), call.read (ReadCall.after calls (.start buffer)) = .error e c' →
        c'.position = (ReadCall.after calls (.start buffer)).position := by
  intro stays
  have moved := stays overdrawnText [] .text (.unexpectedEnd 4 100 3) ⟨4, [97, 98, 99]⟩ rfl
  exact absurd moved (by decide)

end ObjectMachine
