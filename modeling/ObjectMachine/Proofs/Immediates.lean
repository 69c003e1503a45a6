import Mathlib.Algebra.Ring.Int.Defs
import Mathlib.Algebra.Ring.Nat
import ObjectMachine.Proofs.Acceptance
import ObjectMachine.Proofs.Linking
import ObjectMachine.Proofs.Writes

/-!
# What immediates load

An instruction can carry the number that it loads. A 64-bit number is split into two operands when
the instruction is made and joined again when it is executed; the two halves are no more and no less
than the number (`toNat_wideBits`). A 64-bit integer can also be a single operand, which is taken as
a signed word (`toInt_wideBits`). So every such instruction performs one action, whatever the
program is: it pushes its number (`Instruction.Loads.action`).

An image keeps the instructions of its methods as they are, from the bytes to the linked class
(`Machine.load_encode`, `Linked.exists_method`). Therefore it makes no difference whether the
instruction has been through an image.
-/

namespace ObjectMachine

open Floating (Single Double)

/-- The value that an instruction with an immediate is meant to load. If a 64-bit integer is given
by a single operand, it is the whole number that the word is with its highest bit as a sign. -/
inductive Instruction.Loads : Instruction → Value → Prop
  | int32 (n : Int32) : Loads (.loadInt32 n) (.int32 n)
  | int64 (n : Int64) : Loads (.loadInt64 n) (.int64 n)
  | single (x : Single) : Loads (.loadSingle x) (.float32 x)
  | double (x : Double) : Loads (.loadDouble x) (.float64 x)
  | short (w : UInt32) (n : Int64)
    (h : n.toInt = if w.toNat < 2 ^ 31 then (w.toNat : Int) else w.toNat - 2 ^ 32) :
    Loads (.of .ldI8 [w]) (.int64 n)

/-- Wherever the instruction is executed with room on the stack, it puts the value on top and
changes nothing else. -/
def Instruction.Pushes (i : Instruction) (v : Value) : Prop :=
  ∀ (p : Program) (s : Activation) (code : Array Instruction),
    s.frame.method.body = .interpreted code → code[s.frame.pc]? = some i →
    s.frame.stack.depth < s.frame.stack.limit →
      step p s = .ok .next (s.withOperands (s.frame.stack.slots.push v))

/-- Where a record of the given types has the instruction, the machine has a method that puts the
value on top. -/
def Machine.Pushes (m : Machine) (types : List TypeRecord) (i : Instruction) (v : Value) : Prop :=
  ∀ (k j pc : Nat) (t : TypeRecord) (r : MethodRecord),
    types[k]? = some t → t.methods[j]? = some r → r.code[pc]? = some i →
    ∃ c method, m.registry.class? k = some c ∧ c.own.decl.methods.items[j]? = some method ∧
      ∀ (p : Program) (s : Activation), s.frame.method = method → s.frame.pc = pc →
        s.frame.stack.depth < s.frame.stack.limit →
          step p s = .ok .next (s.withOperands (s.frame.stack.slots.push v))

/-! ## Two words and one -/

namespace Instruction

/-- Two operands are the halves of a number. -/
theorem toNat_wideBits (low high : UInt32) :
    (wideBits low (some high)).toNat = 2 ^ 32 * high.toNat + low.toNat := by
  have hlow := low.toNat_lt
  have hhigh := high.toNat_lt
  have hshift : (high.toUInt64 <<< 32).toNat = 2 ^ 32 * high.toNat := by
    have hplaces : (32 : UInt64).toNat % 64 = 32 := rfl
    rw [UInt64.toNat_shiftLeft, UInt32.toNat_toUInt64, hplaces, Nat.shiftLeft_eq]
    omega
  rw [wideBits, UInt64.toNat_or, hshift, UInt32.toNat_toUInt64,
    Nat.two_pow_add_eq_or_of_lt hlow]

/-- The operands of a 64-bit immediate are joined to what was split. -/
theorem wideBits_wideOperands (bits : UInt64) :
    wideBits bits.toUInt32 (some (bits >>> 32).toUInt32) = bits := by
  have hlt := bits.toNat_lt
  have hplaces : (32 : UInt64).toNat % 64 = 32 := rfl
  apply UInt64.toNat_inj.mp
  rw [toNat_wideBits, UInt64.toNat_toUInt32, UInt64.toNat_toUInt32, UInt64.toNat_shiftRight,
    hplaces, Nat.shiftRight_eq_div_pow]
  omega

/-- A single operand is a signed word. -/
theorem toInt_wideBits (w : UInt32) :
    (wideBits w none).toInt64.toInt =
      if w.toNat < 2 ^ 31 then (w.toNat : Int) else w.toNat - 2 ^ 32 := by
  have hword : (wideBits w none).toInt64.toInt = w.toBitVec.toInt := by simp [wideBits]; rfl
  have hlt := w.toNat_lt
  rw [hword, BitVec.toInt_eq_toNat_cond, UInt32.toNat_toBitVec]
  split <;> split <;> omega

/-! ## Execution -/

section
variable {i : Instruction} {v : Value}

/-- The action of an instruction with an immediate does not depend on where it stands. -/
theorem Loads.action (h : i.Loads v) (p : Program) (codeSize : Nat) :
    i.action p codeSize = .ok (.push v) := by
  cases h with
  | int32 n =>
    have haction : (loadInt32 n).action p codeSize =
        .ok (.push (.int32 (UInt32.ofNat n.toUInt32.toNat).toInt32)) := rfl
    rw [haction, UInt32.ofNat_toNat, Int32.toInt32_toUInt32]
  | int64 n =>
    have haction : (loadInt64 n).action p codeSize =
        .ok (.push (.int64 (wideBits (.ofNat n.toUInt64.toUInt32.toNat)
          (some (n.toUInt64 >>> 32).toUInt32)).toInt64)) := rfl
    rw [haction, UInt32.ofNat_toNat, wideBits_wideOperands, Int64.toInt64_toUInt64]
  | single x =>
    have haction : (loadSingle x).action p codeSize =
        .ok (.push (.float32 ⟨.ofNat x.bits.toNat⟩)) := rfl
    rw [haction, UInt32.ofNat_toNat]
  | double x =>
    have haction : (loadDouble x).action p codeSize =
        .ok (.push (.float64 ⟨wideBits (.ofNat x.bits.toUInt32.toNat)
          (some (x.bits >>> 32).toUInt32)⟩)) := rfl
    rw [haction, UInt32.ofNat_toNat, wideBits_wideOperands]
  | short w n h =>
    have haction : (of .ldI8 [w]).action p codeSize =
        .ok (.push (.int64 (wideBits (.ofNat w.toNat) none).toInt64)) := rfl
    have hn : (wideBits w none).toInt64 = n := Int64.toInt_inj.mp ((toInt_wideBits w).trans h.symm)
    rw [haction, UInt32.ofNat_toNat, hn]

theorem Loads.pushes (h : i.Loads v) : i.Pushes v := by
  intro p s code hbody hcode hroom
  rw [step_of_action hbody hcode (h.action p code.size)]
  exact Exec.pushNext_of_lt hroom v

end

end Instruction

/-! ## The way through an image -/

/-- A linked method has the instructions of its record. -/
theorem Linked.exists_method {strings : List String} {limits : Limits} {host : Host}
    {types : List TypeRecord} {m : Machine} (h : Linked strings limits host types m) {k j : Nat}
    {t : TypeRecord} {r : MethodRecord} (ht : types[k]? = some t) (hr : t.methods[j]? = some r) :
    ∃ c method, m.registry.class? k = some c ∧ c.own.decl.methods.items[j]? = some method ∧
      method.body = .interpreted r.code.toArray := by
  obtain ⟨c, hc, -, hdescribes⟩ := h.classes k t ht
  obtain ⟨hlength, hmethods⟩ := List.forall₂_iff_get.mp hdescribes.methods
  obtain ⟨hj, rfl⟩ := List.getElem?_eq_some_iff.mp hr
  have hj' : j < c.own.decl.methods.items.toList.length := hlength ▸ hj
  have hmethod := (hmethods j hj hj').body
  exact ⟨c, _, hc, Array.getElem?_eq_getElem hj', hmethod⟩

/-- Loading what is written for an image is linking the image. -/
theorem Machine.load_encode {image : Image} (fits : image.Fits)
    (size : image.table.length < UInt32.size) (limits : Limits) (host : Host) :
    load image.encode limits host = ofImage image limits host := by
  obtain ⟨ss, htable, held⟩ := Image.exists_sections_of_table image fits size
  have hsize : (UInt32.ofNat image.table.length).toNat = image.table.length :=
    UInt32.toNat_ofNat_of_lt size
  have room : 24 + (tableBytes ss).length ≤ 24 + (UInt32.ofNat image.table.length).toNat :=
    Nat.le_of_eq (by rw [hsize, htable])
  have decoded := Image.decode_of_table (.ofNat image.table.length) image.header.entryPoint
    (.of_le room) held
  rw [hsize, ← htable] at decoded
  have hload : load image.encode limits host =
      ofImage (.holding (.ofNat image.table.length) image.header.entryPoint
        [{ strings := image.strings }, { types := image.types },
          { constants := image.constants }]) limits host := by
    rw [load, Image.encode, decoded]
  simp only [hload, Image.holding, List.flatMap_cons, List.flatMap_nil, List.nil_append,
    List.append_nil]
  rfl

/-- Linking an image leaves its instructions as they are. -/
theorem Instruction.Loads.pushes_of_ofImage {i : Instruction} {v : Value} (h : i.Loads v)
    {image : Image} {limits : Limits} {host : Host} {m : Machine}
    (hm : Machine.ofImage image limits host = .ok m) : m.Pushes image.types i v := by
  obtain ⟨m₁, hm₁, rfl⟩ := ofImage_eq_ok_iff.mp hm
  have hlinked : Linked image.strings limits host image.types m₁ := linked_nil.foldlM hm₁
  intro k j pc t r ht hr hi
  obtain ⟨c, method, hc, hmethod, hbody⟩ := hlinked.exists_method ht hr
  refine ⟨c, method, hc, hmethod, ?_⟩
  rintro p s rfl rfl hroom
  exact h.pushes p s r.code.toArray hbody (by simpa using hi) hroom

/-- **Immediates mean what they say.** An instruction that was made to load a number pushes that
very number, in every method and wherever there is room on the stack; a 64-bit load with a single
operand pushes it as a signed word. The same holds when the instruction has been written to an image
and is read, linked and executed from there. -/
theorem immediates_mean_what_they_say {i : Instruction} {v : Value} (h : i.Loads v) :
    i.Pushes v ∧
    (∀ (bytes : List UInt8) (image : Image) (limits : Limits) (host : Host) (m : Machine),
      Image.decode bytes = .ok image → Machine.load bytes limits host = .ok m →
      m.Pushes image.types i v) ∧
    ∀ (image : Image) (limits : Limits) (host : Host), image.Fits →
      image.table.length < UInt32.size → image.Resolvable →
      ∃ m, Machine.load image.encode limits host = .ok m ∧ m.Pushes image.types i v := by
  refine ⟨h.pushes, fun bytes image limits host m hdecode hload => ?_,
    fun image limits host fits size resolvable => ?_⟩
  · rw [Machine.load, hdecode] at hload
    exact h.pushes_of_ofImage hload
  · obtain ⟨m₁, hm₁⟩ := linked_nil.exists_foldlM_iff.mpr resolvable
    have hm := ofImage_eq_ok_iff.mpr ⟨m₁, hm₁, rfl⟩
    exact ⟨_, (Machine.load_encode fits size limits host).trans hm, h.pushes_of_ofImage hm⟩

/-! A method that loads -5 as a short integer, -2 as a single operand and as a long integer, a word
that is no number and the negative zero. -/

namespace Loading

def code : List Instruction :=
  [.loadInt32 (-5), .of .ldI8 [0xfffffffe], .loadInt64 (-2), .loadSingle ⟨0x7fc00001⟩,
    .loadDouble ⟨0x8000000000000000⟩]

def image : Image where
  header := ⟨"", 0, 0⟩
  strings := ["Numbers", "Main", "void"]
  types := [
    { kind := 0, name := 0, space := 9, access := 0, flags := 0, base := 0, interfaces := []
      fields := []
      methods := [
        { name := 1, returns := 2, access := 0, flags := 0, parameters := [], locals := []
          code }] }]

def before (method : Method) (pc : Nat) : Activation where
  frame := (Frame.enter method none #[] 1).jump pc
  heap := {}

end Loading

/-- The single operand and the two operands load the same number out of the image. -/
theorem immediates_mean_what_they_say_loading :
    ∃ m c method, Machine.load Loading.image.encode {} .basic = .ok m ∧
      m.registry.class? 0 = some c ∧ c.own.decl.methods.items[0]? = some method ∧
      ∀ pc, pc = 1 ∨ pc = 2 →
        step m.program (Loading.before method pc) =
          .ok .next ((Loading.before method pc).withOperands #[.int64 (-2)]) := by
  obtain ⟨-, -, hshort⟩ := immediates_mean_what_they_say (.short 0xfffffffe (-2) (by decide))
  obtain ⟨-, -, hlong⟩ := immediates_mean_what_they_say (.int64 (-2))
  have fits : Loading.image.Fits := by decide
  have size : Loading.image.table.length < UInt32.size := by decide +kernel
  have resolvable : Loading.image.Resolvable := by decide
  obtain ⟨m, hm, hshort⟩ := hshort Loading.image {} .basic fits size resolvable
  obtain ⟨m', hm', hlong⟩ := hlong Loading.image {} .basic fits size resolvable
  obtain rfl : m = m' := Except.ok.inj (hm.symm.trans hm')
  obtain ⟨c, method, hc, hmethod, hshort⟩ := hshort 0 0 1 _ _ rfl rfl rfl
  obtain ⟨c', method', hc', hmethod', hlong⟩ := hlong 0 0 2 _ _ rfl rfl rfl
  obtain rfl : c = c' := Option.some.inj (hc.symm.trans hc')
  obtain rfl : method = method' := Option.some.inj (hmethod.symm.trans hmethod')
  refine ⟨m, c, method, hm, hc, hmethod, ?_⟩
  rintro pc (rfl | rfl)
  · exact hshort m.program _ rfl rfl Nat.zero_lt_one
  · exact hlong m.program _ rfl rfl Nat.zero_lt_one

end ObjectMachine
