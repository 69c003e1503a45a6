import ObjectMachine.Proofs.Histories
import ObjectMachine.Proofs.Saturation

/-!
# Arrays as stores

An array is a store with the positions below its length for keys. An index is any whole number, so
it is a position only if it is neither negative nor too large, whatever the width of the integer
that it comes from. A value that is stored at a position is what is then read there, and nothing
else has changed, however many references there are to the array.

`Heap.ArrayLaw` says all this of an array in a heap, for accesses by the host and for the three
instructions on arrays. It holds of every array, because nothing but the elements matters
(`Heap.arrayLaw`). That an array keeps its length is a matter of histories: no access changes it
(`Heap.Access.array_of_some`), and every history comes down to accesses (`array_store_law`).
-/

namespace ObjectMachine

/-- What comes of an instruction that has taken its operands from above `base` and puts a value
there. -/
def Activation.puts (s : Activation) (base : Array Value) (v : Value) :
    EStateM.Result Fault Activation Flow :=
  if base.size < s.room then .ok .next (s.withOperands (base.push v))
  else .error .stackOverflow (s.withOperands base)

/-- An array is a store: its elements are these, an index that is no position can neither be read
nor be written, and any other index stands for one of the elements, which is what is read there and
all that is changed there. The instructions on arrays do what the accesses do, for indices of either
width; a length that 32 bits cannot hold is reported as the greatest number that they can. -/
structure Heap.ArrayLaw (h : Heap) (r : ArrayRef) (elements : Array Value) : Prop where
  array : h.arrays[r.index]? = some elements
  length : h.length r = elements.size
  outside : ∀ index : Int, ¬ (0 ≤ index ∧ index < elements.size) →
    h.getElement r index = .error (.indexOutOfRange .arrayElement index elements.size) ∧
    ∀ v, setElement r index v h = .error (.indexOutOfRange .arrayElement index elements.size) h
  inside : ∀ k : Nat, k < elements.size →
    ∃ old, elements[k]? = some old ∧ h.getElement r k = .ok old ∧
      ∀ v, ∃ h', setElement r k v h = .ok () h' ∧ h'.getElement r k = .ok v ∧
        (∀ other : Int, other ≠ k → h'.getElement r other = h.getElement r other) ∧
        h'.arrays[r.index]? = some (elements.setIfInBounds k v) ∧
        ∀ cell, cell ≠ .array r → h'.content? cell = h.content? cell
  load : ∀ (p : Program) (s : Activation) (i : Instruction) (base : Array Value) (index : Value)
    (w : Width) (n : Int), s.heap = h → s.Executes i .ldElem → index.IsInteger w n →
    s.frame.stack.slots = (base.push (.array r)).push index →
      step p s =
        match h.getElement r n with
        | .ok v => s.puts base v
        | .error e => .error e (s.withOperands base)
  store : ∀ (p : Program) (s : Activation) (i : Instruction) (base : Array Value) (index : Value)
    (w : Width) (n : Int) (v : Value), s.heap = h → s.Executes i .stElem → index.IsInteger w n →
    s.frame.stack.slots = ((base.push (.array r)).push index).push v →
      step p s =
        match setElement r n v h with
        | .ok _ h' => .ok .next { s.withOperands base with heap := h' }
        | .error e h' => .error e { s.withOperands base with heap := h' }
  measure : ∀ (p : Program) (s : Activation) (i : Instruction) (base : Array Value),
    s.heap = h → s.Executes i .ldLen → s.frame.stack.slots = base.push (.array r) →
      ∃ n : Int32, n.toInt = min (elements.size : Int) greatest32 ∧
        step p s = s.puts base (.int32 n)

/-- What becomes of a request for an array, with the length on top of the operands. An integer
within the limit gives a new array of that many nulls. Anything else fails, and nothing is
created. -/
structure Activation.AllocationLaw (s : Activation) (p : Program) (length : Value)
    (base : Array Value) : Prop where
  granted : ∀ (w : Width) (n : Nat), length.IsInteger w n → n ≤ p.limits.arrayLength →
    ∃ r h', s.heap.content? (.array r) = none ∧
      Heap.Put (.array r) (.array (Array.replicate n .null)) s.heap h' ∧
      step p s = { s with heap := h' }.puts base (.array r)
  refused : ∀ (w : Width) (n : Int), length.IsInteger w n →
    ¬ (0 ≤ n ∧ n ≤ p.limits.arrayLength) →
      step p s = .error (.indexOutOfRange .arrayLength n p.limits.arrayLength) (s.withOperands base)
  mistyped : (∀ w n, ¬ length.IsInteger w n) →
    step p s = .error (.typeMismatch (.index .newArr length.kind)) (s.withOperands base)

/-! ## Reading and writing -/

namespace Heap

variable {h : Heap} {r : ArrayRef} {elements : Array Value}

theorem content?_array_eq_some_iff :
    h.content? (.array r) = some (.array elements) ↔ h.arrays[r.index]? = some elements := by
  simp [content?]

theorem length_of_some (ha : h.arrays[r.index]? = some elements) : h.length r = elements.size := by
  rw [length, Heap.elements, ha, Option.getD_some]

theorem elementIndex_of_lt {n k : Nat} (h : k < n) : elementIndex n k = .ok k := by
  rw [elementIndex, if_pos (by omega), Int.toNat_natCast]

theorem elementIndex_of_not {n : Nat} {index : Int} (h : ¬ (0 ≤ index ∧ index < n)) :
    elementIndex n index = .error (.indexOutOfRange .arrayElement index n) := if_neg h

theorem getElement_of_some (ha : h.arrays[r.index]? = some elements) {k : Nat} {v : Value}
    (hv : elements[k]? = some v) : h.getElement r k = .ok v := by
  have hk : k < elements.size := (Array.getElem?_eq_some_iff.mp hv).1
  simp only [getElement, length_of_some ha, elementIndex_of_lt hk, bind, Except.bind,
    Heap.elements, ha, Option.getD_some, Array.getD_eq_getD_getElem?, hv]
  rfl

theorem getElement_of_not (ha : h.arrays[r.index]? = some elements) {index : Int}
    (hindex : ¬ (0 ≤ index ∧ index < elements.size)) :
    h.getElement r index = .error (.indexOutOfRange .arrayElement index elements.size) := by
  simp only [getElement, length_of_some ha, elementIndex_of_not hindex, bind, Except.bind]

theorem setElement_of_lt (ha : h.arrays[r.index]? = some elements) {k : Nat}
    (hk : k < elements.size) (v : Value) :
    ∃ h', setElement r k v h = .ok () h' ∧
      Put (.array r) (.array (elements.setIfInBounds k v)) h h' := by
  refine ⟨{ h with arrays := h.arrays.modify r.index (·.setIfInBounds k v) }, ?_,
    content?_of_arrays (getElem?_modify_of_some ha _)⟩
  simp only [setElement, length_of_some ha, elementIndex_of_lt hk]

theorem setElement_of_not (ha : h.arrays[r.index]? = some elements) {index : Int}
    (hindex : ¬ (0 ≤ index ∧ index < elements.size)) (v : Value) :
    setElement r index v h = .error (.indexOutOfRange .arrayElement index elements.size) h := by
  simp only [setElement, length_of_some ha, elementIndex_of_not hindex]

/-- What is read at an index is only affected by a change at this position. -/
theorem getElement_of_setIfInBounds {h' : Heap} {k : Nat} {v : Value}
    (ha : h.arrays[r.index]? = some elements)
    (ha' : h'.arrays[r.index]? = some (elements.setIfInBounds k v)) {index : Int}
    (hne : index ≠ k) : h'.getElement r index = h.getElement r index := by
  have hsize : (elements.setIfInBounds k v).size = elements.size := Array.size_setIfInBounds
  by_cases hindex : 0 ≤ index ∧ index < elements.size
  · obtain ⟨j, rfl⟩ := Int.eq_ofNat_of_zero_le hindex.1
    have hj : j < elements.size := by omega
    have hkj : k ≠ j := by omega
    have hold : elements[j]? = some elements[j] := Array.getElem?_eq_getElem hj
    have hnew : (elements.setIfInBounds k v)[j]? = some elements[j] := by
      rw [Array.getElem?_setIfInBounds_ne hkj, hold]
    rw [getElement_of_some ha hold, getElement_of_some ha' hnew]
  · rw [getElement_of_not ha hindex, getElement_of_not ha' (by rwa [hsize]), hsize]

end Heap

/-! ## The instructions -/

theorem Value.IsInteger.toIndex?_eq {v : Value} {w : Width} {n : Int} (h : v.IsInteger w n) :
    v.toIndex? = some n := by
  cases h <;> rfl

theorem Value.toIndex?_eq_none {v : Value} (h : ∀ w n, ¬ v.IsInteger w n) : v.toIndex? = none := by
  cases v with
  | int32 n => exact absurd (.int32 n) (h _ _)
  | int64 n => exact absurd (.int64 n) (h _ _)
  | _ => rfl

section
variable {p : Program} {s : Activation} {i : Instruction} {base : Array Value} {r : ArrayRef}
  {v index : Value} {w : Width} {n : Int}

theorem Exec.popArray_of_push (op : Opcode) (hstack : s.frame.stack.slots = base.push (.array r)) :
    popArray op s = .ok r (s.withOperands base) := by
  simp only [popArray, bind, EStateM.bind, pop_of_push hstack]
  rfl

theorem Exec.popIndex_of_push (op : Opcode) (hn : v.IsInteger w n)
    (hstack : s.frame.stack.slots = base.push v) :
    popIndex op s = .ok n (s.withOperands base) := by
  simp only [popIndex, bind, EStateM.bind, pop_of_push hstack, hn.toIndex?_eq]
  rfl

theorem Exec.popIndex_of_not (op : Opcode) (hv : ∀ w n, ¬ v.IsInteger w n)
    (hstack : s.frame.stack.slots = base.push v) :
    popIndex op s = .error (.typeMismatch (.index op v.kind)) (s.withOperands base) := by
  simp only [popIndex, bind, EStateM.bind, pop_of_push hstack, Value.toIndex?_eq_none hv]
  rfl

/-- A result is pushed last, and there may be no room for it. -/
theorem Exec.pushNext_eq_puts (s : Activation) (base : Array Value) (v : Value) :
    (do push v; pure Flow.next : Exec Flow) (s.withOperands base) = s.puts base v := by
  by_cases hroom : base.size < s.room
  · rw [Activation.puts, if_pos hroom]
    exact pushNext_of_lt (s := s.withOperands base) hroom v
  · have hfull : (s.withOperands base).frame.stack.limit ≤
        (s.withOperands base).frame.stack.depth := Nat.not_lt.mp hroom
    rw [Activation.puts, if_neg hroom]
    simp only [bind, EStateM.bind, push, onStack, Stack.push_of_le v hfull]

theorem step_ldElem (hexecutes : s.Executes i .ldElem) (hn : index.IsInteger w n)
    (hstack : s.frame.stack.slots = (base.push (.array r)).push index) :
    step p s =
      match s.heap.getElement r n with
      | .ok v => s.puts base v
      | .error e => .error e (s.withOperands base) := by
  have hindex := Exec.popIndex_of_push .ldElem hn hstack
  have harray : Exec.popArray .ldElem (s.withOperands (base.push (.array r))) =
      .ok r (s.withOperands base) := Exec.popArray_of_push .ldElem rfl
  have hheap : (s.withOperands base).heap = s.heap := rfl
  rw [hexecutes.step_of_actionOf p fun _ => rfl]
  simp only [Exec.perform, bind, EStateM.bind, hindex, harray, Exec.read, hheap]
  cases s.heap.getElement r n with
  | error e => rfl
  | ok v => exact Exec.pushNext_eq_puts s base v

theorem step_stElem (hexecutes : s.Executes i .stElem) (hn : index.IsInteger w n)
    (hstack : s.frame.stack.slots = ((base.push (.array r)).push index).push v) :
    step p s =
      match Heap.setElement r n v s.heap with
      | .ok _ h => .ok .next { s.withOperands base with heap := h }
      | .error e h => .error e { s.withOperands base with heap := h } := by
  have hvalue := Exec.pop_of_push hstack
  have hindex : Exec.popIndex .stElem (s.withOperands ((base.push (.array r)).push index)) =
      .ok n (s.withOperands (base.push (.array r))) := Exec.popIndex_of_push .stElem hn rfl
  have harray : Exec.popArray .stElem (s.withOperands (base.push (.array r))) =
      .ok r (s.withOperands base) := Exec.popArray_of_push .stElem rfl
  have hsteps : Exec.perform p .storeElement s =
      (do Exec.onHeap (Heap.setElement r n v); pure Flow.next : Exec Flow)
        (s.withOperands base) := by
    simp only [Exec.perform, bind, EStateM.bind, hvalue, hindex, harray]
  rw [hexecutes.step_of_actionOf p fun _ => rfl, hsteps]
  rcases Heap.setElement_cases r n v s.heap with ⟨e, hset⟩ | ⟨elements, k, h', -, -, -, hset, -⟩
  · rw [hset]
    exact Exec.onHeapNext_of_error _ hset
  · rw [hset]
    exact Exec.onHeapNext_of_ok _ hset

theorem step_ldLen (hexecutes : s.Executes i .ldLen)
    (hstack : s.frame.stack.slots = base.push (.array r)) :
    step p s = s.puts base (.ofInt (s.heap.length r)) := by
  have harray := Exec.popArray_of_push .ldLen hstack
  rw [hexecutes.step_of_actionOf p fun _ => rfl]
  simp only [Exec.perform, bind, EStateM.bind, harray]
  exact Exec.pushNext_eq_puts s base _

/-- A request for an array is granted exactly if the length is an integer within the limit. -/
theorem Activation.allocationLaw (hexecutes : s.Executes i .newArr)
    (hstack : s.frame.stack.slots = base.push v) : s.AllocationLaw p v base where
  granted w n hn hle := by
    have hindex := Exec.popIndex_of_push .newArr hn hstack
    have hlength : p.limits.checkLength n = .ok n := by
      rw [Limits.checkLength, if_pos (by omega), Int.toNat_natCast]
    refine ⟨⟨s.heap.arrays.size⟩, (Heap.newArray n).leaves s.heap, by simp [Heap.content?],
      Heap.put_newArray n s.heap, ?_⟩
    rw [hexecutes.step_of_actionOf p fun _ => rfl]
    simp only [Exec.perform, bind, EStateM.bind, hindex, Exec.lift, Exec.read, hlength]
    exact Exec.pushNext_eq_puts { s with heap := (Heap.newArray n).leaves s.heap } base _
  refused w n hn hnot := by
    have hindex := Exec.popIndex_of_push .newArr hn hstack
    have hlength : p.limits.checkLength n =
        .error (.indexOutOfRange .arrayLength n p.limits.arrayLength) := if_neg hnot
    rw [hexecutes.step_of_actionOf p fun _ => rfl]
    simp only [Exec.perform, bind, EStateM.bind, hindex, Exec.lift, Exec.read, hlength]
  mistyped hnot := by
    have hindex := Exec.popIndex_of_not .newArr hnot hstack
    rw [hexecutes.step_of_actionOf p fun _ => rfl]
    simp only [Exec.perform, bind, EStateM.bind, hindex]

end

/-! ## The law -/

/-- Every array is a store. -/
theorem Heap.arrayLaw {h : Heap} {r : ArrayRef} {elements : Array Value}
    (ha : h.arrays[r.index]? = some elements) : h.ArrayLaw r elements where
  array := ha
  length := length_of_some ha
  outside index hindex := ⟨getElement_of_not ha hindex, setElement_of_not ha hindex⟩
  inside k hk := by
    have hold : elements[k]? = some elements[k] := Array.getElem?_eq_getElem hk
    refine ⟨elements[k], hold, getElement_of_some ha hold, fun v => ?_⟩
    obtain ⟨h', hset, hput⟩ := setElement_of_lt ha hk v
    have ha' : h'.arrays[r.index]? = some (elements.setIfInBounds k v) :=
      content?_array_eq_some_iff.mp ((hput (.array r)).trans (if_pos rfl))
    refine ⟨h', hset, ?_, fun other hother => ?_, ha', fun cell hcell => ?_⟩
    · exact getElement_of_some ha' (Array.getElem?_setIfInBounds_self_of_lt hk)
    · exact getElement_of_setIfInBounds ha ha' hother
    · rw [hput cell, if_neg hcell]
  load p s i base index w n hs hexecutes hn hstack := by
    rw [← hs]
    exact step_ldElem hexecutes hn hstack
  store p s i base index w n v hs hexecutes hn hstack := by
    rw [← hs]
    exact step_stElem hexecutes hn hstack
  measure p s i base hs hexecutes hstack := by
    have hlength : s.heap.length r = elements.size := by rw [hs, length_of_some ha]
    refine ⟨saturate32 elements.size, ?_, ?_⟩
    · rw [toInt_saturate32, clamp_narrow, greatest32]
      omega
    · rw [step_ldLen hexecutes hstack, hlength]
      rfl

/-! ## Arrays along a history -/

namespace Heap

variable {K : Class → Prop} {h h' : Heap} {r : ArrayRef} {elements : Array Value}

/-- An access leaves an array its length. -/
theorem Access.array_of_some (ha : Access K h h') (he : h.arrays[r.index]? = some elements) :
    ∃ elements', h'.arrays[r.index]? = some elements' ∧ elements'.size = elements.size := by
  obtain ⟨call, -, rfl⟩ := ha
  rcases call.leaves_cases h with heq | ⟨target, content, hchanges, hput⟩
  · rw [heq]
    exact ⟨elements, he, rfl⟩
  · have hcell := hput (.array r)
    by_cases htarget : .array r = target
    · rw [if_pos htarget] at hcell
      cases hchanges with
      | newObject c => cases htarget
      | newArray n =>
        -- the place of a new array was not taken
        cases htarget
        simp at he
      | setField v ho hk => cases htarget
      | setElement v he' hk =>
        cases htarget
        obtain rfl := Option.some.inj (he.symm.trans he')
        exact ⟨_, content?_array_eq_some_iff.mp hcell, Array.size_setIfInBounds⟩
    · rw [if_neg htarget, content?_array_eq_some_iff.mpr he] at hcell
      exact ⟨elements, content?_array_eq_some_iff.mp hcell, rfl⟩

/-- An array keeps its length for good. -/
theorem Accessed.array_of_some (haccessed : Accessed K h h')
    (he : h.arrays[r.index]? = some elements) :
    ∃ elements', h'.arrays[r.index]? = some elements' ∧ elements'.size = elements.size := by
  induction haccessed with
  | refl => exact ⟨elements, he, rfl⟩
  | tail _ haccess ih =>
    obtain ⟨middle, hmiddle, hsize⟩ := ih
    obtain ⟨elements', helements', hsize'⟩ := haccess.array_of_some hmiddle
    exact ⟨elements', helements', hsize'.trans hsize⟩

end Heap

/-- **Arrays are stores, for good.** A request for an array is granted exactly if the length is an
integer within the limit. Whatever happens later, in any session and while code runs in it, the
array keeps its length, can be read and written exactly at its positions, and what is stored is what
is then read. In a run there is always room for a result in the place of operands. -/
theorem array_store_law :
    (∀ p s i length base, Activation.Executes s i .newArr →
      s.frame.stack.slots = base.push length → s.AllocationLaw p length base) ∧
    (∀ (h : Heap) (r : ArrayRef) elements, h.arrays[r.index]? = some elements →
      ∀ later, Heap.Evolves (fun _ => True) h later →
        ∃ elements', elements'.size = elements.size ∧ later.ArrayLaw r elements') ∧
    (∀ w₀ cs w ds w', World.Opened w₀ → Session w₀ cs w → Session w ds w' →
      w₀.machine.program.host.Accesses (fun _ => True) →
      Heap.Evolves (fun _ => True) w.machine.heap w'.machine.heap ∧
      ∀ n c, c.heap = w'.machine.heap →
        Heap.Evolves (fun _ => True) w.machine.heap (run w'.machine.program n c).heap) ∧
    (∀ p c code heap n d, c.method.body = .interpreted code →
      run p n (.start p c heap) = .running d →
        ∀ (base : Array Value) v, d.active.stack.slots = base.push v →
          base.size < d.active.stack.limit) := by
  refine ⟨fun p s i length base hexecutes hstack => ?_, fun h r elements he later hist => ?_,
    fun w₀ cs w ds w' hopened hsession hlater hhost => ?_,
    fun p c code heap n d hc hd base v hstack => ?_⟩
  · exact Activation.allocationLaw hexecutes hstack
  · obtain ⟨elements', helements', hsize⟩ := hist.accessed.array_of_some he
    exact ⟨elements', hsize, Heap.arrayLaw helements'⟩
  · have hsound := hsession.sound hopened.sound
    rw [← hsession.host_eq hopened.sound, ← hlater.host_eq hsound] at hhost
    have hrequests := hlater.evolves hsound (fun _ _ => trivial) hhost
    refine ⟨hrequests, fun n c hc => ?_⟩
    have hrun := Heap.evolves_of_run ((hlater.sound hsound).within (fun _ _ => trivial) hhost) n c
    rw [hc] at hrun
    exact hrequests.trans hrun
  · have hsound := ((Config.sound_start hc heap).run hd).frames d.active List.mem_cons_self
    have hdepth := hsound.depth
    rw [← hsound.limit, Stack.depth, hstack, Array.size_push] at hdepth
    exact hdepth

/-! An array of two elements is created and then stored in itself, at an index of 64 bits. -/

namespace Looped

def program : Program where
  limits := { arrayLength := 2 }
  host := .basic

def frame (op : Opcode) (operands : Array Value) : Frame :=
  { Frame.enter (.interpreted "Loop" .void [] [] #[.of op []] .everyone) none #[] 3
    with stack := ⟨operands, 3⟩ }

def created : Heap where
  arrays := #[#[.null, .null]]

def looped : Heap where
  arrays := #[#[.null, .array ⟨0⟩]]

theorem history : Heap.Evolves (fun _ => True) created looped :=
  .single (.instruction (p := program) ⟨fun _ _ _ => trivial, Host.accesses_basic _⟩
    (frame .stElem #[.array ⟨0⟩, .int64 1, .array ⟨0⟩]))

end Looped

theorem array_store_law_looped :
    (∃ r h', step Looped.program ⟨Looped.frame .newArr #[.int32 2], {}⟩ =
      .ok .next ⟨Looped.frame .newArr #[.array r], h'⟩ ∧ h'.content? (.array r) =
        some (.array #[.null, .null])) ∧
    step Looped.program ⟨Looped.frame .newArr #[.int64 3], {}⟩ =
      .error (.indexOutOfRange .arrayLength 3 2) ⟨Looped.frame .newArr #[], {}⟩ ∧
    Looped.looped.getElement ⟨0⟩ 2 = .error (.indexOutOfRange .arrayElement 2 2) ∧
    ∃ h', Heap.setElement ⟨0⟩ 0 (.int32 7) Looped.looped = .ok () h' ∧
      h'.getElement ⟨0⟩ 0 = .ok (.int32 7) ∧ h'.getElement ⟨0⟩ 1 = .ok (.array ⟨0⟩) := by
  obtain ⟨hallocation, hlaws, -⟩ := array_store_law
  have hallowed := hallocation Looped.program ⟨Looped.frame .newArr #[.int32 2], {}⟩
    (.of .newArr []) (.int32 2) #[] ⟨_, rfl, rfl, rfl⟩ rfl
  have hrefused := hallocation Looped.program ⟨Looped.frame .newArr #[.int64 3], {}⟩
    (.of .newArr []) (.int64 3) #[] ⟨_, rfl, rfl, rfl⟩ rfl
  obtain ⟨r, h', -, hput, hstep⟩ := hallowed.granted .narrow 2 (.int32 2) (by decide)
  obtain ⟨elements, hsize, hlaw⟩ := hlaws Looped.created ⟨0⟩ _ rfl Looped.looped Looped.history
  obtain rfl : #[.null, .array ⟨0⟩] = elements := Option.some.inj hlaw.array
  obtain ⟨old, -, -, hset⟩ := hlaw.inside 0 (by decide)
  obtain ⟨h'', hok, hread, hothers, -⟩ := hset (.int32 7)
  have hgranted := hstep.trans (if_pos (Nat.zero_lt_succ 2))
  refine ⟨⟨r, h', hgranted, (hput (.array r)).trans (if_pos rfl)⟩, ?_,
    (hlaw.outside 2 (by decide)).1, h'', hok, hread, (hothers 1 (by decide)).trans rfl⟩
  exact hrefused.refused .wide 3 (.int64 3) (by decide)

end ObjectMachine
