import ObjectMachine.Step

/-!
# Watching a single frame

Executes a frame instruction by instruction without any other frame: a call is not entered but
answered with a given value. What is recorded after each instruction is its outcome and what can be
seen of the frame as it then stands, also when the instruction failed. An answered call is always
gone past, even if the answer does not fit on the stack.
-/

namespace ObjectMachine

/-- What one instruction did. -/
inductive Event where
  | flowed (flow : Flow)
  /-- A call was answered; `pushed` tells whether the answer fitted on the stack. -/
  | answered (call : Call) (pushed : Bool)
  | failed (fault : Fault)

/-- What can be seen of a frame from outside: of its stack only the depth and the top. -/
structure Glimpse where
  pc : Nat
  depth : Nat
  top : Option Value
  /-- The argument slots, that of the receiver first. -/
  arguments : List Value
  locals : Array Value
deriving DecidableEq, Repr

def Frame.glimpse (f : Frame) : Glimpse where
  pc := f.pc
  depth := f.stack.depth
  top := f.stack.top?
  arguments := f.argumentSlots
  locals := f.locals

/-- One instruction and what can be seen of the frame after it. -/
structure Record where
  event : Event
  after : Glimpse

/-- The recorded instructions of a frame. -/
structure Trace where
  records : List Record
  /-- The value that the frame returned, null if it did not return. -/
  returned : Value
  heap : Heap

namespace Trace

/-- The trace with one more instruction in front. -/
def cons (r : Record) (t : Trace) : Trace := { t with records := r :: t.records }

/-- The trace that ends with an instruction. -/
def last (r : Record) (returned : Value) (heap : Heap) : Trace := ⟨[r], returned, heap⟩

/-- Executes at most `n` instructions of a frame. A return or a fault ends the trace, and so does an
answer that does not fit on the stack. -/
def watch (p : Program) (answer : Value) : Nat → Activation → Trace
  | 0, s => ⟨[], .null, s.heap⟩
  | n + 1, s =>
    match step p s with
    | .error e s => last ⟨.failed e, s.frame.glimpse⟩ .null s.heap
    | .ok .next s =>
      let frame := s.frame.advance
      cons ⟨.flowed .next, frame.glimpse⟩ (watch p answer n ⟨frame, s.heap⟩)
    | .ok (.jump target) s =>
      let frame := s.frame.jump target
      cons ⟨.flowed (.jump target), frame.glimpse⟩ (watch p answer n ⟨frame, s.heap⟩)
    | .ok (.ret v) s => last ⟨.flowed (.ret v), s.frame.glimpse⟩ v s.heap
    | .ok (.call c) s =>
      match Exec.push answer s with
      | .ok _ s =>
        let frame := s.frame.advance
        cons ⟨.answered c true, frame.glimpse⟩ (watch p answer n ⟨frame, s.heap⟩)
      | .error _ s => last ⟨.answered c false, s.frame.advance.glimpse⟩ .null s.heap

end Trace

end ObjectMachine
