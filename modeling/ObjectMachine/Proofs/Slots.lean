import ObjectMachine.Proofs.Arguments

/-!
# Variables as cells

A frame has two rows of variables, the argument slots and the local variables. The argument slots
are kept in two places, since the receiver is apart from the arguments and takes objects only, and
reading and storing find the place each for itself. Seen as a row (`Row.values`) both come down to
the same: reading looks a position up (`Row.read_eq`), a store that is taken changes one position
and leaves the other row alone (`Row.values_of_write`), and which stores are taken depends only on
what no store changes (`Row.exists_write_iff`, `Row.refuses_congr`).

What one store does to each variable (`VariableStore.read_make`) gives what a history of stores has
left in it (`Activation.read_afterStores`, `variables_are_cells`).
-/

namespace ObjectMachine

/-- The two sorts of variables of a frame. -/
inductive Row where
  | arguments
  | locals
deriving DecidableEq, Repr

namespace Row

def other : Row → Row
  | arguments => locals
  | locals => arguments

def read (f : Frame) (i : Nat) : Row → Except Fault Value
  | arguments => f.argument i
  | locals => f.localValue i

def write (i : Nat) (v : Value) (f : Frame) : Row → Except Fault Frame
  | arguments => f.setArgument i v
  | locals => f.setLocal i v

/-- The stores that a frame does not take: there is no such variable, or something other than an
object is to become the receiver. -/
def Refuses (f : Frame) (i : Nat) (v : Value) : Row → Prop
  | arguments => f.argumentCount ≤ i ∨ i = 0 ∧ f.receiver.isSome ∧ v.kind ≠ .object
  | locals => f.locals.size ≤ i

instance (row : Row) (f : Frame) (i : Nat) (v : Value) : Decidable (row.Refuses f i v) :=
  match row with
  | arguments => inferInstanceAs (Decidable (_ ∨ _))
  | locals => inferInstanceAs (Decidable (_ ≤ _))

/-! ## One row -/

/-- The values of all variables of a sort, in order. -/
def values (f : Frame) : Row → List Value
  | arguments => f.argumentSlots
  | locals => f.locals.toList

/-- How a variable that does not exist is reported. -/
def indexed : Row → Indexed
  | arguments => .arguments
  | locals => .locals

section
variable {row : Row} {f g : Frame} {i : Nat} {v : Value}

theorem read_eq (row : Row) (f : Frame) (i : Nat) :
    row.read f i =
      match (row.values f)[i]? with
      | some v => .ok v
      | none => .error (.outOfRange row.indexed i (row.values f).length) := by
  cases row with
  | arguments =>
    rw [read, values, f.argument_eq, Frame.noArgument, f.argumentCount_eq]
    rfl
  | locals =>
    rw [read, values, Frame.localValue, Array.getElem?_toList, Array.length_toList]
    rfl

/-- A store that is taken changes the one position of its row and nothing of the other row. -/
theorem values_of_write (h : row.write i v f = .ok g) :
    i < (row.values f).length ∧ row.values g = (row.values f).set i v ∧
      row.other.values g = row.other.values f := by
  cases row with
  | arguments =>
    obtain ⟨hi, hslots⟩ := Frame.argumentSlots_of_setArgument h
    exact ⟨hi, hslots, congrArg Array.toList (Frame.locals_of_setArgument h)⟩
  | locals =>
    simp only [write, Frame.setLocal] at h
    split at h
    · rename_i hi
      cases h
      exact ⟨by simpa [values] using hi, by simp [values], rfl⟩
    · cases h

theorem continues_of_write (h : row.write i v f = .ok g) : f.Continues g := by
  cases row with
  | arguments => exact Frame.continues_of_setArgument h
  | locals => exact Frame.continues_of_setLocal h

/-- Exactly the stores that are not refused are taken. -/
theorem exists_write_iff : (∃ g, row.write i v f = .ok g) ↔ ¬ row.Refuses f i v := by
  cases row with
  | arguments =>
    simp only [write, Frame.setArgument, Refuses, Frame.argumentCount]
    cases hr : f.receiver with
    | none =>
      by_cases hi : i < f.arguments.size
      · simp [hi]
      · simp [hi]
    | some r =>
      cases i with
      | zero =>
        -- there is a slot of the receiver, so only the value decides
        cases v <;> simp [Value.toObject?, Value.kind]
      | succ j =>
        by_cases hj : j < f.arguments.size
        · simp [hj]
        · simp [hj]
  | locals =>
    simp only [write, Frame.setLocal, Refuses]
    by_cases hi : i < f.locals.size
    · simp [hi]
    · simp [hi]

/-- Which stores are refused is settled when the method begins. -/
theorem refuses_congr (h : f.Continues g) : row.Refuses g i v ↔ row.Refuses f i v := by
  cases row with
  | arguments => simp only [Refuses, Frame.argumentCount, h.receiver, h.arguments]
  | locals => simp only [Refuses, h.locals]

theorem read_of_write (h : row.write i v f = .ok g) : row.read g i = .ok v := by
  obtain ⟨hi, hvalues, -⟩ := values_of_write h
  rw [read_eq, hvalues, List.getElem?_set_self hi]

theorem read_of_write_of_ne (h : row.write i v f = .ok g) {j : Nat} (hj : j ≠ i) :
    row.read g j = row.read f j := by
  obtain ⟨-, hvalues, -⟩ := values_of_write h
  rw [read_eq, read_eq, hvalues, List.getElem?_set_ne hj.symm, List.length_set]

theorem other_read_of_write (h : row.write i v f = .ok g) (j : Nat) :
    row.other.read g j = row.other.read f j := by
  obtain ⟨-, -, hother⟩ := values_of_write h
  rw [read_eq, read_eq, hother]

end

theorem eq_or_eq_other (row row' : Row) : row' = row ∨ row' = row.other := by
  cases row <;> cases row' <;> decide

theorem other_ne (row : Row) : row.other ≠ row := by
  cases row <;> decide

end Row

/-! ## Stores -/

/-- A store to a variable. -/
structure VariableStore where
  row : Row
  index : Nat
  value : Value
deriving DecidableEq, Repr

namespace VariableStore

def make (store : VariableStore) : Exec Unit :=
  .onFrame fun f => store.row.write store.index store.value f

/-- A frame takes the store, and the store is to this variable. -/
def Changes (store : VariableStore) (f : Frame) (row : Row) (i : Nat) : Prop :=
  ¬ store.row.Refuses f store.index store.value ∧ store.row = row ∧ store.index = i

instance (store : VariableStore) (f : Frame) (row : Row) (i : Nat) :
    Decidable (store.Changes f row i) :=
  inferInstanceAs (Decidable (_ ∧ _))

/-- A store fails and leaves everything as it is, or it is taken. -/
theorem make_cases (store : VariableStore) (s : Activation) :
    (store.row.Refuses s.frame store.index store.value ∧ ∃ e, store.make s = .error e s) ∨
    ¬ store.row.Refuses s.frame store.index store.value ∧
      ∃ g, store.row.write store.index store.value s.frame = .ok g ∧
        store.make s = .ok () { s with frame := g } := by
  cases h : store.row.write store.index store.value s.frame with
  | error e =>
    refine .inl ⟨?_, e, by simp only [make, Exec.onFrame, h]⟩
    by_contra hrefuses
    obtain ⟨g, hg⟩ := Row.exists_write_iff.mpr hrefuses
    rw [h] at hg
    cases hg
  | ok g =>
    exact .inr ⟨Row.exists_write_iff.mp ⟨g, h⟩, g, rfl, by simp only [make, Exec.onFrame, h]⟩

theorem write_of_make {store : VariableStore} {s s' : Activation} (h : store.make s = .ok () s') :
    ∃ g, store.row.write store.index store.value s.frame = .ok g ∧ { s with frame := g } = s' := by
  obtain ⟨-, e, hmake⟩ | ⟨-, g, hg, hmake⟩ := store.make_cases s
  · cases hmake.symm.trans h
  · cases hmake.symm.trans h
    exact ⟨g, hg, rfl⟩

theorem continues_make (store : VariableStore) (s : Activation) :
    s.frame.Continues (store.make.leaves s).frame :=
  have hkeeps : Preserves (fun t => s.frame.Continues t.frame) (fun _ => True) store.make :=
    .onFrame fun _ _ hs h => hs.trans (Row.continues_of_write h)
  hkeeps.leaves (.refl _)

/-- A variable afterwards: the value of the store if it is this variable that is changed. -/
theorem read_make (store : VariableStore) (s : Activation) (row : Row) (i : Nat) :
    row.read (store.make.leaves s).frame i =
      if store.Changes s.frame row i then .ok store.value else row.read s.frame i := by
  obtain ⟨hrefuses, e, hmake⟩ | ⟨htakes, g, hg, hmake⟩ := store.make_cases s
  · rw [EStateM.leaves_of_error hmake, if_neg fun h => h.1 hrefuses]
  · rw [EStateM.leaves_of_ok hmake]
    obtain rfl | rfl := store.row.eq_or_eq_other row
    · by_cases hi : i = store.index
      · subst hi
        rw [if_pos ⟨htakes, rfl, rfl⟩, Row.read_of_write hg]
      · rw [if_neg fun h => hi h.2.2.symm, Row.read_of_write_of_ne hg hi]
    · rw [if_neg fun h => store.row.other_ne h.2.1.symm, Row.other_read_of_write hg]

end VariableStore

/-! ## Histories -/

namespace Activation

/-- The activation after a history of stores, of which some may have failed. -/
def afterStores (s : Activation) (history : List VariableStore) : Activation :=
  history.foldl (fun s store => store.make.leaves s) s

theorem continues_afterStores (s₀ : Activation) (history : List VariableStore) :
    s₀.frame.Continues (s₀.afterStores history).frame := by
  induction history generalizing s₀ with
  | nil => exact .refl _
  | cons store rest ih => exact (store.continues_make s₀).trans (ih _)

/-- A variable holds what was stored last of what was taken, or what it held in the beginning. -/
theorem read_afterStores (s₀ : Activation) (history : List VariableStore) (row : Row) (i : Nat) :
    row.read (s₀.afterStores history).frame i =
      match (history.filter (·.Changes s₀.frame row i)).getLast? with
      | some store => .ok store.value
      | none => row.read s₀.frame i := by
  -- from the end, since the last store decides
  induction history using List.reverseRecOn with
  | nil => rfl
  | append_singleton earlier store ih =>
    have hlast : s₀.afterStores (earlier ++ [store]) =
        store.make.leaves (s₀.afterStores earlier) := List.foldl_concat ..
    have hchanges : store.Changes (s₀.afterStores earlier).frame row i ↔
        store.Changes s₀.frame row i :=
      and_congr_left' (not_congr (Row.refuses_congr (s₀.continues_afterStores earlier)))
    rw [hlast, store.read_make, List.filter_append]
    by_cases h : store.Changes s₀.frame row i
    · rw [if_pos (hchanges.mpr h), List.filter_singleton]
      simp [h]
    · rw [if_neg (mt hchanges.mp h), ih]
      simp [h]

/-- The laws of stores to variables: which ones fail, that a failed one changes nothing, and that
any other one changes a single variable. -/
structure StoreLaws (s : Activation) : Prop where
  fails_iff : ∀ store : VariableStore, (∃ e s', store.make s = .error e s') ↔
    store.row.Refuses s.frame store.index store.value
  failed : ∀ (store : VariableStore) e s', store.make s = .error e s' → s' = s
  stored : ∀ (store : VariableStore) s', store.make s = .ok () s' →
    store.row.read s'.frame store.index = .ok store.value
  others : ∀ (store : VariableStore) s' j, store.make s = .ok () s' → j ≠ store.index →
    store.row.read s'.frame j = store.row.read s.frame j
  otherRow : ∀ (store : VariableStore) s' j, store.make s = .ok () s' →
    store.row.other.read s'.frame j = store.row.other.read s.frame j

theorem storeLaws (s : Activation) : s.StoreLaws where
  fails_iff store := by
    obtain ⟨hrefuses, e, hmake⟩ | ⟨htakes, g, -, hmake⟩ := store.make_cases s
    · exact iff_of_true ⟨e, s, hmake⟩ hrefuses
    · exact iff_of_false (by simp [hmake]) htakes
  failed store e s' h := by
    obtain ⟨-, e', hmake⟩ | ⟨-, g, -, hmake⟩ := store.make_cases s
    · cases hmake.symm.trans h
      rfl
    · cases hmake.symm.trans h
  stored store s' h := by
    obtain ⟨g, hg, rfl⟩ := VariableStore.write_of_make h
    exact Row.read_of_write hg
  others store s' j h hj := by
    obtain ⟨g, hg, rfl⟩ := VariableStore.write_of_make h
    exact Row.read_of_write_of_ne hg hj
  otherRow store s' j h := by
    obtain ⟨g, hg, rfl⟩ := VariableStore.write_of_make h
    exact Row.other_read_of_write hg j

end Activation

/-- **Variables are independent cells.** After any stores to the argument slots and the local
variables of any frame, the counts of both and whether there is a receiver are what they were, the
laws of stores hold, and every variable holds the value that was last stored in it with success. -/
theorem variables_are_cells (s₀ : Activation) (history : List VariableStore) :
    (s₀.afterStores history).frame.argumentCount = s₀.frame.argumentCount ∧
    (s₀.afterStores history).frame.receiver.isSome = s₀.frame.receiver.isSome ∧
    (s₀.afterStores history).frame.locals.size = s₀.frame.locals.size ∧
    (s₀.afterStores history).StoreLaws ∧
    ∀ (row : Row) (i : Nat),
      row.read (s₀.afterStores history).frame i =
        match (history.filter (·.Changes s₀.frame row i)).getLast? with
        | some store => .ok store.value
        | none => row.read s₀.frame i := by
  have hcontinues := s₀.continues_afterStores history
  refine ⟨?_, hcontinues.receiver, hcontinues.locals, Activation.storeLaws _,
    s₀.read_afterStores history⟩
  rw [Frame.argumentCount, Frame.argumentCount, hcontinues.arguments, hcontinues.receiver]

/-! A frame with a receiver, one argument and one local variable, and stores of which half are
refused. -/

namespace Mixed

def before : Activation where
  frame := Frame.enter
    (.interpreted "Mix" .void [⟨"x", .primitive .int32⟩] [⟨"y", .primitive .int32⟩] #[] .everyone)
    (some ⟨0⟩) #[.int32 9] 4
  heap := {}

def history : List VariableStore :=
  [⟨.arguments, 1, .int32 10⟩, ⟨.arguments, 0, .object ⟨1⟩⟩, ⟨.arguments, 0, .int32 1⟩,
    ⟨.locals, 0, .int32 5⟩, ⟨.locals, 1, .null⟩, ⟨.arguments, 2, .int32 11⟩]

end Mixed

theorem variables_are_cells_mixed :
    Row.arguments.read (Mixed.before.afterStores Mixed.history).frame 0 = .ok (.object ⟨1⟩) ∧
    Row.arguments.read (Mixed.before.afterStores Mixed.history).frame 1 = .ok (.int32 10) ∧
    Row.locals.read (Mixed.before.afterStores Mixed.history).frame 0 = .ok (.int32 5) ∧
    ∃ e s', VariableStore.make ⟨.arguments, 0, .null⟩ (Mixed.before.afterStores Mixed.history) =
      .error e s' := by
  obtain ⟨-, -, -, hlaws, hread⟩ := variables_are_cells Mixed.before Mixed.history
  refine ⟨(hread _ _).trans rfl, (hread _ _).trans rfl, (hread _ _).trans rfl, ?_⟩
  exact (hlaws.fails_iff ⟨.arguments, 0, .null⟩).mpr (by decide)

end ObjectMachine
