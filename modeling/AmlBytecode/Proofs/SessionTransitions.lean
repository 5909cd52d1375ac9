import AmlBytecode.Session
import AmlBytecode.Proofs.ItemReading

/-! # What a step does to a session

A step fails, reads an item, looks, saves or restores, and `Session.Transition` has one case for
each. `Session.step_transition` says that there is no sixth case, so that what holds of every step
is proved over these cases and not over the twelve kinds of steps. -/

namespace AmlBytecode

/-- The steps that look at a session and do nothing else. -/
def Step.observes : Step → Bool
  | .pc | .remaining | .isEmpty | .peek | .sameAsSaved | .text => true
  | _ => false

/-- The answer is an error. -/
def Answer.failed (a : Answer) : Bool :=
  match a.outcome with
  | .ok _ => false
  | .error _ => true

theorem Answer.failed_iff {a : Answer} : a.failed = true ↔ ∃ e, a.outcome = .error e := by
  unfold failed
  split <;> simp_all

namespace Session

variable {s s' : Session} {st : Step} {o : Except DecodeError Value}

/-! ## One step -/

/-- A step has an outcome in one session and leads to another. -/
inductive Transition (s : Session) : Step → Except DecodeError Value → Session → Prop
  | failed {st : Step} {e : DecodeError} : Transition s st (.error e) s
  | read {i : Item} {c : Cursor} (h : s.cursor.Reads i c) :
      Transition s i.step (.ok i.value) { s with cursor := c }
  | observed {st : Step} {v : Value} (h : st.observes = true) : Transition s st (.ok v) s
  | saved : Transition s .save (.ok .done) { s with saved := s.cursor }
  | restored : Transition s .restore (.ok .done) { s with cursor := s.saved }

/-- A read that leaves the cursor in place if it fails, and that can find nothing but items, makes a
failing or a reading step. -/
theorem consume_transition {α : Type} {toValue : α → Value} {trace : List Record}
    {r : Except DecodeError α × Cursor} (hfails : s.cursor.FailsInPlace r)
    (hok : ∀ a c, r = (.ok a, c) → ∃ i : Item, i.step = st ∧ i.value = toValue a ∧
      s.cursor.Reads i c) :
    Transition s st (s.consume toValue trace r).1.outcome (s.consume toValue trace r).2 := by
  rcases r with ⟨e | a, c⟩
  · obtain rfl : c = s.cursor := hfails e c rfl
    exact .failed
  · obtain ⟨i, rfl, hvalue, hreads⟩ := hok a c rfl
    change Transition s i.step (.ok (toValue a)) { s with cursor := c }
    rw [← hvalue]
    exact .read hreads

theorem step_transition (s : Session) (st : Step) :
    Transition s st (s.step st).1.outcome (s.step st).2 := by
  cases st with
  | pc | remaining | isEmpty | sameAsSaved | text => exact .observed rfl
  | peek =>
    rcases h : s.cursor.peek with e | b
    · rw [step, h]
      exact .failed
    · rw [step, h]
      exact .observed rfl
  | next =>
    exact consume_transition s.cursor.next_failsInPlace fun b _ h => ⟨.byte b, rfl, rfl, h⟩
  | nextOpcode =>
    exact consume_transition s.cursor.nextOpcode_failsInPlace
      fun d _ h => ⟨.opcode d, rfl, rfl, h⟩
  | immediate kind =>
    exact consume_transition (s.cursor.immediate_failsInPlace kind)
      fun n _ h => ⟨.immediate kind n, rfl, rfl, h⟩
  | string =>
    exact consume_transition s.cursor.string_failsInPlace
      fun text _ h => ⟨.string text, rfl, rfl, h⟩
  | save => exact .saved
  | restore => exact .restored

theorem Transition.eq_of_error {e : DecodeError} (H : Transition s st (.error e) s') :
    s' = s := by
  cases H with
  | failed => rfl

theorem Transition.eq_of_observes (H : Transition s st o s') (h : st.observes = true) :
    s' = s := by
  cases H with
  | failed | observed => rfl
  | @read i => cases i <;> cases h
  | saved | restored => cases h

/-- A step that fails changes neither the stream nor the cursor nor what is saved. -/
theorem step_of_failed (h : (s.step st).1.failed = true) : (s.step st).2 = s := by
  obtain ⟨e, he⟩ := Answer.failed_iff.mp h
  have H := s.step_transition st
  rw [he] at H
  exact H.eq_of_error

theorem step_of_observes (h : st.observes = true) : (s.step st).2 = s :=
  (s.step_transition st).eq_of_observes h

/-- Where an item can be read its step answers with it and goes past it. -/
theorem step_of_reads {i : Item} {c : Cursor} (h : s.cursor.Reads i c) :
    (s.step i.step).1.outcome = .ok i.value ∧ (s.step i.step).2 = { s with cursor := c } := by
  cases i with
  | opcode d =>
    change s.cursor.nextOpcode.value = _ at h
    rw [Item.step, step, h]
    exact ⟨rfl, rfl⟩
  | immediate kind n =>
    change s.cursor.immediate kind = _ at h
    rw [Item.step, step, h]
    exact ⟨rfl, rfl⟩
  | string text =>
    change s.cursor.string = _ at h
    rw [Item.step, step, h]
    exact ⟨rfl, rfl⟩
  | byte b =>
    change s.cursor.next = _ at h
    rw [Item.step, step, h]
    exact ⟨rfl, rfl⟩

/-! ## Runs -/

theorem run_cons (s : Session) (st : Step) (steps : List Step) :
    s.run (st :: steps) =
      ((s.step st).1 :: ((s.step st).2.run steps).1, ((s.step st).2.run steps).2) := rfl

theorem run_append (s : Session) (steps steps' : List Step) :
    s.run (steps ++ steps') =
      ((s.run steps).1 ++ ((s.run steps).2.run steps').1, ((s.run steps).2.run steps').2) := by
  induction steps generalizing s with
  | nil => rfl
  | cons st steps ih => rw [List.cons_append, run_cons, run_cons, ih, List.cons_append]

theorem take_run (s : Session) (steps : List Step) (place : Nat) :
    (s.run steps).1.take place = (s.run (steps.take place)).1 := by
  induction steps generalizing s place with
  | nil => rw [List.take_nil, run, List.take_nil]
  | cons st steps ih =>
    cases place with
    | zero => rfl
    | succ place => rw [run_cons, List.take_succ_cons, ih, List.take_succ_cons, run_cons]

/-- The answer at a place of a run is that of the step at this place to the session which the steps
before it have led to. -/
theorem getElem?_run (s : Session) (steps : List Step) (place : Nat) :
    (s.run steps).1[place]? =
      steps[place]?.map fun st => ((s.run (steps.take place)).2.step st).1 := by
  induction steps generalizing s place with
  | nil => rfl
  | cons st steps ih =>
    cases place with
    | zero => rfl
    | succ place => exact ih (s.step st).2 place

theorem run_take_succ (s : Session) {steps : List Step} {place : Nat} {st : Step}
    (h : steps[place]? = some st) :
    (s.run (steps.take (place + 1))).2 = ((s.run (steps.take place)).2.step st).2 := by
  rw [List.take_add_one, h, run_append]
  rfl

end Session

end AmlBytecode
