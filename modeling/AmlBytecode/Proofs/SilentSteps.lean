import AmlBytecode.Proofs.SessionTransitions

/-! # Steps that leave no trace

A step that fails leaves a session as it was, because no read has moved the cursor when it fails
(`Cursor.FailsInPlace`), and so does a step that only looks; a run comes to the same without them.
`Session.audible` takes out of a run all steps that fail and any of those that look;
`Session.run_audible` says that the steps left over give the answers that they gave before. -/

namespace AmlBytecode

namespace Session

/-- A step with its answer that a run may do without: one that failed, or one that looks and whose
place is chosen. -/
def silent (chosen : Nat → Bool) : (Step × Answer) × Nat → Bool
  | ((st, a), place) => a.failed || (st.observes && chosen place)

/-- Steps with their answers, without those that failed and without those that look and whose
place in the run is chosen. -/
def audible (chosen : Nat → Bool) (steps : List Step) (answers : List Answer) :
    List (Step × Answer) :=
  ((steps.zip answers).zipIdx.filter fun entry => !silent chosen entry).map (·.1)

theorem audible_cons (chosen : Nat → Bool) (st : Step) (steps : List Step) (a : Answer)
    (answers : List Answer) :
    audible chosen (st :: steps) (a :: answers) =
      (if silent chosen ((st, a), 0) then [] else [(st, a)]) ++
        audible (fun place => chosen (place + 1)) steps answers := by
  -- the places of the later steps count one more here than in their own run
  have hshift : ((steps.zip answers).zipIdx 1).filter (fun entry => !silent chosen entry) =
      ((steps.zip answers).zipIdx.filter fun entry =>
        !silent (fun place => chosen (place + 1)) entry).map fun (p, place) => (p, place + 1) := by
    rw [List.zipIdx_succ, List.filter_map]
    rfl
  unfold audible
  rw [List.zip_cons_cons, List.zipIdx_cons, List.filter_cons, Nat.zero_add, hshift]
  cases silent chosen ((st, a), 0) <;> simp [Function.comp_def]

theorem step_of_silent {s : Session} {st : Step} {chosen : Nat → Bool} {place : Nat}
    (h : silent chosen ((st, (s.step st).1), place) = true) : (s.step st).2 = s := by
  rcases Bool.or_eq_true_iff.mp h with hfailed | hobserves
  · exact step_of_failed hfailed
  · exact step_of_observes (Bool.and_eq_true_iff.mp hobserves).1

theorem run_audible (s : Session) (steps : List Step) (chosen : Nat → Bool) :
    s.run ((audible chosen steps (s.run steps).1).map (·.1)) =
      ((audible chosen steps (s.run steps).1).map (·.2), (s.run steps).2) := by
  induction steps generalizing s chosen with
  | nil => rfl
  | cons st steps ih =>
    have hrest := ih (s.step st).2 fun place => chosen (place + 1)
    rw [run_cons, audible_cons]
    by_cases h : silent chosen ((st, (s.step st).1), 0) = true
    · rw [if_pos h, List.nil_append]
      rwa [step_of_silent h] at hrest ⊢
    · rw [if_neg h, List.singleton_append, List.map_cons, List.map_cons, run_cons, hrest]

/-- Failed and observing steps leave no trace in a run. No read has moved the cursor when it fails. So a
step that fails leaves the stream, the cursor and what is saved as they were, and without all steps that
fail and any choice of those that look, the other steps give the same answers and lead to the same
session. -/
theorem run_without_silent (s : Session) (steps : List Step) :
    (∀ (c c' : Cursor) (e : DecodeError),
      (c.next = (.error e, c') → c' = c) ∧
      (c.nextOpcode.value = (.error e, c') → c' = c) ∧
      (∀ kind, c.immediate kind = (.error e, c') → c' = c) ∧
      (c.string = (.error e, c') → c' = c)) ∧
    (∀ place a, (s.run steps).1[place]? = some a → a.failed = true →
      (s.run (steps.take (place + 1))).2 = (s.run (steps.take place)).2) ∧
    ∀ chosen : Nat → Bool,
      let others := audible chosen steps (s.run steps).1
      s.run (others.map (·.1)) = (others.map (·.2), (s.run steps).2) := by
  refine ⟨fun c c' e => ?_, ?_, s.run_audible steps⟩
  · exact ⟨c.next_failsInPlace e c', c.nextOpcode_failsInPlace e c',
      fun kind => c.immediate_failsInPlace kind e c', c.string_failsInPlace e c'⟩
  · intro place a ha hfailed
    rw [getElem?_run] at ha
    obtain ⟨st, hst, rfl⟩ := Option.map_eq_some_iff.mp ha
    rw [run_take_succ s hst]
    exact step_of_failed hfailed

/-- A string that is not ASCII and a number longer than the rest fail between a save and a restore, and
behind them a kind that is no number and an opcode that is cut off behind the prefix. -/
theorem run_without_silent_between_saves :
    let s := start [0x5b, 0x82, 0x0d, 0x41, 0x80, 0x00, 0x5b]
    let steps : List Step := [.nextOpcode, .save, .nextOpcode, .string, .peek, .immediate .qWord,
      .restore, .immediate .termObj, .immediate .dWord, .nextOpcode, .next]
    let others : List Step := [.nextOpcode, .save, .nextOpcode, .restore, .immediate .dWord, .next]
    (audible (fun _ => true) steps (s.run steps).1).map (·.1) = others ∧
      (s.run others).2 = (s.run steps).2 := by
  intro s steps others
  have hothers : (audible (fun _ => true) steps (s.run steps).1).map (·.1) = others := by decide
  have hrun : s.run ((audible (fun _ => true) steps (s.run steps).1).map (·.1)) = _ :=
    (run_without_silent s steps).2.2 fun _ => true
  rw [hothers] at hrun
  exact ⟨hothers, by rw [hrun]⟩

end Session

end AmlBytecode
