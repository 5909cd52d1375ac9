import AmlBytecode.Proofs.CheckedReads
import AmlBytecode.Proofs.SessionTransitions

/-! # Sessions stay in their stream

`Session.Within` is the invariant of a run: both cursors of a session are over the stream that it
started with and stand in it or at its end. So no access of any step can have a fault
(`Session.checkedRun_eq`). A step that reads moves the cursor forward and the others leave it where
it is, `restore` apart, and this makes the comparison with what is saved a test for progress
(`Session.run_stays_within`). -/

namespace AmlBytecode

/-- The steps that go past what they read. -/
def Step.consumes : Step → Bool
  | .next | .nextOpcode | .immediate _ | .string => true
  | _ => false

theorem Step.observes_of_consumes {st : Step} (h : st.consumes = true) : st.observes = false := by
  cases st <;> first | rfl | cases h

theorem Item.consumes_step (i : Item) : i.step.consumes = true := by cases i <;> rfl

theorem Cursor.Reads.follows {c c' : Cursor} {i : Item} (h : c.Reads i c') : c'.Follows c := by
  obtain ⟨hwf, -, rfl⟩ := reads_iff.mp h
  exact follows_advance (List.length_pos_iff.mpr (Item.bytes_ne_nil hwf))

theorem Cursor.remaining_eq_nil_iff_peek {c : Cursor} :
    c.remaining = [] ↔ ∃ e, c.peek = .error e := by
  refine ⟨fun h => ⟨_, peek_of_nil h⟩, fun h => ?_⟩
  obtain ⟨e, he⟩ := h
  rcases hrest : c.remaining with _ | ⟨b, rest⟩
  · rfl
  · cases he.symm.trans (peek_of_cons hrest)

namespace Session

variable {s s' : Session} {st : Step} {v : Value} {o : Except DecodeError Value}
variable {stream : List UInt8}

/-! ## The invariant -/

/-- Both cursors are over the given stream, and stand in it or at its end. -/
structure Within (s : Session) (stream : List UInt8) : Prop where
  cursor : s.cursor.Within stream
  saved : s.saved.Within stream

theorem Within.start (stream : List UInt8) : (Session.start stream).Within stream :=
  ⟨.start stream, .start stream⟩

theorem Transition.within (H : Transition s st o s') (h : s.Within stream) :
    s'.Within stream := by
  cases H with
  | failed | observed => exact h
  | read hreads => exact ⟨hreads.within h.cursor, h.saved⟩
  | saved => exact ⟨h.cursor, h.cursor⟩
  | restored => exact ⟨h.saved, h.saved⟩

theorem Within.step (h : s.Within stream) (st : Step) : (s.step st).2.Within stream :=
  (s.step_transition st).within h

theorem Within.run (h : s.Within stream) (steps : List Step) : (s.run steps).2.Within stream := by
  induction steps generalizing s with
  | nil => exact h
  | cons st steps ih => exact ih (h.step st)

/-! ## No access has a fault -/

/-- A step with every access checked. The steps that are not named here access nothing. -/
def checkedStep (s : Session) : Step → Checked (Answer × Session)
  | .remaining => (fun bs => s.observe (.bytes bs)) <$> s.cursor.checkedRemaining
  | .next => s.consume .byte [] <$> s.cursor.checkedNext
  | .nextOpcode => (fun r => s.consume .descriptor r.trace r.value) <$> s.cursor.checkedNextOpcode
  | .immediate kind => s.consume .number [] <$> s.cursor.checkedImmediate kind
  | .string => s.consume .text [] <$> s.cursor.checkedString
  | st => .ok (s.step st)

def checkedRun (s : Session) : List Step → Checked (List Answer × Session)
  | [] => .ok ([], s)
  | step :: steps => do
    let first ← s.checkedStep step
    let rest ← first.2.checkedRun steps
    return (first.1 :: rest.1, rest.2)

theorem checkedStep_eq (h : s.Within stream) (hword : stream.length < UInt64.size) (st : Step) :
    s.checkedStep st = .ok (s.step st) := by
  cases st with
  | remaining => rw [checkedStep, Cursor.checkedRemaining_eq h.cursor]; rfl
  | next => rw [checkedStep, Cursor.checkedNext_eq h.cursor hword]; rfl
  | nextOpcode => rw [checkedStep, Cursor.checkedNextOpcode_eq h.cursor hword]; rfl
  | immediate kind => rw [checkedStep, Cursor.checkedImmediate_eq h.cursor hword]; rfl
  | string => rw [checkedStep, Cursor.checkedString_eq h.cursor hword]; rfl
  | pc | isEmpty | peek | save | restore | sameAsSaved | text => rfl

theorem checkedRun_eq (h : s.Within stream) (hword : stream.length < UInt64.size)
    (steps : List Step) : s.checkedRun steps = .ok (s.run steps) := by
  induction steps generalizing s with
  | nil => rfl
  | cons st steps ih =>
    rw [checkedRun, checkedStep_eq h hword, Checked.ok_bind, ih (h.step st)]
    rfl

/-! ## Progress -/

theorem Transition.pc_lt (H : Transition s st (.ok v) s') (hst : st.consumes = true) :
    s.cursor.pc < s'.cursor.pc := by
  cases H with
  | read hreads => exact hreads.follows.2
  | observed hobserves => cases hobserves.symm.trans (Step.observes_of_consumes hst)
  | saved | restored => cases hst

theorem Transition.cursor_eq (H : Transition s st o s') (hst : st ≠ .restore)
    (h : st.consumes = true → ∃ e, o = .error e) : s'.cursor = s.cursor := by
  cases H with
  | failed | observed | saved => rfl
  | @read i =>
    obtain ⟨e, he⟩ := h i.consumes_step
    cases he
  | restored => exact absurd rfl hst

theorem Transition.saved_eq (H : Transition s st o s') (hst : st ≠ .save) :
    s'.saved = s.saved := by
  cases H with
  | failed | observed | read | restored => rfl
  | saved => exact absurd rfl hst

/-- A step with its answer that has read something. -/
def consumed (entry : Step × Answer) : Bool := entry.1.consumes && !entry.2.failed

theorem step_pc_lt (h : consumed (st, (s.step st).1) = true) :
    s.cursor.pc < (s.step st).2.cursor.pc := by
  obtain ⟨hconsumes, hok⟩ := Bool.and_eq_true_iff.mp h
  have H := s.step_transition st
  rcases houtcome : (s.step st).1.outcome with e | v
  · simp [Answer.failed, houtcome] at hok
  · rw [houtcome] at H
    exact H.pc_lt hconsumes

theorem step_cursor_eq (hst : st ≠ .restore) (h : consumed (st, (s.step st).1) = false) :
    (s.step st).2.cursor = s.cursor := by
  refine (s.step_transition st).cursor_eq hst fun hconsumes => Answer.failed_iff.mp ?_
  simpa [consumed, hconsumes] using h

/-- A run that does not save keeps what is saved. -/
theorem run_saved_eq {steps : List Step} (hsave : .save ∉ steps) (s : Session) :
    (s.run steps).2.saved = s.saved := by
  induction steps generalizing s with
  | nil => rfl
  | cons st steps ih =>
    obtain ⟨hst, hsave⟩ := not_or.mp (fun h => hsave (List.mem_cons.mpr h))
    rw [run_cons]
    exact (ih hsave _).trans ((s.step_transition st).saved_eq (Ne.symm hst))

/-- A run that does not restore never goes back, and it is where it was only if it has read
nothing. -/
theorem run_progress {steps : List Step} (hrestore : .restore ∉ steps) (s : Session) :
    s.cursor.pc ≤ (s.run steps).2.cursor.pc ∧
      ((s.run steps).2.cursor = s.cursor ↔
        ∀ entry ∈ steps.zip (s.run steps).1, consumed entry = false) := by
  induction steps generalizing s with
  | nil => simp [run]
  | cons st steps ih =>
    obtain ⟨hst, hrestore⟩ := not_or.mp (fun h => hrestore (List.mem_cons.mpr h))
    obtain ⟨hle, hiff⟩ := ih hrestore (s.step st).2
    rw [run_cons, List.zip_cons_cons, List.forall_mem_cons]
    rcases h : consumed (st, (s.step st).1) with _ | _
    · rw [step_cursor_eq (Ne.symm hst) h] at hle hiff
      exact ⟨hle, by rw [hiff, eq_self, true_and]⟩
    · have hlt : s.cursor.pc < ((s.step st).2.run steps).2.cursor.pc :=
        Nat.lt_of_lt_of_le (step_pc_lt h) hle
      refine ⟨Nat.le_of_lt hlt, fun heq => ?_, fun hnone => by cases hnone.1⟩
      exact absurd (congrArg Cursor.pc heq) (Nat.ne_of_gt hlt)

/-- After a save, and with no save or restore since, the cursor is the saved one only if nothing has
been read. -/
theorem sameAsSaved_of_run (s : Session) {between : List Step} (hsave : .save ∉ between)
    (hrestore : .restore ∉ between) :
    let later := (s.step .save).2.run between
    ∃ b, (later.2.step .sameAsSaved).1.outcome = .ok (.truth b) ∧
      (b = true ↔ ∀ entry ∈ between.zip later.1, consumed entry = false) := by
  intro later
  refine ⟨_, rfl, ?_⟩
  have hsaved : later.2.saved = s.cursor := run_saved_eq hsave _
  rw [decide_eq_true_eq, hsaved]
  exact (run_progress hrestore (s.step .save).2).2

/-- In every state that a run can reach, both cursors are over the stream that the run started with
and stand in it or at its end, and no access on the way has had a fault. What remains is the stream
behind the cursor, reads move forward and nothing else does but `restore`, and so the comparison with
a saved cursor tells whether anything has been read since. -/
theorem run_stays_within (stream : List UInt8) (steps : List Step) :
    let r := (start stream).run steps
    let s := r.2
    (stream.length < UInt64.size → (start stream).checkedRun steps = .ok r) ∧
    s.cursor.bytes = stream ∧ s.saved.bytes = stream ∧
    s.cursor.pc ≤ stream.length ∧ s.saved.pc ≤ stream.length ∧
    (∃ passed, passed.length = s.cursor.pc ∧ passed ++ s.cursor.remaining = stream) ∧
    (s.cursor.isEmpty = true ↔ s.cursor.remaining = []) ∧
    (s.cursor.remaining = [] ↔ ∃ e, s.cursor.peek = .error e) ∧
    (∀ st, st.consumes = true → (s.step st).1.failed = false →
      s.cursor.pc < (s.step st).2.cursor.pc) ∧
    (∀ st, st ≠ .restore → (st.consumes = true → (s.step st).1.failed = true) →
      (s.step st).2.cursor = s.cursor) ∧
    ∀ between, .save ∉ between → .restore ∉ between →
      let later := (s.step .save).2.run between
      ∃ b, (later.2.step .sameAsSaved).1.outcome = .ok (.truth b) ∧
        (b = true ↔ ∀ entry ∈ between.zip later.1,
          entry.1.consumes = true → entry.2.failed = true) := by
  intro r s
  have H : s.Within stream := (Within.start stream).run steps
  refine ⟨fun hword => checkedRun_eq (.start stream) hword steps, H.cursor.bytes_eq,
    H.saved.bytes_eq, H.cursor.pc_le, H.saved.pc_le, ?_, Cursor.isEmpty_iff_remaining,
    Cursor.remaining_eq_nil_iff_peek, ?_, ?_, ?_⟩
  · refine ⟨stream.take s.cursor.pc, List.length_take_of_le H.cursor.pc_le, ?_⟩
    rw [Cursor.remaining, H.cursor.bytes_eq, List.take_append_drop]
  · intro st hconsumes hok
    exact step_pc_lt (by simp [consumed, hconsumes, hok])
  · intro st hst h
    apply step_cursor_eq hst
    rcases hconsumes : st.consumes with _ | _ <;> simp_all [consumed]
  · intro between hsave hrestore
    simpa [consumed] using s.sameAsSaved_of_run hsave hrestore

/-- An empty string and an opcode of two bytes up to the end of the stream: the string that is not
there leaves the cursor where it was saved, the opcode moves it. -/
theorem run_stays_within_to_end :
    let stream : List UInt8 := [0x0d, 0x00, 0x5b, 0x82]
    let steps : List Step := [.nextOpcode, .string, .save, .string, .nextOpcode, .next]
    let s := ((start stream).run [.nextOpcode, .string]).2
    let between : List Step := [.string, .nextOpcode]
    stream.length < UInt64.size ∧ .save ∉ between ∧ .restore ∉ between ∧
      (start stream).checkedRun steps = .ok ((start stream).run steps) ∧
      ((start stream).run steps).2.cursor.pc = 4 ∧
      (((s.step .save).2.run between).2.step .sameAsSaved).1.outcome = .ok (.truth false) := by
  intro stream steps s between
  have hword : stream.length < UInt64.size := by decide
  have hsave : .save ∉ between := by decide
  have hrestore : .restore ∉ between := by decide
  have hchecked := (run_stays_within stream steps).1 hword
  obtain ⟨-, -, -, -, -, -, -, -, -, -, hcompare⟩ := run_stays_within stream [.nextOpcode, .string]
  obtain ⟨b, houtcome, hb⟩ := hcompare between hsave hrestore
  have hread : ¬ ∀ entry ∈ between.zip ((s.step .save).2.run between).1,
      entry.1.consumes = true → entry.2.failed = true := by decide
  have hfalse : b = false := Bool.eq_false_iff.mpr fun htrue => hread (hb.mp htrue)
  have hs : ((start stream).run [.nextOpcode, .string]).2 = s := rfl
  rw [hfalse, hs] at houtcome
  have hpc : ((start stream).run steps).2.cursor.pc = 4 := by decide
  exact ⟨hword, hsave, hrestore, hchecked, hpc, houtcome⟩

end Session

end AmlBytecode
