import AmlBytecode.Proofs.SessionBounds
import AmlBytecode.Proofs.StreamRoundTrip
import AmlBytecode.Proofs.SweepConcatenation

/-! # Sessions inside longer streams

A step inside a longer stream answers as it did, with offsets counted from the start of the longer
stream, unless its answer is about the end of the stream (`Session.step_embed`). Two laws of whole
runs come of it. Bytes behind the stream change no answer before the first that ran into the end
(`Session.run_append_stream`), and bytes before the cursor change nothing but offsets
(`Session.run_behind`). -/

namespace AmlBytecode

/-- The steps whose answers tell where the stream ends. -/
def Step.tellsEnd : Step → Bool
  | .remaining | .isEmpty | .text => true
  | _ => false

/-- The value with an offset in it `n` bytes further on. -/
def Value.shift (n : Nat) : Value → Value
  | .offset pc => .offset (pc + n)
  | v => v

theorem Value.shift_zero (v : Value) : v.shift 0 = v := by cases v <;> rfl

namespace Answer

/-- The answer with all offsets in it `n` bytes further on. -/
def shift (n : Nat) (a : Answer) : Answer :=
  ⟨a.outcome.map (Value.shift n), a.pc + n, a.trace.map (Record.shift n)⟩

/-- The step ran into the end of the stream. -/
def truncated (a : Answer) : Bool :=
  match a.outcome with
  | .ok _ => false
  | .error e => e.isTruncation

/-- The answer to a step without the printed form of a cursor, which shows the whole stream. -/
def unprinted (st : Step) (a : Answer) : Answer :=
  if st = .text then { a with outcome := .ok .done } else a

theorem shift_zero (a : Answer) : a.shift 0 = a := by
  have houtcome : a.outcome.map (Value.shift 0) = a.outcome := by
    rw [funext Value.shift_zero]
    rcases a.outcome with e | v <;> rfl
  rw [shift, houtcome, funext Record.shift_zero, List.map_id', Nat.add_zero]

end Answer

namespace Session

variable {s : Session} {st : Step} {stream before after : List UInt8}

/-- The session with both cursors at their places in a longer stream. -/
def embed (before after : List UInt8) (s : Session) : Session :=
  ⟨s.cursor.embed before after, s.saved.embed before after⟩

/-! ## One step -/

/-- A read whose values have no offsets in them leads from the one session to the other. -/
theorem consume_embed {α : Type} {toValue : α → Value} (htoValue : ∀ a n, (toValue a).shift n = toValue a)
    (s : Session) (trace : List Record) (r : Except DecodeError α × Cursor) :
    (s.embed before after).consume toValue (trace.map (Record.shift before.length))
        (Prod.map id (Cursor.embed before after) r) =
      ((s.consume toValue trace r).1.shift before.length,
        (s.consume toValue trace r).2.embed before after) := by
  rcases r with ⟨e | a, c⟩
  · rfl
  · have hvalue : ((Except.ok a).map toValue : Except DecodeError Value).map
        (Value.shift before.length) = (Except.ok a).map toValue :=
      congrArg Except.ok (htoValue a _)
    rw [consume, consume, Answer.shift, hvalue]
    rfl

theorem step_embed (H : s.Within stream) (hst : st ≠ .text)
    (hend : after = [] ∨ st.tellsEnd = false) (h : Settled after (Refusal st s.cursor.remaining)) :
    (s.embed before after).step st =
      ((s.step st).1.shift before.length, (s.step st).2.embed before after) := by
  have hc : s.cursor.Within stream := H.cursor
  cases st with
  | pc | save | restore => rfl
  | text => exact absurd rfl hst
  | remaining =>
    -- this step and the next see that there are bytes behind, so they are asked where there are none
    obtain rfl : after = [] := hend.resolve_right (by decide)
    rw [step, embed, Cursor.remaining_embed_nil hc]
    rfl
  | isEmpty =>
    obtain rfl : after = [] := hend.resolve_right (by decide)
    rw [step, embed, Cursor.isEmpty_embed_nil hc]
    rfl
  | sameAsSaved =>
    have hsame : ((s.embed before after).cursor = (s.embed before after).saved) =
        (s.cursor = s.saved) := propext Cursor.embed_inj
    simp only [step, hsame]
    rfl
  | peek =>
    have hpeek : (s.embed before after).cursor.peek = s.cursor.peek := Cursor.peek_embed hc h
    rw [step, step, hpeek]
    rcases s.cursor.peek with e | b <;> rfl
  | next =>
    rw [step, embed, Cursor.next_embed hc h]
    exact consume_embed (fun _ _ => rfl) s [] _
  | nextOpcode =>
    rw [step, embed, Cursor.nextOpcode_embed hc h]
    exact consume_embed (fun _ _ => rfl) s _ _
  | immediate kind =>
    rw [step, embed, Cursor.immediate_embed hc h]
    exact consume_embed (fun _ _ => rfl) s [] _
  | string =>
    rw [step, embed, Cursor.string_embed hc h]
    exact consume_embed (fun _ _ => rfl) s [] _

/-! ## Bytes behind the stream -/

theorem settled_of_not_truncated (h : (s.step st).1.truncated = false) :
    Settled after (Refusal st s.cursor.remaining) := by
  refine .inr fun e he => ?_
  have houtcome := outcome_eq_error_iff.mpr he
  rwa [Answer.truncated, houtcome] at h

/-- Bytes behind the stream do not change an answer that is not about the end of the stream. -/
theorem step_append (H : s.Within stream) (hst : st.tellsEnd = false)
    (h : (s.step st).1.truncated = false) (more : List UInt8) :
    (s.embed [] more).step st = ((s.step st).1, (s.step st).2.embed [] more) := by
  have hne : st ≠ .text := by
    rintro rfl
    cases hst
  rw [step_embed H hne (.inr hst) (settled_of_not_truncated h), List.length_nil, Answer.shift_zero]

theorem run_embed_takeWhile (H : s.Within stream) {steps : List Step}
    (h : ∀ st ∈ steps, st.tellsEnd = false) (more : List UInt8) :
    (s.run steps).1.takeWhile (fun a => !a.truncated) <+: ((s.embed [] more).run steps).1 := by
  induction steps generalizing s with
  | nil => exact List.nil_prefix
  | cons st steps ih =>
    obtain ⟨hst, hsteps⟩ := List.forall_mem_cons.mp h
    rw [run_cons, run_cons, List.takeWhile_cons]
    -- the sessions correspond until a step is truncated, and of the steps after it nothing is said
    rcases htruncated : (s.step st).1.truncated with _ | _
    · rw [step_append H hst htruncated]
      exact List.cons_prefix_cons.mpr ⟨rfl, ih (H.step st) hsteps⟩
    · exact List.nil_prefix

/-- Answers are stable when the stream grows: up to the first step that runs into the end of the
stream a run gives the same answers when more bytes come behind. Wherever the cursor stands, a step
that finds something, or fails for another reason, does the same. -/
theorem run_append_stream (stream more : List UInt8) (steps : List Step)
    (h : ∀ st ∈ steps, st.tellsEnd = false) :
    ((start stream).run steps).1.takeWhile (fun a => !a.truncated) <+:
        ((start (stream ++ more)).run steps).1 ∧
      ∀ pc saved st, pc ≤ stream.length → saved ≤ stream.length → st.tellsEnd = false →
        let a := ((Session.mk ⟨stream, pc⟩ ⟨stream, saved⟩).step st).1
        a.truncated = false →
          ((Session.mk ⟨stream ++ more, pc⟩ ⟨stream ++ more, saved⟩).step st).1 = a := by
  refine ⟨run_embed_takeWhile (.start stream) h more, ?_⟩
  intro pc saved st hpc hsaved hst a ha
  have H : (Session.mk ⟨stream, pc⟩ ⟨stream, saved⟩).Within stream := ⟨⟨rfl, hpc⟩, ⟨rfl, hsaved⟩⟩
  have hstep : (Session.mk ⟨stream ++ more, pc⟩ ⟨stream ++ more, saved⟩).step st = _ :=
    step_append H hst ha more
  rw [hstep]

/-- The prefix at the end of the stream becomes an opcode when a byte comes behind it; what was found
before it, and what was refused, stays. -/
theorem run_append_stream_device :
    let stream : List UInt8 := [0x0d, 0x41, 0x00, 0x02, 0x5b]
    let steps : List Step := [.nextOpcode, .string, .nextOpcode, .next, .nextOpcode]
    let found : List (Except DecodeError Value) :=
      [.ok (.descriptor ⟨.stringPrefix, .string, Descriptor.Table.constant, .ofKinds [.string]⟩),
        .ok (.text "A"), .error (.illegalOpcode 0x02), .ok (.byte 0x02)]
    (∀ st ∈ steps, st.tellsEnd = false) ∧
      found <+: ((start (stream ++ [0x82])).run steps).1.map (·.outcome) ∧
      ((Session.mk ⟨stream ++ [0x82], 3⟩ ⟨stream ++ [0x82], 5⟩).step .nextOpcode).1.outcome =
        .error (.illegalOpcode 0x02) := by
  intro stream steps found
  have hsteps : ∀ st ∈ steps, st.tellsEnd = false := by decide
  obtain ⟨hanswers, hstable⟩ := run_append_stream stream [0x82] steps hsteps
  have hfound : (((start stream).run steps).1.takeWhile (fun a => !a.truncated)).map (·.outcome) =
      found := by decide
  have hillegal := hstable 3 5 .nextOpcode (by decide) (by decide) rfl (by decide)
  refine ⟨hsteps, hfound ▸ hanswers.map _, ?_⟩
  rw [hillegal]
  decide

/-! ## Bytes before the cursor -/

theorem step_embed_unprinted (H : s.Within stream) (st : Step) (before : List UInt8) :
    ((s.embed before []).step st).1.unprinted st =
        ((s.step st).1.unprinted st).shift before.length ∧
      ((s.embed before []).step st).2 = (s.step st).2.embed before [] := by
  by_cases hst : st = .text
  · subst hst
    exact ⟨rfl, rfl⟩
  · rw [step_embed H hst (.inl rfl) (.inl rfl), Answer.unprinted, Answer.unprinted, if_neg hst,
      if_neg hst]
    exact ⟨rfl, rfl⟩

theorem run_embed_unprinted (H : s.Within stream) (steps : List Step) (before : List UInt8) :
    List.zipWith Answer.unprinted steps ((s.embed before []).run steps).1 =
      (List.zipWith Answer.unprinted steps (s.run steps).1).map (Answer.shift before.length) := by
  induction steps generalizing s with
  | nil => rfl
  | cons st steps ih =>
    obtain ⟨hanswer, hnext⟩ := step_embed_unprinted H st before
    rw [run_cons, run_cons, List.zipWith_cons_cons, List.zipWith_cons_cons, List.map_cons, hanswer,
      hnext, ih (H.step st)]

/-- Stepping over all bytes before a stream, and saving, leads to where a session over the stream
starts. -/
theorem run_next_save (before stream : List UInt8) :
    ((start (before ++ stream)).run (List.replicate before.length .next ++ [.save])).2 =
      (start stream).embed before [] := by
  let items : List Item := before.map .byte
  have hsteps : List.replicate before.length .next = items.map Item.step := by
    rw [List.map_map]
    exact List.map_const'.symm
  have hbytes : items.flatMap Item.bytes = before := by
    simp [items, List.flatMap_map, Item.bytes]
  have hwf : ∀ i ∈ items, i.WellFormed := by simp [items, Item.WellFormed]
  have hwritten : items.flatMap Item.bytes <+: (start (before ++ stream)).cursor.remaining :=
    hbytes ▸ List.prefix_append before stream
  rw [run_append, hsteps, (run_of_written hwf hwritten).2, hbytes]
  simp [run, step, start, embed, Cursor.embed, Cursor.start, Cursor.advance]

/-- Bytes before the cursor are irrelevant: a session that has stepped over them, and remembers where
it is, answers as one over the rest of the stream does, with all offsets further on, the printed forms
of the cursor aside; and a sweep from there leaves the records of a sweep over the rest. So which bytes
there were before the cursor does not show, but for their number. -/
theorem run_behind (stream : List UInt8) (steps : List Step) :
    let entered (before : List UInt8) : Session :=
      ((start (before ++ stream)).run (List.replicate before.length .next ++ [.save])).2
    let answers (s : Session) : List Answer := List.zipWith Answer.unprinted steps (s.run steps).1
    (∀ before, (entered before).cursor = ⟨before ++ stream, before.length⟩ ∧
      (entered before).saved = (entered before).cursor) ∧
    (∀ before, answers (entered before) =
      (answers (start stream)).map (Answer.shift before.length)) ∧
    (∀ before, (entered before).cursor.records =
      (sweep stream).map (Record.shift before.length)) ∧
    ∀ before before', before.length = before'.length →
      answers (entered before) = answers (entered before') ∧
        (entered before).cursor.records = (entered before').cursor.records := by
  intro entered answers
  have hentered : ∀ before, entered before = (start stream).embed before [] :=
    fun before => run_next_save before stream
  have hanswers : ∀ before, answers (entered before) =
      (answers (start stream)).map (Answer.shift before.length) := by
    intro before
    rw [hentered]
    exact run_embed_unprinted (.start stream) steps before
  have hrecords : ∀ before, (entered before).cursor.records =
      (sweep stream).map (Record.shift before.length) := by
    intro before
    rw [hentered]
    exact Cursor.records_embed_nil (.start stream) before
  refine ⟨?_, hanswers, hrecords, ?_⟩
  · intro before
    rw [hentered]
    exact ⟨by simp [start, embed, Cursor.embed, Cursor.start], rfl⟩
  · intro before before' hlength
    rw [hanswers, hanswers, hrecords, hrecords, hlength]
    exact ⟨rfl, rfl⟩

end Session

end AmlBytecode
