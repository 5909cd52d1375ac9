import AmlBytecode.Proofs.SessionTransitions

/-! # Streams are read as they are written

Two laws of whole runs. A list of items that is written somewhere in a stream is read back by the
steps of the items in order (`Session.run_of_written`). Conversely, a run that never goes back reads
a list of items whose written form is the stretch of the stream that the cursor has passed
(`Session.run_written`), whichever steps the run takes and whichever of them fail. -/

namespace AmlBytecode

/-! ## Reading what is written -/

namespace Session

theorem run_of_written {items : List Item} (h : ∀ i ∈ items, i.WellFormed) {s : Session}
    (hwritten : items.flatMap Item.bytes <+: s.cursor.remaining) :
    (s.run (items.map Item.step)).1.map (·.outcome) = items.map (fun i => .ok i.value) ∧
      (s.run (items.map Item.step)).2 =
        { s with cursor := s.cursor.advance (items.flatMap Item.bytes).length } := by
  induction items generalizing s with
  | nil => exact ⟨rfl, rfl⟩
  | cons i items ih =>
    obtain ⟨rest, hrest⟩ := hwritten
    rw [List.flatMap_cons, List.append_assoc] at hrest
    have hreads : s.cursor.Reads i (s.cursor.advance i.bytes.length) :=
      Cursor.reads_iff.mpr ⟨h i List.mem_cons_self, ⟨_, hrest⟩, rfl⟩
    obtain ⟨houtcome, hnext⟩ := step_of_reads hreads
    -- the other items are written where this step has left the cursor
    have hrest' : items.flatMap Item.bytes <+: (s.step i.step).2.cursor.remaining := by
      rw [hnext, Cursor.remaining_advance, ← hrest, List.drop_left]
      exact ⟨rest, rfl⟩
    obtain ⟨houtcomes, hend⟩ := ih (fun j hj => h j (List.mem_cons_of_mem _ hj)) hrest'
    rw [List.map_cons, run_cons, List.map_cons, List.map_cons, houtcome, houtcomes, hend, hnext]
    simp only [Cursor.advance_advance, List.flatMap_cons, List.length_append, and_self]

end Session

/-- A list of opcodes of the language is known by its written form. -/
theorem Opcode.eq_of_flatMap_bytes {ops ops' : List Opcode}
    (h : ∀ op ∈ ops, ∃ d ∈ Descriptor.table, d.opcode = op)
    (h' : ∀ op ∈ ops', ∃ d ∈ Descriptor.table, d.opcode = op)
    (heq : ops.flatMap (·.encoding.bytes) = ops'.flatMap (·.encoding.bytes)) : ops = ops' := by
  have hne : ∀ op : Opcode, op.encoding.bytes ≠ [] := by
    intro op hnil
    have hpos := op.encoding.length_pos
    rw [← Encoding.length_bytes, hnil] at hpos
    cases hpos
  induction ops generalizing ops' with
  | nil =>
    cases ops' with
    | nil => rfl
    | cons op' ops' => exact absurd (List.append_eq_nil_iff.mp heq.symm).1 (hne op')
  | cons op ops ih =>
    cases ops' with
    | nil => exact absurd (List.append_eq_nil_iff.mp heq).1 (hne op)
    | cons op' ops' =>
      obtain ⟨d, hd, rfl⟩ := h op List.mem_cons_self
      obtain ⟨d', hd', rfl⟩ := h' op' List.mem_cons_self
      obtain ⟨rfl, hrest⟩ := Descriptor.eq_of_bytes_append hd hd' heq
      rw [ih (fun op hop => h op (List.mem_cons_of_mem _ hop))
        (fun op hop => h' op (List.mem_cons_of_mem _ hop)) hrest]

/-- Well-formed items written anywhere in a stream are read back in order, each by its own step,
and the cursor ends behind them. So opcodes need nothing between them to be told apart. -/
theorem Session.run_reads_back (items : List Item) (h : ∀ i ∈ items, i.WellFormed)
    (before after : List UInt8) (saved : Cursor) :
    let stream := before ++ items.flatMap Item.bytes ++ after
    let r := (Session.mk ⟨stream, before.length⟩ saved).run (items.map Item.step)
    r.1.map (·.outcome) = items.map (fun i => .ok i.value) ∧
      r.2 = ⟨⟨stream, before.length + (items.flatMap Item.bytes).length⟩, saved⟩ ∧
      ∀ ops ops' : List Opcode, (∀ op ∈ ops, ∃ d ∈ Descriptor.table, d.opcode = op) →
        (∀ op ∈ ops', ∃ d ∈ Descriptor.table, d.opcode = op) →
        ops.flatMap (·.encoding.bytes) = ops'.flatMap (·.encoding.bytes) → ops = ops' := by
  intro stream r
  have hremaining : (Cursor.mk stream before.length).remaining =
      items.flatMap Item.bytes ++ after := by
    simp only [Cursor.remaining, stream, List.append_assoc, List.drop_left]
  obtain ⟨houtcomes, hend⟩ := run_of_written (s := ⟨⟨stream, before.length⟩, saved⟩) h
    ⟨after, hremaining.symm⟩
  exact ⟨houtcomes, hend, fun ops ops' => Opcode.eq_of_flatMap_bytes⟩

/-- A device, the prefix by itself, the largest number, an empty string and a text, with a prefix
before them and a terminator behind them. -/
theorem Session.run_reads_back_device :
    let device : Descriptor :=
      ⟨.deviceOp, .device, Descriptor.Table.namedScope, .ofKinds [.nameString, .termList]⟩
    let items : List Item := [.opcode device, .byte 0x5b, .immediate .qWord 0xffffffffffffffff,
      .string "", .string "AB"]
    let stream : List UInt8 := [0x5b, 0x5b, 0x82, 0x5b, 0xff, 0xff, 0xff, 0xff, 0xff, 0xff, 0xff,
      0xff, 0x00, 0x41, 0x42, 0x00, 0x00]
    let s : Session := ⟨⟨stream, 1⟩, .start stream⟩
    let steps : List Step := [.nextOpcode, .next, .immediate .qWord, .string, .string]
    (∀ i ∈ items, i.WellFormed) ∧
      (s.run steps).1.map (·.outcome) = [.ok (.descriptor device), .ok (.byte 0x5b),
        .ok (.number 0xffffffffffffffff), .ok (.text ""), .ok (.text "AB")] ∧
      (s.run steps).2.cursor.pc = 16 := by
  intro device items stream s steps
  have h : ∀ i ∈ items, i.WellFormed := by
    simp only [items, List.forall_mem_cons]
    refine ⟨(by decide : device ∈ Descriptor.table), trivial,
      ⟨8, rfl, LittleEndian.fits_iff_lt_pow.mpr (by decide)⟩, ?_, ?_, by simp⟩
    · exact (by simp : ∀ c ∈ "".toList, 0 < c.toNat ∧ c.toNat < 0x80)
    · exact (by simp : ∀ c ∈ "AB".toList, 0 < c.toNat ∧ c.toNat < 0x80)
  have hstream : [0x5b] ++ items.flatMap Item.bytes ++ [0x00] = stream := by decide
  obtain ⟨houtcomes, hend, -⟩ := run_reads_back items h [0x5b] [0x00] (.start stream)
  rw [hstream] at houtcomes hend
  have hsession : (s.run steps).2 =
    ⟨⟨stream, 1 + (items.flatMap Item.bytes).length⟩, .start stream⟩ := hend
  refine ⟨h, houtcomes, ?_⟩
  rw [hsession]
  decide

/-! ## Writing what was read -/

/-- The item that a step has read if this is its outcome. -/
def Item.ofOutcome? : Step → Except DecodeError Value → Option Item
  | .next, .ok (.byte b) => some (.byte b)
  | .nextOpcode, .ok (.descriptor d) => some (.opcode d)
  | .immediate kind, .ok (.number n) => some (.immediate kind n)
  | .string, .ok (.text text) => some (.string text)
  | _, _ => none

namespace Item

theorem ofOutcome?_value (i : Item) : ofOutcome? i.step (.ok i.value) = some i := by
  cases i <;> rfl

theorem ofOutcome?_error (st : Step) (e : DecodeError) : ofOutcome? st (.error e) = none := by
  cases st <;> rfl

theorem ofOutcome?_of_observes {st : Step} (h : st.observes = true)
    (o : Except DecodeError Value) : ofOutcome? st o = none := by
  cases st <;> first | rfl | cases h

end Item

/-- The items that steps have read, in order, if these are their answers. -/
def Session.itemsRead (steps : List Step) (answers : List Answer) : List Item :=
  (steps.zip answers).filterMap fun (st, a) => Item.ofOutcome? st a.outcome

namespace Session

variable {s s' : Session} {st : Step} {o : Except DecodeError Value}

/-- The item read by a step, if any, is written at the cursor, and the cursor goes past it and no
further. -/
theorem Transition.written (H : Transition s st o s') (hst : st ≠ .restore) :
    let items := (Item.ofOutcome? st o).toList
    (∀ i ∈ items, i.WellFormed) ∧ items.flatMap Item.bytes <+: s.cursor.remaining ∧
      s'.cursor = s.cursor.advance (items.flatMap Item.bytes).length := by
  cases H with
  | failed =>
    rw [Item.ofOutcome?_error]
    exact ⟨by simp, List.nil_prefix, rfl⟩
  | read h =>
    rw [Item.ofOutcome?_value]
    simpa using Cursor.reads_iff.mp h
  | observed h =>
    rw [Item.ofOutcome?_of_observes h]
    exact ⟨by simp, List.nil_prefix, rfl⟩
  | saved => exact ⟨by simp [Item.ofOutcome?], List.nil_prefix, rfl⟩
  | restored => exact absurd rfl hst

theorem itemsRead_cons (st : Step) (steps : List Step) (a : Answer) (answers : List Answer) :
    itemsRead (st :: steps) (a :: answers) =
      (Item.ofOutcome? st a.outcome).toList ++ itemsRead steps answers := by
  simp only [itemsRead, List.zip_cons_cons, List.filterMap_cons]
  cases Item.ofOutcome? st a.outcome <;> rfl

/-- The invariant of a run: what has been read is written from the first cursor up to the last. -/
theorem written_of_run {steps : List Step} (hsteps : .restore ∉ steps) (s : Session) :
    let items := itemsRead steps (s.run steps).1
    (∀ i ∈ items, i.WellFormed) ∧ items.flatMap Item.bytes <+: s.cursor.remaining ∧
      (s.run steps).2.cursor = s.cursor.advance (items.flatMap Item.bytes).length := by
  induction steps generalizing s with
  | nil => exact ⟨by simp [itemsRead], List.nil_prefix, rfl⟩
  | cons st steps ih =>
    obtain ⟨hst, hsteps⟩ := not_or.mp (fun h => hsteps (List.mem_cons.mpr h))
    obtain ⟨hwf, hwritten, hnext⟩ := (s.step_transition st).written (Ne.symm hst)
    obtain ⟨hwf', hwritten', hend⟩ := ih hsteps (s.step st).2
    rw [run_cons]
    simp only [itemsRead_cons, List.flatMap_append, List.length_append]
    refine ⟨?_, ?_, ?_⟩
    · intro i hi
      rcases List.mem_append.mp hi with hi | hi
      · exact hwf i hi
      · exact hwf' i hi
    · -- the later items start right behind what this step has read
      rw [hnext, Cursor.remaining_advance] at hwritten'
      obtain ⟨rest, hrest⟩ := hwritten
      rw [← hrest, List.drop_left] at hwritten'
      rw [← hrest]
      exact (List.prefix_append_right_inj _).mpr hwritten'
    · rw [hend, hnext, Cursor.advance_advance]

/-- A run that never goes back reads well-formed items, and writing them again gives exactly the
bytes from where the cursor was to where it is: none is skipped, read twice or altered. -/
theorem run_written (s : Session) (steps : List Step) (hsteps : .restore ∉ steps) :
    let r := s.run steps
    let items := itemsRead steps r.1
    (∀ i ∈ items, i.WellFormed) ∧ r.2.cursor.bytes = s.cursor.bytes ∧
      r.2.cursor.pc = s.cursor.pc + (items.flatMap Item.bytes).length ∧
      items.flatMap Item.bytes = (s.cursor.bytes.take r.2.cursor.pc).drop s.cursor.pc := by
  intro r items
  obtain ⟨hwf, hwritten, hend⟩ := written_of_run hsteps s
  have hpc : r.2.cursor.pc = s.cursor.pc + (items.flatMap Item.bytes).length := by
    rw [hend]
    rfl
  refine ⟨hwf, by rw [hend]; rfl, hpc, ?_⟩
  rw [hpc, List.drop_take, Nat.add_sub_cancel_left]
  exact List.prefix_iff_eq_take.mp hwritten

/-- Two failures stand between what is read and after it: an opcode that is none, and a string that
is not ASCII. -/
theorem run_written_between_failures :
    let s := Session.start [0x5b, 0x82, 0x0a, 0x02, 0x0d, 0x41, 0x80, 0x00]
    let steps : List Step := [.nextOpcode, .peek, .nextOpcode, .nextOpcode, .save,
      .immediate .byteData, .nextOpcode, .string]
    let items := itemsRead steps (s.run steps).1
    .restore ∉ steps ∧ (∀ i ∈ items, i.WellFormed) ∧
      items.flatMap Item.bytes = [0x5b, 0x82, 0x0a, 0x02, 0x0d] := by
  intro s steps items
  have hsteps : .restore ∉ steps := by decide
  obtain ⟨hwf, -, -, hwritten⟩ := run_written s steps hsteps
  have hend : (s.run steps).2.cursor.pc = 5 := by decide
  rw [hend] at hwritten
  exact ⟨hsteps, hwf, hwritten⟩

end Session

end AmlBytecode
