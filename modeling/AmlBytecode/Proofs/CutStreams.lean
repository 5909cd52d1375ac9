import AmlBytecode.Proofs.Refusals
import AmlBytecode.Proofs.StreamRoundTrip

/-! # Streams that are cut short

A stream of items that is cut anywhere is read back up to the item at the cut, and the step of this
item fails where the item starts (`Session.run_cut_short`). No step takes the first part of an item
for the item or for a shorter one: at every cut inside an item there is a reason to fail, and it is
truncation (`Item.WellFormed.refusal_of_take`). -/

namespace AmlBytecode

namespace Item

/-- A cut inside items that are written one behind the other falls into one of them. -/
theorem exists_at_cut {items : List Item} {cut : Nat} (h : cut < (items.flatMap bytes).length) :
    ∃ before i after, items = before ++ i :: after ∧ (before.flatMap bytes).length ≤ cut ∧
      cut < (before.flatMap bytes).length + i.bytes.length := by
  induction items generalizing cut with
  | nil => cases h
  | cons i items ih =>
    by_cases hcut : cut < i.bytes.length
    · exact ⟨[], i, items, rfl, Nat.zero_le _, by simpa using hcut⟩
    · rw [List.flatMap_cons, List.length_append] at h
      have hrest : cut - i.bytes.length < (items.flatMap bytes).length := by omega
      obtain ⟨before, j, after, rfl, hle, hlt⟩ := ih hrest
      refine ⟨i :: before, j, after, rfl, ?_, ?_⟩
      · rw [List.flatMap_cons, List.length_append]
        omega
      · rw [List.flatMap_cons, List.length_append]
        omega

/-- Where only the first part of an item is left its step fails, because of the prefix if this part is
the prefix of an opcode, and else because of the end of the stream. -/
theorem WellFormed.refusal_of_take {i : Item} (h : i.WellFormed) {n : Nat} (hn : n < i.bytes.length) :
    ∃ e, Refusal i.step (i.bytes.take n) e ∧
      (e = .truncatedExtendedOpcode ↔
        ∃ d, i = .opcode d ∧ d.opcode.encoding.space = .extended ∧ n = 1) ∧
      (e ≠ .truncatedExtendedOpcode → e = .endOfStream) := by
  cases i with
  | opcode d =>
    rcases henc : d.opcode.encoding with ⟨_ | _, b⟩
    · -- an opcode of one byte is there as a whole or not at all
      have hbytes : (opcode d).bytes = [b] := by rw [bytes, henc]; rfl
      obtain rfl : n = 0 := by simpa [hbytes] using hn
      exact ⟨_, .noOpcode, by simp, fun _ => rfl⟩
    · have hbytes : (opcode d).bytes = [Encoding.extendedPrefix, b] := by rw [bytes, henc]; rfl
      rw [hbytes] at hn ⊢
      rcases n with _ | _ | n
      · exact ⟨_, .noOpcode, by simp, fun _ => rfl⟩
      · exact ⟨_, .truncatedOpcode, by simp [henc], fun hne => absurd rfl hne⟩
      · exact absurd hn (by simp)
  | immediate kind v =>
    obtain ⟨width, hwidth, -⟩ := h
    have hlength : (immediate kind v).bytes.length = width := by simp [bytes, hwidth]
    have hlt : ((immediate kind v).bytes.take n).length < width := by
      rw [List.length_take_of_le (Nat.le_of_lt hn), ← hlength]
      exact hn
    exact ⟨_, .shortImmediate hwidth hlt, by simp, fun _ => rfl⟩
  | string text =>
    have hle : n ≤ (Ascii.encode text).length := by simpa [bytes, Nat.lt_succ_iff] using hn
    have hzero : 0 ∉ (string text).bytes.take n := by
      rw [bytes, List.take_append_of_le_length hle]
      intro hmem
      exact (Ascii.of_mem_encode h 0 (List.mem_of_mem_take hmem)).1 rfl
    exact ⟨_, .unterminated hzero, by simp, fun _ => rfl⟩
  | byte b =>
    obtain rfl : n = 0 := by simpa [bytes] using hn
    exact ⟨_, .next, by simp, fun _ => rfl⟩

end Item

namespace Session

/-- A step never takes a proper first part of an item for the item, or for anything else. -/
theorem failed_of_cut_item {i : Item} (h : i.WellFormed) {s : Session}
    (hpart : s.cursor.remaining <+: i.bytes) (hne : s.cursor.remaining ≠ i.bytes) :
    (s.step i.step).1.failed = true := by
  have hlt : s.cursor.remaining.length < i.bytes.length := by
    refine Nat.lt_of_le_of_ne hpart.length_le fun hlength => hne ?_
    exact hpart.eq_of_length hlength
  obtain ⟨e, hrefusal, -⟩ := h.refusal_of_take hlt
  rw [← List.prefix_iff_eq_take.mp hpart] at hrefusal
  exact Answer.failed_iff.mpr ⟨e, outcome_eq_error_iff.mpr hrefusal⟩

/-- Items with bytes behind them at which the step of a further item fails are read back, and that step
fails behind them. -/
theorem run_of_refusal {before : List Item} (h : ∀ j ∈ before, j.WellFormed) {i : Item}
    {rest : List UInt8} {e : DecodeError} (he : Refusal i.step rest e) (after : List Item) :
    let stream := before.flatMap Item.bytes ++ rest
    let steps := (before ++ i :: after).map Item.step
    let answers := ((start stream).run steps).1
    (answers.take before.length).map (·.outcome) = before.map (fun j => .ok j.value) ∧
      answers[before.length]?.map (·.outcome) = some (.error e) ∧
      ((start stream).run (steps.take (before.length + 1))).2.cursor =
        ⟨stream, (before.flatMap Item.bytes).length⟩ := by
  intro stream steps answers
  have hwritten : before.flatMap Item.bytes <+: (start stream).cursor.remaining :=
    List.prefix_append _ _
  obtain ⟨houtcomes, hend⟩ := run_of_written h hwritten
  have hsteps : steps = before.map Item.step ++ i.step :: after.map Item.step := by
    rw [← List.map_cons, ← List.map_append]
  have hlength : (before.map Item.step).length = before.length := List.length_map _
  have htake : steps.take before.length = before.map Item.step := by
    rw [hsteps, List.take_left' hlength]
  have hget : steps[before.length]? = some i.step := by
    rw [hsteps, List.getElem?_append_right (Nat.le_of_eq hlength), hlength, Nat.sub_self,
      List.getElem?_cons_zero]
  -- where the items end, `rest` is what is left
  generalize hs : ((start stream).run (before.map Item.step)).2 = s at hend
  have hrest : s.cursor.remaining = rest := by
    rw [hend]
    exact (Cursor.remaining_advance _ _).trans List.drop_left
  have hfails : (s.step i.step).1.outcome = .error e := outcome_eq_error_iff.mpr (hrest.symm ▸ he)
  refine ⟨?_, ?_, ?_⟩
  · rw [take_run, htake, houtcomes]
  · rw [getElem?_run, hget, htake, hs, Option.map_some, Option.map_some, hfails]
  · rw [run_take_succ _ hget, htake, hs, step_of_failed (Answer.failed_iff.mpr ⟨e, hfails⟩), hend]
    exact congrArg (Cursor.mk stream) (Nat.zero_add _)

/-- A stream of items that is cut short gives back the items that end before the cut. The step of the
next one fails and leaves the cursor where this item starts; what it reports is a truncated opcode if
just the prefix of an opcode is there, and otherwise the end of the stream. And no step takes a proper
first part of an item for the item or for anything shorter. -/
theorem run_cut_short (items : List Item) (h : ∀ i ∈ items, i.WellFormed) (cut : Nat)
    (hcut : cut < (items.flatMap Item.bytes).length) :
    let stream := (items.flatMap Item.bytes).take cut
    let steps := items.map Item.step
    let answers := ((start stream).run steps).1
    (∃ before i after e, items = before ++ i :: after ∧
      (before.flatMap Item.bytes).length ≤ cut ∧
      cut < (before.flatMap Item.bytes).length + i.bytes.length ∧
      (answers.take before.length).map (·.outcome) = before.map (fun j => .ok j.value) ∧
      answers[before.length]?.map (·.outcome) = some (.error e) ∧
      ((start stream).run (steps.take (before.length + 1))).2.cursor =
        ⟨stream, (before.flatMap Item.bytes).length⟩ ∧
      (e = .truncatedExtendedOpcode ↔ ∃ d, i = .opcode d ∧ d.opcode.encoding.space = .extended ∧
        cut = (before.flatMap Item.bytes).length + 1) ∧
      (e ≠ .truncatedExtendedOpcode → e = .endOfStream)) ∧
    ∀ (i : Item) (s : Session), i.WellFormed → s.cursor.remaining <+: i.bytes →
      s.cursor.remaining ≠ i.bytes → (s.step i.step).1.failed = true := by
  intro stream steps answers
  refine ⟨?_, fun i s hi => failed_of_cut_item hi⟩
  obtain ⟨before, i, after, rfl, hle, hlt⟩ := Item.exists_at_cut hcut
  have hbefore : ∀ j ∈ before, j.WellFormed := fun j hj => h j (List.mem_append_left _ hj)
  have hi : i.WellFormed := h i (List.mem_append_right _ List.mem_cons_self)
  obtain ⟨n, rfl⟩ := Nat.exists_eq_add_of_le hle
  have hn : n < i.bytes.length := Nat.lt_of_add_lt_add_left hlt
  obtain ⟨e, hrefusal, htruncated, hend⟩ := hi.refusal_of_take hn
  have hstream : stream = before.flatMap Item.bytes ++ i.bytes.take n := by
    simp only [stream, List.flatMap_append, List.flatMap_cons]
    rw [List.take_length_add_append, List.take_append_of_le_length (Nat.le_of_lt hn)]
  obtain ⟨houtcomes, hfails, hcursor⟩ := run_of_refusal hbefore hrefusal after
  rw [← hstream] at houtcomes hfails hcursor
  refine ⟨before, i, after, e, rfl, hle, hlt, houtcomes, hfails, hcursor, ?_, hend⟩
  rw [htruncated, Nat.add_left_cancel_iff]

/-- A number and an opcode of the extended space, cut behind the prefix of the opcode. -/
theorem run_cut_short_device :
    let device : Descriptor :=
      ⟨.deviceOp, .device, Descriptor.Table.namedScope, .ofKinds [.nameString, .termList]⟩
    let items : List Item := [.immediate .word 0x1234, .opcode device]
    let answers := ((start [0x34, 0x12, 0x5b]).run [.immediate .word, .nextOpcode]).1
    (∀ i ∈ items, i.WellFormed) ∧ 3 < (items.flatMap Item.bytes).length ∧
      (answers.take 1).map (·.outcome) = [.ok (.number 0x1234)] ∧
      answers[1]?.map (·.outcome) = some (.error .truncatedExtendedOpcode) := by
  intro device items answers
  have h : ∀ i ∈ items, i.WellFormed := by
    simp only [items, List.forall_mem_cons]
    refine ⟨⟨2, rfl, LittleEndian.fits_iff_lt_pow.mpr (by decide)⟩, ?_, by simp⟩
    exact (by decide : device ∈ Descriptor.table)
  have hcut : 3 < (items.flatMap Item.bytes).length := by decide
  obtain ⟨before, i, after, e, hitems, hle, hlt, houtcomes, hfails, -, htruncated, -⟩ :=
    (run_cut_short items h 3 hcut).1
  -- the number ends at offset two, so the opcode is the item at the cut
  rcases before with _ | ⟨a, _ | ⟨b, before⟩⟩
  · obtain ⟨rfl, -⟩ := List.cons.inj hitems
    exact absurd hlt (by decide)
  · obtain ⟨rfl, hrest⟩ := List.cons.inj hitems
    obtain ⟨rfl, -⟩ := List.cons.inj hrest
    have he : e = .truncatedExtendedOpcode := htruncated.mpr ⟨device, rfl, rfl, rfl⟩
    exact ⟨h, hcut, houtcomes, he ▸ hfails⟩
  · obtain ⟨-, hrest⟩ := List.cons.inj hitems
    obtain ⟨-, hnil⟩ := List.cons.inj hrest
    exact absurd hnil.symm (List.append_ne_nil_of_right_ne_nil _ (List.cons_ne_nil _ _))

end Session

end AmlBytecode
