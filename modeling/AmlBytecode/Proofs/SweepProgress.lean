import AmlBytecode.Proofs.CheckedReads
import AmlBytecode.Proofs.SweepTiling

/-! # Sweeps reach the end of their stream

Each round of a sweep moves the cursor forward within the stream, so a sweep is over after at most
as many rounds as the stream has bytes, at the end of the stream, and none of its accesses has a
fault (`Cursor.checkedRounds_eq`). Main statement: `sweep_reaches_end`, which also says when a sweep
leaves the record of a stream that ends after the prefix of the extended space. -/

namespace AmlBytecode

namespace Cursor

variable {c c' : Cursor} {stream : List UInt8}

/-! ## Where rounds start -/

/-- The cursors at which the rounds of a sweep start. -/
def roundStarts (c : Cursor) : List Cursor := (c :: c.rounds.map (·.value)).dropLast

/-- Where the last round of a sweep leaves the cursor. -/
def sweepEnd (c : Cursor) : Cursor := (c.rounds.map (·.value)).getLastD c

theorem roundStarts_of_isEmpty (h : c.isEmpty = true) : c.roundStarts = [] := by
  rw [roundStarts, rounds_of_isEmpty h]
  rfl

theorem roundStarts_of_not_isEmpty (h : c.isEmpty = false) :
    c.roundStarts = c :: c.round.value.roundStarts := by
  rw [roundStarts, rounds_of_not_isEmpty h]
  rfl

theorem sweepEnd_of_isEmpty (h : c.isEmpty = true) : c.sweepEnd = c := by
  rw [sweepEnd, rounds_of_isEmpty h]
  rfl

theorem sweepEnd_of_not_isEmpty (h : c.isEmpty = false) : c.sweepEnd = c.round.value.sweepEnd := by
  rw [sweepEnd, rounds_of_not_isEmpty h, List.map_cons, List.getLastD_cons, sweepEnd]

/-- What holds at the end of the stream, and before a round if it holds behind the round, holds of
every cursor. -/
@[elab_as_elim]
theorem sweep_induction {motive : Cursor → Prop} (atEnd : ∀ c, c.isEmpty = true → motive c)
    (round : ∀ c, c.isEmpty = false → motive c.round.value → motive c) (c : Cursor) : motive c :=
  rounds.induct motive round (fun c h => atEnd c (by simpa using h)) c

theorem rounds_eq_map_roundStarts (c : Cursor) : c.rounds = c.roundStarts.map round := by
  induction c using sweep_induction with
  | atEnd c h => rw [rounds_of_isEmpty h, roundStarts_of_isEmpty h, List.map_nil]
  | round c h ih => rw [rounds_of_not_isEmpty h, roundStarts_of_not_isEmpty h, ih, List.map_cons]

theorem exists_at_of_not_isEmpty (h : c.isEmpty = false) :
    ∃ g : Segment, g.At c.pc c.remaining :=
  Segment.exists_at c.pc (isEmpty_eq_false_iff.mp h)

/-- A round leaves one record and moves the cursor forward within the stream. -/
theorem Within.round (H : c.Within stream) (h : c.isEmpty = false) :
    c.round.value.Within stream ∧ c.pc < c.round.value.pc ∧ c.round.trace.length = 1 := by
  obtain ⟨g, hg⟩ := exists_at_of_not_isEmpty h
  rw [round_of_at hg]
  exact ⟨H.advance hg.bytes_prefix.length_le, Nat.lt_add_of_pos_right hg.length_pos, rfl⟩

theorem Within.roundStarts (H : c.Within stream) :
    ∀ c' ∈ c.roundStarts, c'.Within stream ∧ c'.isEmpty = false := by
  induction c using sweep_induction with
  | atEnd c h => rw [roundStarts_of_isEmpty h]; exact fun _ hmem => nomatch hmem
  | round c h ih =>
    rw [roundStarts_of_not_isEmpty h, List.forall_mem_cons]
    exact ⟨⟨H, h⟩, ih (H.round h).1⟩

theorem Within.sweepEnd (H : c.Within stream) : c.sweepEnd = ⟨stream, stream.length⟩ := by
  induction c using sweep_induction with
  | atEnd c h =>
    have hle := isEmpty_iff.mp h
    rw [sweepEnd_of_isEmpty h]
    rcases c with ⟨bytes, pc⟩
    obtain ⟨rfl, hpc⟩ := H
    exact congrArg (Cursor.mk bytes) (Nat.le_antisymm hpc hle)
  | round c h ih => rw [sweepEnd_of_not_isEmpty h, ih (H.round h).1]

/-- Where decoding an opcode fails before the end of the stream, there is a byte to go past, and the
round does so. -/
theorem round_of_error {e : DecodeError} (h : c.isEmpty = false)
    (he : c.nextOpcode.value.1 = .error e) :
    (∃ b, c.next = (.ok b, c.advance 1)) ∧ c.round.value = c.advance 1 := by
  have hrest := isEmpty_eq_false_iff.mp h
  refine ⟨?_, ?_⟩
  · obtain ⟨b, rest, hcons⟩ := List.exists_cons_of_ne_nil hrest
    exact ⟨b, next_of_cons hcons⟩
  · -- the byte is skipped where the failed decoding has left the cursor
    have hvalue := c.nextOpcode_failsInPlace.eq_of_error he
    rcases hop : c.nextOpcode with ⟨r, trace⟩
    obtain rfl : r = (.error e, c) := by rwa [hop] at hvalue
    rw [round, hop]
    exact skip_of_remaining hrest

/-! ## No access has a fault -/

def checkedOperand (c : Cursor) (kind : OperandKind) : Checked (Except DecodeError Unit × Cursor) :=
  if kind = .string then withoutValue <$> c.checkedString
  else withoutValue <$> c.checkedImmediate kind

def checkedOperands (c : Cursor) : List OperandKind → Checked Cursor
  | [] => .ok c
  | kind :: kinds => do
    match ← c.checkedOperand kind with
    | (.ok (), c') => c'.checkedOperands kinds
    | (.error _, c') => return c'

def checkedSkip (c : Cursor) : Checked Cursor := (·.2) <$> c.checkedNext

/-- A round of a sweep with every access checked, those to the signature of the opcode included. -/
def checkedRound (c : Cursor) : Checked (Traced Cursor) := do
  match ← c.checkedNextOpcode with
  | ⟨(.ok d, c'), trace⟩ => return ⟨← c'.checkedOperands (← d.signature.checkedToList), trace⟩
  | ⟨(.error _, c'), trace⟩ => return ⟨← c'.checkedSkip, trace⟩

/-- The rounds of a sweep with every access checked. It is a fault if more than `limit` rounds are
needed. -/
def checkedRounds : (limit : Nat) → Cursor → Checked (List (Traced Cursor))
  | 0, c => if c.isEmpty then .ok [] else .error .unfinished
  | limit + 1, c =>
    if c.isEmpty then .ok []
    else do
      let r ← c.checkedRound
      return r :: (← checkedRounds limit r.value)

theorem Within.operand {kind : OperandKind} (H : c.Within stream)
    (h : c.operand kind = (.ok (), c')) : c'.Within stream := by
  obtain ⟨bs, -, hbs, rfl⟩ := operand_eq_ok_iff.mp h
  exact H.advance hbs.length_le

section

variable (hword : stream.length < UInt64.size)
include hword

theorem checkedOperand_eq (H : c.Within stream) (kind : OperandKind) :
    c.checkedOperand kind = .ok (c.operand kind) := by
  unfold checkedOperand operand
  split
  · rw [checkedString_eq H hword]
    rfl
  · rw [checkedImmediate_eq H hword]
    rfl

theorem checkedOperands_eq (H : c.Within stream) (kinds : List OperandKind) :
    c.checkedOperands kinds = .ok (c.operands kinds) := by
  induction kinds generalizing c with
  | nil => rfl
  | cons kind kinds ih =>
    rw [checkedOperands, checkedOperand_eq hword H, Checked.ok_bind, operands]
    rcases hop : c.operand kind with ⟨e | _, c'⟩
    · rfl
    · exact ih (H.operand hop)

theorem checkedSkip_eq (H : c.Within stream) : c.checkedSkip = .ok c.skip := by
  rw [checkedSkip, checkedNext_eq H hword]
  rfl

theorem checkedRound_eq (H : c.Within stream) : c.checkedRound = .ok c.round := by
  rw [checkedRound, checkedNextOpcode_eq H hword, Checked.ok_bind, round]
  rcases hop : c.nextOpcode with ⟨⟨e | d, c'⟩, trace⟩
  · obtain rfl : c' = c := c.nextOpcode_failsInPlace e c' (by rw [hop])
    simp only [checkedSkip_eq hword H, Checked.ok_bind]
    rfl
  · have hreads : c.Reads (.opcode d) c' := congrArg Traced.value hop
    simp only [d.signature.checkedToList_eq, Checked.ok_bind,
      checkedOperands_eq hword (hreads.within H)]
    rfl

/-- As many rounds as there are bytes left are enough. -/
theorem checkedRounds_eq (H : c.Within stream) {limit : Nat} (h : c.remaining.length ≤ limit) :
    c.checkedRounds limit = .ok c.rounds := by
  induction limit generalizing c with
  | zero =>
    have hempty := isEmpty_iff_remaining.mpr (List.length_eq_zero_iff.mp (Nat.le_zero.mp h))
    rw [checkedRounds, if_pos hempty, rounds_of_isEmpty hempty]
  | succ limit ih =>
    rw [checkedRounds]
    by_cases hempty : c.isEmpty = true
    · rw [if_pos hempty, rounds_of_isEmpty hempty]
    · rw [Bool.not_eq_true] at hempty
      obtain ⟨hnext, hlt, -⟩ := H.round hempty
      have hle : c.round.value.remaining.length ≤ limit := by
        have hlength := H.pc_add_length_remaining
        have hlength' := hnext.pc_add_length_remaining
        omega
      rw [if_neg (by simp [hempty]), checkedRound_eq hword H, Checked.ok_bind, ih hnext hle,
        rounds_of_not_isEmpty hempty]
      rfl

end

end Cursor

/-! ## The record of a stream that ends after the prefix -/

theorem Segment.At.truncated_iff {g : Segment} {pc : Nat} {bs : List UInt8} (H : g.At pc bs) :
    g.record = .truncatedExtendedOpcode ↔ bs = [Encoding.extendedPrefix] := by
  refine ⟨fun h => ?_, fun h => by rw [H.unique (.truncated h)]⟩
  cases H with
  | truncated hbs => exact hbs
  | decoded | illegalExtended | illegal => cases h

namespace Tiling

variable {pc : Nat} {bs : List UInt8} {gs : List Segment}

theorem length_le (H : Tiling pc bs gs) : gs.length ≤ bs.length := by
  induction H with
  | nil => exact Nat.le_refl _
  | cons h hbs tail ih =>
    have hpos := h.length_pos
    rw [hbs, List.length_append, List.length_cons]
    omega

/-- A stream that ends after the prefix ends there. -/
theorem eq_nil_of_truncated (H : Tiling pc bs gs) {before after : List Record}
    (h : gs.map (·.record) = before ++ .truncatedExtendedOpcode :: after) : after = [] := by
  induction H generalizing before with
  | nil => simp at h
  | @cons pc bs rest g gs hg hbs tail ih =>
    rw [List.map_cons] at h
    rcases before with _ | ⟨r, before⟩
    · obtain ⟨hrecord, rfl⟩ := List.cons.inj h
      have hlength := congrArg List.length (hbs.symm.trans (hg.truncated_iff.mp hrecord))
      have hpos := hg.length_pos
      have hle := tail.length_le
      rw [List.length_append, List.length_singleton] at hlength
      rw [List.map_eq_nil_iff, ← List.length_eq_zero_iff]
      omega
    · exact ih (List.cons.inj h).2

/-- So there is only one such record, and it is the last one. -/
theorem truncated_last (H : Tiling pc bs gs) {before after : List Record}
    (h : gs.map (·.record) = before ++ .truncatedExtendedOpcode :: after) :
    .truncatedExtendedOpcode ∉ before ∧ after = [] := by
  refine ⟨fun hmem => ?_, H.eq_nil_of_truncated h⟩
  obtain ⟨before', between, rfl⟩ := List.append_of_mem hmem
  rw [List.append_assoc] at h
  exact absurd (H.eq_nil_of_truncated h) (by simp)

end Tiling

namespace Cursor

variable {c : Cursor} {stream : List UInt8}

theorem Within.remaining_eq_singleton_iff {b : UInt8} (H : c.Within stream) :
    c.remaining = [b] ↔ c.pc + 1 = stream.length ∧ stream[c.pc]? = some b := by
  have hlength := H.pc_add_length_remaining
  have hbyte : c.remaining[0]? = stream[c.pc]? := by
    rw [getElem?_remaining, H.bytes_eq, Nat.add_zero]
  constructor
  · intro h
    rw [h] at hlength hbyte
    exact ⟨hlength, hbyte.symm⟩
  · rintro ⟨hpc, hb⟩
    obtain ⟨b', hrest⟩ := List.length_eq_one_iff.mp (show c.remaining.length = 1 by omega)
    rw [hrest, hb] at hbyte
    rw [hrest, Option.some.inj hbyte]

theorem Within.truncated_mem_round (H : c.Within stream) (h : c.isEmpty = false) :
    .truncatedExtendedOpcode ∈ c.round.trace ↔
      c.pc + 1 = stream.length ∧ stream[c.pc]? = some Encoding.extendedPrefix := by
  obtain ⟨g, hg⟩ := exists_at_of_not_isEmpty h
  rw [round_of_at hg, List.mem_singleton, eq_comm, hg.truncated_iff, H.remaining_eq_singleton_iff]

end Cursor

theorem truncated_mem_sweep_iff (stream : List UInt8) :
    .truncatedExtendedOpcode ∈ sweep stream ↔
      ∃ c ∈ (Cursor.start stream).roundStarts,
        c.pc + 1 = stream.length ∧ stream[c.pc]? = some 0x5b := by
  have H : (Cursor.start stream).Within stream := .start stream
  rw [sweep, Cursor.rounds_eq_map_roundStarts, List.flatMap_map, List.mem_flatMap]
  refine exists_congr fun c => and_congr_right fun hc => ?_
  obtain ⟨hwithin, hempty⟩ := H.roundStarts c hc
  exact hwithin.truncated_mem_round hempty

/-- A sweep is over after at most as many rounds as its stream has bytes. Each round starts inside
the stream, leaves one record and moves the cursor forward, past one byte where no opcode can be
decoded; no access has a fault; and the sweep ends at the end of the stream. A stream that ends after
the prefix of the extended space is recorded once, and last, if a round starts at this prefix. -/
theorem sweep_reaches_end (stream : List UInt8) :
    (Cursor.start stream).rounds = (Cursor.start stream).roundStarts.map Cursor.round ∧
    (∀ c ∈ (Cursor.start stream).roundStarts, c.bytes = stream ∧ c.pc < stream.length ∧
      c.pc < c.round.value.pc ∧ c.round.value.pc ≤ stream.length ∧ c.round.trace.length = 1 ∧
      ∀ e, c.nextOpcode.value.1 = .error e →
        (∃ b, c.next = (.ok b, c.advance 1)) ∧ c.round.value = c.advance 1) ∧
    (Cursor.start stream).rounds.length = (sweep stream).length ∧
    (Cursor.start stream).rounds.length ≤ stream.length ∧
    (stream ≠ [] → 1 ≤ (Cursor.start stream).rounds.length) ∧
    (stream.length < UInt64.size →
      (Cursor.start stream).checkedRounds stream.length = .ok (Cursor.start stream).rounds) ∧
    (Cursor.start stream).sweepEnd = ⟨stream, stream.length⟩ ∧
    (∀ before after, sweep stream = before ++ .truncatedExtendedOpcode :: after →
      .truncatedExtendedOpcode ∉ before ∧ after = []) ∧
    (.truncatedExtendedOpcode ∈ sweep stream ↔
      ∃ c ∈ (Cursor.start stream).roundStarts,
        c.pc + 1 = stream.length ∧ stream[c.pc]? = some 0x5b) := by
  let c₀ := Cursor.start stream
  have H : c₀.Within stream := .start stream
  have hrounds : c₀.rounds = c₀.roundStarts.map Cursor.round := c₀.rounds_eq_map_roundStarts
  obtain ⟨gs, hgs⟩ := exists_tiling 0 stream
  have hlength : c₀.rounds.length = gs.length := by
    simpa using congrArg List.length (hgs.trace_rounds (c := c₀) rfl rfl)
  refine ⟨hrounds, ?_, ?_, hlength ▸ hgs.length_le, ?_, ?_, H.sweepEnd, ?_,
    truncated_mem_sweep_iff stream⟩
  · intro c hc
    obtain ⟨hwithin, hempty⟩ := H.roundStarts c hc
    obtain ⟨hnext, hlt, htrace⟩ := hwithin.round hempty
    exact ⟨hwithin.bytes_eq, Nat.lt_of_lt_of_le hlt hnext.pc_le, hlt, hnext.pc_le, htrace,
      fun _ => Cursor.round_of_error hempty⟩
  · rw [hlength, hgs.sweep_eq, List.length_map]
  · intro hne
    have hempty : c₀.isEmpty = false := Cursor.isEmpty_eq_false_iff.mpr hne
    rw [Cursor.rounds_of_not_isEmpty hempty, List.length_cons]
    exact Nat.succ_pos _
  · intro hword
    exact Cursor.checkedRounds_eq hword H (Nat.le_refl _)
  · intro before after h
    exact hgs.truncated_last (hgs.sweep_eq ▸ h)

end AmlBytecode
