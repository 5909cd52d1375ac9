import AmlBytecode.Proofs.Embedding
import AmlBytecode.Proofs.SweepProgress

/-! # Sweeps of streams that are put together

A sweep keeps nothing from one round to the next but the cursor, and a round inside a longer stream
does what it did, unless it ran into the end of the stream (`Cursor.round_embed`). So the records of
a sweep inside a longer stream come first, and then those of the bytes behind
(`Cursor.records_embed`). Main statement: `sweep_append`, where no round of a sweep runs into the end
of its stream, more bytes add the records of their own sweep and change none. -/

namespace AmlBytecode

namespace Cursor

variable {c : Cursor} {stream before after : List UInt8}

/-! ## The errors and the records of a sweep -/

/-- The error of the operand at which reading operands of these kinds stops, if it stops early. -/
def operandError? (c : Cursor) : List OperandKind → Option DecodeError
  | [] => none
  | kind :: kinds =>
    match c.operand kind with
    | (.ok (), c') => c'.operandError? kinds
    | (.error e, _) => some e

/-- The error that a round meets, if it meets one: that of its opcode, or that of the operand at
which it stops. -/
def roundError? (c : Cursor) : Option DecodeError :=
  match c.nextOpcode.value with
  | (.ok d, c') => c'.operandError? d.signature.toList
  | (.error e, _) => some e

/-- The errors that the rounds from the cursor to the end of the stream meet. -/
def errors (c : Cursor) : List DecodeError := c.roundStarts.filterMap roundError?

/-- The records of the rounds from the cursor to the end of the stream. -/
def records (c : Cursor) : List Record := c.rounds.flatMap (·.trace)

theorem operandError?_of_error {kind : OperandKind} {kinds : List OperandKind} {e : DecodeError}
    (h : (c.operand kind).1 = .error e) : c.operandError? (kind :: kinds) = some e := by
  rw [operandError?, (c.operand_failsInPlace kind).eq_of_error h]

theorem roundError?_of_error {e : DecodeError} (h : c.nextOpcode.value.1 = .error e) :
    c.roundError? = some e := by
  rw [roundError?, c.nextOpcode_failsInPlace.eq_of_error h]

theorem errors_of_not_isEmpty (h : c.isEmpty = false) :
    c.errors = c.roundError?.toList ++ c.round.value.errors := by
  rw [errors, roundStarts_of_not_isEmpty h, List.filterMap_cons]
  rcases c.roundError? with _ | e <;> rfl

theorem records_of_isEmpty (h : c.isEmpty = true) : c.records = [] := by
  rw [records, rounds_of_isEmpty h, List.flatMap_nil]

theorem records_of_not_isEmpty (h : c.isEmpty = false) :
    c.records = c.round.trace ++ c.round.value.records := by
  rw [records, rounds_of_not_isEmpty h, List.flatMap_cons, records]

/-! ## Rounds inside a longer stream -/

theorem operand_embed {kind : OperandKind} (H : c.Within stream)
    (h : Settled after ((c.operand kind).1 = .error ·)) :
    (c.embed before after).operand kind = Prod.map id (embed before after) (c.operand kind) := by
  by_cases hkind : kind = .string
  · simp only [operand, if_pos hkind, withoutValue] at h ⊢
    rw [string_embed H (h.mono fun e he => by rw [string_eq_error_iff.mpr he]; rfl)]
    rfl
  · simp only [operand, if_neg hkind, withoutValue] at h ⊢
    rw [immediate_embed H (h.mono fun e he => by rw [immediate_eq_error_iff.mpr he]; rfl)]
    rfl

theorem operands_embed {kinds : List OperandKind} (H : c.Within stream)
    (h : Settled after (c.operandError? kinds = some ·)) :
    (c.embed before after).operands kinds = (c.operands kinds).embed before after := by
  induction kinds generalizing c with
  | nil => rfl
  | cons kind kinds ih =>
    have hoperand : (c.embed before after).operand kind =
        Prod.map id (embed before after) (c.operand kind) :=
      operand_embed H (h.mono fun _ => operandError?_of_error)
    rw [operands, operands, hoperand]
    rcases hop : c.operand kind with ⟨e | _, c'⟩
    · rfl
    · rw [operandError?, hop] at h
      exact ih (H.operand hop) h

theorem skip_embed (H : c.Within stream) (h : c.isEmpty = false) :
    (c.embed before after).skip = c.skip.embed before after := by
  rw [skip_of_remaining (isEmpty_eq_false_iff.mp h),
    skip_of_remaining (isEmpty_eq_false_iff.mp (isEmpty_embed H h)), advance_embed]

theorem round_embed (H : c.Within stream) (hempty : c.isEmpty = false)
    (h : Settled after (c.roundError? = some ·)) :
    (c.embed before after).round =
      ⟨c.round.value.embed before after, c.round.trace.map (Record.shift before.length)⟩ := by
  have hop : (c.embed before after).nextOpcode =
      ⟨Prod.map id (embed before after) c.nextOpcode.value,
        c.nextOpcode.trace.map (Record.shift before.length)⟩ :=
    nextOpcode_embed H (h.mono fun _ he => roundError?_of_error (nextOpcode_eq_error_iff.mpr he))
  rw [round, round, hop]
  rcases hread : c.nextOpcode with ⟨⟨e | d, c'⟩, trace⟩
  · -- no opcode was found, and one byte is skipped in either stream
    obtain rfl : c' = c := c.nextOpcode_failsInPlace e c' (by rw [hread])
    exact congrArg (Traced.mk · _) (skip_embed H hempty)
  · have hreads : c.Reads (.opcode d) c' := congrArg Traced.value hread
    have hvalue : c.nextOpcode.value = (.ok d, c') := congrArg Traced.value hread
    rw [roundError?, hvalue] at h
    exact congrArg (Traced.mk · _) (operands_embed (hreads.within H) h)

/-- Inside a longer stream the same rounds come first, and then those behind the stream. -/
theorem records_embed (H : c.Within stream) (h : Settled after (· ∈ c.errors)) :
    (c.embed before after).records =
      c.records.map (Record.shift before.length) ++ (c.sweepEnd.embed before after).records := by
  induction c using sweep_induction with
  | atEnd c hempty =>
    rw [records_of_isEmpty hempty, sweepEnd_of_isEmpty hempty, List.map_nil, List.nil_append]
  | round c hempty ih =>
    rw [errors_of_not_isEmpty hempty] at h
    have hround : (c.embed before after).round = _ :=
      round_embed H hempty (h.mono fun e he => by simp [he])
    have hrest := ih (H.round hempty).1 (h.mono fun e he => List.mem_append_right _ he)
    rw [records_of_not_isEmpty (isEmpty_embed H hempty), hround, hrest,
      records_of_not_isEmpty hempty, sweepEnd_of_not_isEmpty hempty, List.map_append,
      List.append_assoc]

/-- With nothing behind the stream the records are the same, each further on. -/
theorem records_embed_nil (H : c.Within stream) (before : List UInt8) :
    (c.embed before []).records = c.records.map (Record.shift before.length) := by
  have hend : (c.sweepEnd.embed before []).isEmpty = true := by
    rw [H.sweepEnd, isEmpty_iff]
    simp [embed, Nat.add_comm]
  rw [records_embed H (.inl rfl), records_of_isEmpty hend, List.append_nil]

end Cursor

theorem Record.shift_zero (r : Record) : r.shift 0 = r := by cases r <;> rfl

/-- The errors that the rounds of a sweep over a byte string meet. -/
def sweepErrors (bytes : List UInt8) : List DecodeError := (Cursor.start bytes).errors

/-- Where no read of a sweep runs into the end of its stream, bytes that come behind add the records
of their own sweep, each further on by the length of the stream, and change none that were there.
Other errors on the way, such as illegal opcodes and strings that are not ASCII, do no harm. -/
theorem sweep_append (stream more : List UInt8) (hend : .endOfStream ∉ sweepErrors stream)
    (htruncated : .truncatedExtendedOpcode ∉ sweepErrors stream) :
    sweep (stream ++ more) = sweep stream ++ (sweep more).map (Record.shift stream.length) := by
  have H : (Cursor.start stream).Within stream := .start stream
  have hsettled : Settled more (· ∈ (Cursor.start stream).errors) := by
    refine .inr fun e he => ?_
    rw [← Bool.not_eq_true, DecodeError.isTruncation_iff]
    rintro (rfl | rfl)
    · exact hend he
    · exact htruncated he
  -- the sweep over `stream` ends where the sweep over `more` is to start
  have hbehind : (Cursor.start stream).sweepEnd.embed [] more =
      (Cursor.start more).embed stream [] := by
    rw [H.sweepEnd]
    simp [Cursor.embed, Cursor.start]
  have hrecords : ((Cursor.start stream).embed [] more).records = _ :=
    Cursor.records_embed H hsettled
  rw [hbehind, Cursor.records_embed_nil (.start more) stream] at hrecords
  have hshift : (sweep stream).map (Record.shift 0) = sweep stream := by
    rw [funext Record.shift_zero, List.map_id']
  calc
    sweep (stream ++ more) = _ := hrecords
    _ = sweep stream ++ (sweep more).map (Record.shift stream.length) := by
      exact congrArg (· ++ _) hshift

/-- A string and a number are read, and behind them stand an illegal opcode, a string that is not
ASCII and an operand that is left to a term parser; the opcode behind all this is recorded where it is
now. -/
theorem sweep_append_device :
    let stream : List UInt8 := [0x0d, 0x41, 0x00, 0x0b, 0x34, 0x12, 0x02, 0x0d, 0x42, 0x80, 0x00]
    .endOfStream ∉ sweepErrors stream ∧ .truncatedExtendedOpcode ∉ sweepErrors stream ∧
      sweep (stream ++ [0x5b, 0x82, 0x5b]) =
        [.decoded .stringPrefix 0, .decoded .wordPrefix 3, .illegalOpcode 0x02,
          .decoded .stringPrefix 7, .illegalOpcode 0x42, .decoded .notOp 9, .decoded .zeroOp 10,
          .decoded .deviceOp 11, .truncatedExtendedOpcode] := by
  intro stream
  have herrors : sweepErrors stream = [.illegalOpcode 0x02, .invalidString, .illegalOpcode 0x42,
      .notAnImmediate .termObj] := by decide +kernel
  have hend : .endOfStream ∉ sweepErrors stream := by rw [herrors]; decide
  have htruncated : .truncatedExtendedOpcode ∉ sweepErrors stream := by rw [herrors]; decide
  have hstream : sweep stream = [.decoded .stringPrefix 0, .decoded .wordPrefix 3,
      .illegalOpcode 0x02, .decoded .stringPrefix 7, .illegalOpcode 0x42, .decoded .notOp 9,
      .decoded .zeroOp 10] := by decide +kernel
  have hmore : sweep [0x5b, 0x82, 0x5b] = [.decoded .deviceOp 0, .truncatedExtendedOpcode] := by
    decide +kernel
  refine ⟨hend, htruncated, ?_⟩
  rw [sweep_append stream _ hend htruncated, hstream, hmore]
  rfl

end AmlBytecode
