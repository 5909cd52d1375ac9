import AmlBytecode.Cursor.Lemmas

/-! # Sweeping a stream

A sweep reads a whole byte string without a term parser. Each round decodes one opcode and then
those of its operands that are strings or numbers, up to the first operand that is neither or
cannot be read. Where no opcode can be decoded, the round skips one byte. A round on a stream that
is not at its end moves forward (`round_follows`), so there is a last one. -/

namespace AmlBytecode

namespace Cursor

/-- What a read comes to if its value does not matter. -/
def withoutValue {α : Type} (r : Except DecodeError α × Cursor) : Except DecodeError Unit × Cursor :=
  (r.1.map fun _ => (), r.2)

/-- Reads past one operand of the given kind, if it is a string or a number. -/
def operand (c : Cursor) (kind : OperandKind) : Except DecodeError Unit × Cursor :=
  if kind = .string then withoutValue c.string else withoutValue (c.immediate kind)

/-- Reads past operands of the given kinds, up to the first that cannot be read. -/
def operands (c : Cursor) : List OperandKind → Cursor
  | [] => c
  | kind :: kinds =>
    match c.operand kind with
    | (.ok (), c') => c'.operands kinds
    | (.error _, c') => c'

/-- Goes past one byte, if there is one. -/
def skip (c : Cursor) : Cursor := c.next.2

/-- One round of a sweep: where it leaves the cursor, and the records of its opcode. -/
def round (c : Cursor) : Traced Cursor :=
  match c.nextOpcode with
  | ⟨(.ok d, c'), trace⟩ => ⟨c'.operands d.signature.toList, trace⟩
  | ⟨(.error _, c'), trace⟩ => ⟨c'.skip, trace⟩

theorem withoutValue_eq_ok_iff {α : Type} {r : Except DecodeError α × Cursor} {c' : Cursor} :
    withoutValue r = (.ok (), c') ↔ ∃ a, r = (.ok a, c') := by
  rcases r with ⟨e | a, c⟩ <;> simp [withoutValue, Except.map]

theorem withoutValue_eq_error_iff {α : Type} {r : Except DecodeError α × Cursor} {e : DecodeError}
    {c' : Cursor} : withoutValue r = (.error e, c') ↔ r = (.error e, c') := by
  rcases r with ⟨e' | a, c⟩ <;> simp [withoutValue, Except.map]

theorem follows_of_operand {c c' : Cursor} {kind : OperandKind}
    (h : c.operand kind = (.ok (), c')) : c'.Follows c := by
  unfold operand at h
  split at h
  · obtain ⟨text, hread⟩ := withoutValue_eq_ok_iff.mp h
    exact follows_of_string hread
  · obtain ⟨v, hread⟩ := withoutValue_eq_ok_iff.mp h
    exact follows_of_immediate hread

theorem operand_failsInPlace (c : Cursor) (kind : OperandKind) :
    c.FailsInPlace (c.operand kind) := by
  intro e c' h
  unfold operand at h
  split at h
  · exact c.string_failsInPlace e c' (withoutValue_eq_error_iff.mp h)
  · exact c.immediate_failsInPlace kind e c' (withoutValue_eq_error_iff.mp h)

theorem operands_follows_or_eq (c : Cursor) (kinds : List OperandKind) :
    (c.operands kinds).Follows c ∨ c.operands kinds = c := by
  induction kinds generalizing c with
  | nil => exact .inr rfl
  | cons kind kinds ih =>
    unfold operands
    split
    case h_1 c' h =>
      have hc' := follows_of_operand h
      rcases ih c' with hr | hr
      · exact .inl (hr.trans hc')
      · exact .inl (hr.symm ▸ hc')
    case h_2 h => exact .inr (c.operand_failsInPlace kind _ _ h)

theorem skip_follows {c : Cursor} (h : c.isEmpty = false) : c.skip.Follows c := by
  have hpc : c.pc < c.bytes.length := by simpa [isEmpty] using h
  have hnext : c.next = (.ok c.bytes[c.pc], c.advance 1) :=
    next_eq_ok_iff.mpr ⟨List.getElem?_eq_getElem hpc, rfl⟩
  rw [skip, hnext]
  exact follows_of_next hnext

/-- Before the end of the stream a round moves forward. -/
theorem round_follows {c : Cursor} (h : c.isEmpty = false) : c.round.value.Follows c := by
  unfold round
  split
  case h_1 d c' trace hop =>
    have hc' : c'.Follows c := follows_of_nextOpcode (by rw [hop])
    rcases operands_follows_or_eq c' d.signature.toList with hr | hr
    · exact hr.trans hc'
    · simpa [hr] using hc'
  case h_2 e c' trace hop =>
    obtain rfl : c' = c := c.nextOpcode_failsInPlace e c' (by rw [hop])
    exact skip_follows h

/-- The rounds of a sweep from the cursor to the end of the stream. -/
def rounds (c : Cursor) : List (Traced Cursor) :=
  if _ : c.isEmpty = false then c.round :: c.round.value.rounds else []
termination_by c.bytes.length - c.pc
decreasing_by
  rename_i h
  have hpc : c.pc < c.bytes.length := by simpa [isEmpty] using h
  obtain ⟨hbytes, hlt⟩ := round_follows h
  rw [hbytes]
  omega

theorem rounds_of_isEmpty {c : Cursor} (h : c.isEmpty = true) : c.rounds = [] := by
  rw [rounds, dif_neg (by simp [h])]

theorem rounds_of_not_isEmpty {c : Cursor} (h : c.isEmpty = false) :
    c.rounds = c.round :: c.round.value.rounds := by
  rw [rounds, dif_pos h]

end Cursor

/-- The records of a sweep over a byte string. -/
def sweep (bytes : List UInt8) : List Record := (Cursor.start bytes).rounds.flatMap (·.trace)

end AmlBytecode
