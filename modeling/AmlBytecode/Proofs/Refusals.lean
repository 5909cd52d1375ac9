import AmlBytecode.Proofs.SessionTransitions

/-! # Why steps fail

A step fails because of the bytes that are left, whatever stands before them: `Refusal` lists the
reasons, and `Session.outcome_eq_error_iff` says that steps fail for these reasons and no others. A
reason other than truncation is still there when more bytes come behind (`Refusal.append`). -/

namespace AmlBytecode

/-- The stream ended before it was known what it holds. -/
def DecodeError.isTruncation : DecodeError → Bool
  | .truncatedExtendedOpcode | .endOfStream => true
  | .illegalOpcode _ | .illegalExtendedOpcode _ | .notAnImmediate _ | .invalidString => false

theorem DecodeError.isTruncation_iff {e : DecodeError} :
    e.isTruncation = true ↔ e = .endOfStream ∨ e = .truncatedExtendedOpcode := by
  cases e <;> simp [isTruncation]

open Descriptor in
/-- The step fails with this error where these bytes are left. -/
inductive Refusal : Step → List UInt8 → DecodeError → Prop
  | peek : Refusal .peek [] .endOfStream
  | next : Refusal .next [] .endOfStream
  | noOpcode : Refusal .nextOpcode [] .endOfStream
  | truncatedOpcode : Refusal .nextOpcode [Encoding.extendedPrefix] .truncatedExtendedOpcode
  | illegalExtendedOpcode {b : UInt8} {rest : List UInt8}
      (hb : ∀ d ∈ table, d.opcode.encoding ≠ .extended b) :
      Refusal .nextOpcode (Encoding.extendedPrefix :: b :: rest) (.illegalExtendedOpcode b)
  | illegalOpcode {b : UInt8} {rest : List UInt8} (hne : b ≠ Encoding.extendedPrefix)
      (hb : ∀ d ∈ table, d.opcode.encoding ≠ .primary b) :
      Refusal .nextOpcode (b :: rest) (.illegalOpcode b)
  /-- Asked for a number of no fixed width, the stream is not looked at. -/
  | notAnImmediate {kind : OperandKind} {rest : List UInt8} (h : kind.immediateWidth? = none) :
      Refusal (.immediate kind) rest (.notAnImmediate kind)
  | shortImmediate {kind : OperandKind} {width : Nat} {rest : List UInt8}
      (h : kind.immediateWidth? = some width) (hlt : rest.length < width) :
      Refusal (.immediate kind) rest .endOfStream
  /-- Nothing ends the string, whatever its bytes are. -/
  | unterminated {rest : List UInt8} (h : 0 ∉ rest) : Refusal .string rest .endOfStream
  | notAscii {chars rest : List UInt8} (hne : ∀ b ∈ chars, b ≠ 0) (h : ∃ b ∈ chars, 0x80 ≤ b.toNat) :
      Refusal .string (chars ++ 0 :: rest) .invalidString

/-- What is refused for another reason than truncation is refused whatever comes behind. -/
theorem Refusal.append {st : Step} {rest : List UInt8} {e : DecodeError} (H : Refusal st rest e)
    (he : e.isTruncation = false) (more : List UInt8) : Refusal st (rest ++ more) e := by
  cases H with
  | peek | next | noOpcode | truncatedOpcode | shortImmediate | unterminated => cases he
  | illegalExtendedOpcode hb => exact .illegalExtendedOpcode hb
  | illegalOpcode hne hb => exact .illegalOpcode hne hb
  | notAnImmediate h => exact .notAnImmediate h
  | notAscii hne h =>
    rw [List.append_assoc, List.cons_append]
    exact .notAscii hne h

namespace Cursor

variable {c : Cursor} {e : DecodeError}

theorem peek_eq_error_iff : c.peek = .error e ↔ Refusal .peek c.remaining e := by
  rcases h : c.remaining with _ | ⟨b, rest⟩
  · rw [peek_of_nil h]
    refine ⟨fun he => ?_, fun H => ?_⟩
    · cases he
      exact .peek
    · cases H
      rfl
  · rw [peek_of_cons h]
    exact ⟨(nomatch ·), (nomatch ·)⟩

theorem next_eq_error_iff : c.next.1 = .error e ↔ Refusal .next c.remaining e := by
  have hpeek : c.next.1 = .error e ↔ c.peek = .error e := by
    rw [next]
    rcases c.peek with e' | b <;> simp
  rw [hpeek, peek_eq_error_iff]
  generalize c.remaining = rest
  refine ⟨fun H => ?_, fun H => ?_⟩
  · cases H
    exact .next
  · cases H
    exact .peek

theorem nextOpcode_eq_error_iff :
    c.nextOpcode.value.1 = .error e ↔ Refusal .nextOpcode c.remaining e := by
  rw [nextOpcode_result_eq_iff]
  refine ⟨fun h => ?_, fun H => ?_⟩
  · obtain ⟨c', trace, H⟩ := h
    cases H with
    | atEnd h => exact h ▸ .noOpcode
    | truncated h => exact h ▸ .truncatedOpcode
    | illegalExtended h hb => exact h ▸ .illegalExtendedOpcode hb
    | illegal h hne hb => exact h ▸ .illegalOpcode hne hb
  · generalize hrest : c.remaining = rest at H
    cases H with
    | noOpcode => exact ⟨_, _, .atEnd hrest⟩
    | truncatedOpcode => exact ⟨_, _, .truncated hrest⟩
    | illegalExtendedOpcode hb => exact ⟨_, _, .illegalExtended hrest hb⟩
    | illegalOpcode hne hb => exact ⟨_, _, .illegal hrest hne hb⟩

theorem immediate_eq_error_iff {kind : OperandKind} :
    (c.immediate kind).1 = .error e ↔ Refusal (.immediate kind) c.remaining e := by
  refine ⟨fun he => ?_, fun H => ?_⟩
  · rcases hwidth : kind.immediateWidth? with _ | width
    · simp only [immediate, hwidth, Except.error.injEq] at he
      exact he ▸ .notAnImmediate hwidth
    · by_cases hle : width ≤ c.remaining.length
      · simp only [immediate, hwidth, take, if_pos hle, reduceCtorEq] at he
      · simp only [immediate, hwidth, take, if_neg hle, Except.error.injEq] at he
        exact he ▸ .shortImmediate hwidth (Nat.lt_of_not_le hle)
  · cases H with
    | notAnImmediate h => simp only [immediate, h]
    | shortImmediate h hlt => simp only [immediate, h, take, if_neg (Nat.not_le_of_lt hlt)]

theorem string_of_terminated {chars rest : List UInt8} (h : c.remaining = chars ++ 0 :: rest)
    (hne : ∀ b ∈ chars, b ≠ 0) :
    c.string = match Ascii.decode? chars with
      | some text => (.ok text, c.advance (chars.length + 1))
      | none => (.error .invalidString, c) := by
  have hzero : 0 ∈ c.remaining := by simp [h]
  have hchars : c.remaining.takeWhile (· != 0) = chars := by rw [h, takeWhile_ne_append hne]
  rcases htext : Ascii.decode? chars with _ | text
  · simp only [string, if_pos hzero, hchars, htext]
  · simp only [string, if_pos hzero, hchars, htext]

theorem string_eq_error_iff : c.string.1 = .error e ↔ Refusal .string c.remaining e := by
  refine ⟨fun he => ?_, fun H => ?_⟩
  · by_cases hzero : 0 ∈ c.remaining
    · obtain ⟨chars, rest, hrest, hnot⟩ := List.eq_append_cons_of_mem hzero
      have hne : ∀ b ∈ chars, b ≠ 0 := fun b hb h0 => hnot (h0 ▸ hb)
      rw [string_of_terminated hrest hne] at he
      rcases htext : Ascii.decode? chars with _ | text
      · rw [htext] at he
        cases he
        exact hrest ▸ .notAscii hne (Ascii.decode?_eq_none_iff.mp htext)
      · rw [htext] at he
        cases he
    · rw [string, if_neg hzero] at he
      cases he
      exact .unterminated hzero
  · generalize hrest : c.remaining = rest at H
    cases H with
    | unterminated h => rw [string, hrest, if_neg h]
    | notAscii hne h => rw [string_of_terminated hrest hne, Ascii.decode?_eq_none_iff.mpr h]

end Cursor

namespace Session

variable {s : Session} {e : DecodeError}

theorem consume_eq_error_iff {α : Type} {toValue : α → Value} {trace : List Record}
    {r : Except DecodeError α × Cursor} :
    (s.consume toValue trace r).1.outcome = .error e ↔ r.1 = .error e := by
  rcases r with ⟨e' | a, c⟩ <;> simp [consume, Except.map]

/-- A step fails for one of the listed reasons, which are about the bytes at the cursor, and for no
other. -/
theorem outcome_eq_error_iff {st : Step} :
    (s.step st).1.outcome = .error e ↔ Refusal st s.cursor.remaining e := by
  cases st with
  | pc | remaining | isEmpty | sameAsSaved | text | save | restore =>
    exact ⟨(nomatch ·), (nomatch ·)⟩
  | peek =>
    have hmap : (s.step .peek).1.outcome = .error e ↔ s.cursor.peek = .error e := by
      rw [step]
      rcases s.cursor.peek with e' | b <;> simp [Except.map]
    exact hmap.trans Cursor.peek_eq_error_iff
  | next => exact consume_eq_error_iff.trans Cursor.next_eq_error_iff
  | nextOpcode => exact consume_eq_error_iff.trans Cursor.nextOpcode_eq_error_iff
  | immediate kind => exact consume_eq_error_iff.trans Cursor.immediate_eq_error_iff
  | string => exact consume_eq_error_iff.trans Cursor.string_eq_error_iff

end Session

end AmlBytecode
