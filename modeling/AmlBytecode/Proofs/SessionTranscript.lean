import AmlBytecode.Proofs.PrintedForms
import AmlBytecode.Proofs.SessionTransitions
import Mathlib.Data.List.Forall2

/-! # The log of a run

A run leaves one record for each opcode that it tries to decode where something is left, in order, and
no other records. The text of a record tells what came of the attempt: which opcode was found and where,
or the error with which none was found. Main statement: `Session.run_transcript`. -/

namespace AmlBytecode

/-- What a record says came of decoding: an opcode and its offset, or an error. -/
def Record.finding : Record → Except DecodeError (Opcode × Nat)
  | truncatedExtendedOpcode => .error .truncatedExtendedOpcode
  | illegalExtendedOpcode b => .error (.illegalExtendedOpcode b)
  | illegalOpcode b => .error (.illegalOpcode b)
  | decoded op pc => .ok (op, pc)

theorem Record.finding_injective : Function.Injective finding := by
  intro r r' h
  cases r <;> cases r' <;> simp_all [finding]

namespace Cursor

variable {c c' : Cursor} {r r' : Record}

/-! ## Records of one decoding -/

theorem exists_trace_nextOpcode (h : c.isEmpty = false) : ∃ r, c.nextOpcode.trace = [r] := by
  have H := c.opcodeOutcome_nextOpcode
  generalize c.nextOpcode = found at H
  cases H with
  | atEnd hnil => exact absurd hnil (isEmpty_eq_false_iff.mp h)
  | truncated | illegalExtended | illegal | decoded => exact ⟨_, rfl⟩

theorem trace_nextOpcode_of_isEmpty (h : c.isEmpty = true) : c.nextOpcode.trace = [] := by
  rw [nextOpcode_of_nil (isEmpty_iff_remaining.mp h)]

theorem finding_of_trace (h : c.nextOpcode.trace = [r]) :
    r.finding = c.nextOpcode.value.1.map fun d => (d.opcode, c.pc) := by
  have H := c.opcodeOutcome_nextOpcode
  generalize c.nextOpcode = found at H h
  cases H with
  | atEnd => cases h
  | truncated | illegalExtended | illegal | decoded =>
    cases h
    rfl

/-- Two attempts at decoding leave the same text if they found the same opcode at the same offset or
failed with the same error, and only then. -/
theorem text_eq_iff_of_trace (h : c.nextOpcode.trace = [r]) (h' : c'.nextOpcode.trace = [r']) :
    r.text = r'.text ↔
      (∃ d e d' e', c.nextOpcode.value = (.ok d, e) ∧ c'.nextOpcode.value = (.ok d', e') ∧
        d.opcode = d'.opcode ∧ c.pc = c'.pc) ∨
      ∃ e, c.nextOpcode.value.1 = .error e ∧ c'.nextOpcode.value.1 = .error e := by
  rw [Record.text_injective.eq_iff, ← Record.finding_injective.eq_iff, finding_of_trace h,
    finding_of_trace h']
  rcases c.nextOpcode.value with ⟨e | d, c₁⟩ <;> rcases c'.nextOpcode.value with ⟨e' | d', c₁'⟩ <;>
    simp [Except.map, eq_comm]

end Cursor

namespace Session

variable {s : Session} {st : Step}

/-! ## Records of a run -/

/-- The cursors at which a run decodes opcodes, in order. Where nothing is left there is nothing to
decode. -/
def decodings (s : Session) : List Step → List Cursor
  | [] => []
  | st :: steps =>
    if st = .nextOpcode ∧ s.cursor.isEmpty = false then
      s.cursor :: (s.step st).2.decodings steps
    else (s.step st).2.decodings steps

theorem trace_consume {α : Type} {toValue : α → Value} {trace : List Record}
    {r : Except DecodeError α × Cursor} : (s.consume toValue trace r).1.trace = trace := rfl

theorem trace_step_of_ne (h : st ≠ .nextOpcode) : (s.step st).1.trace = [] := by
  cases st with
  | nextOpcode => exact absurd rfl h
  | next | immediate | string => exact trace_consume
  | pc | remaining | isEmpty | peek | save | restore | sameAsSaved | text => rfl

theorem trace_step_nextOpcode : (s.step .nextOpcode).1.trace = s.cursor.nextOpcode.trace :=
  trace_consume

theorem trace_step_of_not_decoding (h : ¬(st = .nextOpcode ∧ s.cursor.isEmpty = false)) :
    (s.step st).1.trace = [] := by
  by_cases hst : st = .nextOpcode
  · subst hst
    have hempty : s.cursor.isEmpty = true := by simpa using h
    rw [trace_step_nextOpcode, Cursor.trace_nextOpcode_of_isEmpty hempty]
  · exact trace_step_of_ne hst

theorem trace_step_ne_nil_iff :
    (s.step st).1.trace ≠ [] ↔ st = .nextOpcode ∧ s.cursor.remaining ≠ [] := by
  rw [← Cursor.isEmpty_eq_false_iff]
  refine ⟨fun h => not_imp_comm.mp trace_step_of_not_decoding h, fun h => ?_⟩
  obtain ⟨rfl, hne⟩ := h
  obtain ⟨r, hr⟩ := Cursor.exists_trace_nextOpcode hne
  rw [trace_step_nextOpcode, hr]
  exact List.cons_ne_nil _ _

theorem forall₂_decodings (s : Session) (steps : List Step) :
    List.Forall₂ (fun c r => c.nextOpcode.trace = [r]) (s.decodings steps)
      ((s.run steps).1.flatMap (·.trace)) := by
  induction steps generalizing s with
  | nil => exact .nil
  | cons st steps ih =>
    rw [run_cons, List.flatMap_cons, decodings]
    split
    case isTrue h =>
      obtain ⟨rfl, hne⟩ := h
      obtain ⟨r, hr⟩ := Cursor.exists_trace_nextOpcode hne
      rw [trace_step_nextOpcode, hr, List.singleton_append]
      exact .cons hr (ih _)
    case isFalse h =>
      rw [trace_step_of_not_decoding h, List.nil_append]
      exact ih _

/-- The log of a run is a transcript of its decodings: it has one record for each of them, in order,
and no others; the steps that leave a record are those that ask for an opcode where something is left.
And wherever two opcodes are decoded, the texts of the two records are equal just if both decodings find
the same opcode at the same offset or both fail with the same error. -/
theorem run_transcript (s : Session) (steps : List Step) :
    let answers := (s.run steps).1
    List.Forall₂ (fun c r => c.nextOpcode.trace = [r]) (s.decodings steps)
      (answers.flatMap (·.trace)) ∧
    (∀ (place : Nat) (st : Step) (a : Answer), steps[place]? = some st → answers[place]? = some a →
      (a.trace ≠ [] ↔
        st = .nextOpcode ∧ (s.run (steps.take place)).2.cursor.remaining ≠ [])) ∧
    ∀ (c c' : Cursor) (r r' : Record), c.nextOpcode.trace = [r] → c'.nextOpcode.trace = [r'] →
      (r.text = r'.text ↔
        (∃ d e d' e', c.nextOpcode.value = (.ok d, e) ∧ c'.nextOpcode.value = (.ok d', e') ∧
          d.opcode = d'.opcode ∧ c.pc = c'.pc) ∨
        ∃ e, c.nextOpcode.value.1 = .error e ∧ c'.nextOpcode.value.1 = .error e) := by
  intro answers
  refine ⟨s.forall₂_decodings steps, fun place st a hst ha => ?_,
    fun c c' r r' => Cursor.text_eq_iff_of_trace⟩
  rw [getElem?_run, hst] at ha
  cases ha
  exact trace_step_ne_nil_iff

end Session

end AmlBytecode
