import AmlBytecode.Proofs.Refusals
import Mathlib.Algebra.BigOperators.Ring.Finset
import Mathlib.Data.List.Forall2
import Mathlib.Tactic.Ring

/-! # Little-endian numbers in a stream

The bytes of a number count with powers of 256, the first byte with the least (`value_eq_sum`), so bytes
that are read in several pieces give the same number as when they are read at once (`value_append`).
`Cursor.immediate_reads_number` says this of the operands of fixed width: each is read as the number that
its bytes spell, and it makes no difference to the number as a whole into which widths the bytes are
divided. -/

namespace AmlBytecode

namespace LittleEndian

theorem value_append (bs bs' : List UInt8) :
    value (bs ++ bs') = value bs + 256 ^ bs.length * value bs' := by
  induction bs with
  | nil => simp [value]
  | cons b bs ih =>
    rw [List.cons_append, value, value, ih, List.length_cons, pow_succ]
    ring

theorem value_eq_sum (bs : List UInt8) :
    value bs = ∑ i ∈ Finset.range bs.length, (bs.getD i 0).toNat * 256 ^ i := by
  induction bs with
  | nil => rfl
  | cons b bs ih =>
    rw [value, ih, List.length_cons, Finset.sum_range_succ', Finset.mul_sum, add_comm]
    simp only [List.getD_cons_succ, List.getD_cons_zero, pow_zero, mul_one, pow_succ]
    congr 1
    refine Finset.sum_congr rfl fun i _ => ?_
    ring

theorem value_lt (bs : List UInt8) : value bs < 256 ^ bs.length :=
  fits_iff_lt_pow.mp (fits_value (Nat.le_refl _))

/-- The number that consists of numbers of given widths, the least significant one first. -/
def join : List (Nat × Nat) → Nat
  | [] => 0
  | (width, n) :: parts => n + 256 ^ width * join parts

end LittleEndian

namespace OperandKind

/-- The kinds of operands that are numbers, with the widths of these numbers. -/
def numberWidths : List (OperandKind × Nat) := [(byteData, 1), (word, 2), (dWord, 4), (qWord, 8)]

theorem immediateWidth?_eq_some_iff {kind : OperandKind} {width : Nat} :
    kind.immediateWidth? = some width ↔ (kind, width) ∈ numberWidths := by
  cases kind <;> simp [immediateWidth?, numberWidths, eq_comm]

theorem immediateWidth?_eq_none_iff {kind : OperandKind} :
    kind.immediateWidth? = none ↔ kind ∉ [byteData, word, dWord, qWord] := by
  cases kind <;> simp [immediateWidth?]

theorem pow_width_le : ∀ entry ∈ numberWidths, 256 ^ entry.2 ≤ 2 ^ 64 := by decide

end OperandKind

namespace Cursor

open OperandKind

variable {c : Cursor} {kind : OperandKind} {width : Nat}

/-! ## One number -/

theorem immediate_of_le (hwidth : kind.immediateWidth? = some width)
    (h : width ≤ c.remaining.length) :
    c.immediate kind = (.ok (LittleEndian.value (c.remaining.take width)), c.advance width) :=
  immediate_eq_ok_iff.mpr ⟨width, hwidth, h, rfl, rfl⟩

theorem immediate_of_lt (hwidth : kind.immediateWidth? = some width)
    (h : c.remaining.length < width) : c.immediate kind = (.error .endOfStream, c) :=
  (c.immediate_failsInPlace kind).eq_of_error
    (immediate_eq_error_iff.mpr (.shortImmediate hwidth h))

theorem immediate_eq_endOfStream_iff (hwidth : kind.immediateWidth? = some width) :
    (c.immediate kind).1 = .error .endOfStream ↔ c.remaining.length < width := by
  refine ⟨fun he => Nat.lt_of_not_le fun hle => ?_, fun hlt => by rw [immediate_of_lt hwidth hlt]⟩
  rw [immediate_of_le hwidth hle] at he
  cases he

theorem value_take_remaining (h : width ≤ c.remaining.length) :
    LittleEndian.value (c.remaining.take width) =
      ∑ i ∈ Finset.range width, (c.bytes.getD (c.pc + i) 0).toNat * 256 ^ i := by
  rw [LittleEndian.value_eq_sum, List.length_take_of_le h]
  refine Finset.sum_congr rfl fun i hi => ?_
  have hbyte : (c.remaining.take width)[i]? = c.bytes[c.pc + i]? := by
    rw [List.getElem?_take_of_lt (Finset.mem_range.mp hi), getElem?_remaining]
  rw [List.getD_eq_getElem?_getD, List.getD_eq_getElem?_getD, hbyte]

/-! ## Several numbers -/

/-- Reads numbers of the given kinds one after the other, up to the first that cannot be read. -/
def immediates (c : Cursor) : List OperandKind → Except DecodeError (List Nat) × Cursor
  | [] => (.ok [], c)
  | kind :: kinds =>
    match c.immediate kind with
    | (.ok n, c') => Prod.map (Except.map (n :: ·)) id (c'.immediates kinds)
    | (.error e, c') => (.error e, c')

section

variable {kinds : List OperandKind} {widths : List Nat}

theorem immediates_cons_of_le (hwidth : kind.immediateWidth? = some width)
    (h : width ≤ c.remaining.length) :
    c.immediates (kind :: kinds) =
      Prod.map (Except.map (LittleEndian.value (c.remaining.take width) :: ·)) id
        ((c.advance width).immediates kinds) := by
  rw [immediates, immediate_of_le hwidth h]

variable (H : List.Forall₂ (fun kind width => kind.immediateWidth? = some width) kinds widths)
include H

/-- Where there are enough bytes for all numbers together, all are read, and together they are the
number that is spelled by all the bytes. -/
theorem immediates_of_le (h : widths.sum ≤ c.remaining.length) :
    ∃ ns, c.immediates kinds = (.ok ns, c.advance widths.sum) ∧
      LittleEndian.join (widths.zip ns) = LittleEndian.value (c.remaining.take widths.sum) := by
  induction H generalizing c with
  | nil => exact ⟨[], rfl, rfl⟩
  | @cons kind width kinds widths hwidth H ih =>
    rw [List.sum_cons] at h
    have hle : width ≤ c.remaining.length := by omega
    have hrest : widths.sum ≤ (c.advance width).remaining.length := by
      rw [remaining_advance, List.length_drop]
      omega
    obtain ⟨ns, hns, hjoin⟩ := ih hrest
    refine ⟨LittleEndian.value (c.remaining.take width) :: ns, ?_, ?_⟩
    · rw [immediates_cons_of_le hwidth hle, hns, List.sum_cons, ← advance_advance]
      rfl
    · rw [List.zip_cons_cons, LittleEndian.join, hjoin, List.sum_cons, List.take_add,
        LittleEndian.value_append, List.length_take_of_le hle, remaining_advance]

theorem immediates_of_lt (h : c.remaining.length < widths.sum) :
    (c.immediates kinds).1 = .error .endOfStream := by
  induction H generalizing c with
  | nil => cases h
  | @cons kind width kinds widths hwidth H ih =>
    rw [List.sum_cons] at h
    by_cases hle : width ≤ c.remaining.length
    · have hrest : (c.advance width).remaining.length < widths.sum := by
        rw [remaining_advance, List.length_drop]
        omega
      rw [immediates_cons_of_le hwidth hle, Prod.map_fst, ih hrest]
      rfl
    · rw [immediates, immediate_of_lt hwidth (Nat.lt_of_not_le hle)]

/-- How the bytes are divided makes no difference to what they come to together. -/
theorem immediates_of_sum_eq {kinds' : List OperandKind} {widths' : List Nat}
    (H' : List.Forall₂ (fun kind width => kind.immediateWidth? = some width) kinds' widths')
    (hsum : widths.sum = widths'.sum) :
    (∃ ns ns', c.immediates kinds = (.ok ns, c.advance widths.sum) ∧
      c.immediates kinds' = (.ok ns', c.advance widths.sum) ∧
      LittleEndian.join (widths.zip ns) = LittleEndian.join (widths'.zip ns')) ∨
    ((c.immediates kinds).1 = .error .endOfStream ∧
      (c.immediates kinds').1 = .error .endOfStream) := by
  by_cases hle : widths.sum ≤ c.remaining.length
  · obtain ⟨ns, hns, hjoin⟩ := immediates_of_le H hle
    obtain ⟨ns', hns', hjoin'⟩ := immediates_of_le H' (hsum ▸ hle)
    rw [← hsum] at hns' hjoin'
    exact .inl ⟨ns, ns', hns, hns', hjoin.trans hjoin'.symm⟩
  · have hlt := Nat.lt_of_not_le hle
    exact .inr ⟨immediates_of_lt H hlt, immediates_of_lt H' (hsum ▸ hlt)⟩

end

/-- An operand of fixed width is read as the number that its bytes spell, the first byte least
significant. Kinds without a width are refused even at the end of the stream, and for the others the
stream is too short just if fewer bytes are left than the number has. So the same bytes can be read as
numbers of any widths: of two lists of widths with the same sum both can be read or neither, and both
end at the same place and make up the same number. -/
theorem immediate_reads_number (c : Cursor) :
    (∀ kind, kind ∉ [OperandKind.byteData, .word, .dWord, .qWord] →
      c.immediate kind = (.error (.notAnImmediate kind), c)) ∧
    (∀ kind width, (kind, width) ∈ numberWidths →
      ((c.immediate kind).1 = .error .endOfStream ↔ c.remaining.length < width) ∧
      (width ≤ c.remaining.length →
        let n := ∑ i ∈ Finset.range width, (c.bytes.getD (c.pc + i) 0).toNat * 256 ^ i
        c.immediate kind = (.ok n, c.advance width) ∧ n < 256 ^ width ∧ 256 ^ width ≤ 2 ^ 64)) ∧
    ∀ (kinds kinds' : List OperandKind) (widths widths' : List Nat),
      List.Forall₂ (fun kind width => (kind, width) ∈ numberWidths) kinds widths →
      List.Forall₂ (fun kind width => (kind, width) ∈ numberWidths) kinds' widths' →
      widths.sum = widths'.sum →
      (∃ ns ns', c.immediates kinds = (.ok ns, c.advance widths.sum) ∧
        c.immediates kinds' = (.ok ns', c.advance widths.sum) ∧
        LittleEndian.join (widths.zip ns) = LittleEndian.join (widths'.zip ns')) ∨
      ((c.immediates kinds).1 = .error .endOfStream ∧
        (c.immediates kinds').1 = .error .endOfStream) := by
  refine ⟨fun kind h => ?_, fun kind width h => ?_, fun kinds kinds' widths widths' H H' hsum => ?_⟩
  · have he : (c.immediate kind).1 = .error (.notAnImmediate kind) :=
      immediate_eq_error_iff.mpr (.notAnImmediate (immediateWidth?_eq_none_iff.mpr h))
    exact (c.immediate_failsInPlace kind).eq_of_error he
  · have hwidth := immediateWidth?_eq_some_iff.mpr h
    refine ⟨immediate_eq_endOfStream_iff hwidth, fun hle => ?_⟩
    intro n
    have hn : LittleEndian.value (c.remaining.take width) = n := value_take_remaining hle
    have hlt := LittleEndian.value_lt (c.remaining.take width)
    rw [List.length_take_of_le hle, hn] at hlt
    rw [immediate_of_le hwidth hle, hn]
    exact ⟨rfl, hlt, pow_width_le _ h⟩
  · exact immediates_of_sum_eq (H.imp fun _ _ => immediateWidth?_eq_some_iff.mpr)
      (H'.imp fun _ _ => immediateWidth?_eq_some_iff.mpr) hsum

end Cursor

end AmlBytecode
