import AmlBytecode.Item
import AmlBytecode.Proofs.SweepTiling

/-! # Sweeps read terms as they are written

A term is an entry of the table with its operands, as far as they are strings and numbers. A sweep
is told nothing of how its stream was written; it takes from the table which operands to read. Main
statement: `sweep_terms`, terms written one after the other are found again, each at the offset where
it starts, and the sweep goes on behind them as if the stream started there. -/

namespace AmlBytecode

/-- Operands of this kind can be read without a term parser: strings and numbers. -/
def OperandKind.isPlain (kind : OperandKind) : Bool :=
  kind = .string || kind.immediateWidth?.isSome

/-- The kind of operand that an item is, if it is a string or a number. -/
def Item.kind? : Item → Option OperandKind
  | .immediate kind _ => some kind
  | .string _ => some .string
  | .opcode _ | .byte _ => none

theorem OperandKind.Spelled.isPlain {kind : OperandKind} {bs : List UInt8} (h : kind.Spelled bs) :
    kind.isPlain = true := by
  cases h with
  | string => rfl
  | immediate h => simp [OperandKind.isPlain, h]

/-- A well-formed item is written as an operand of its kind. -/
theorem Item.WellFormed.spelled {i : Item} {kind : OperandKind} (h : i.WellFormed)
    (hkind : i.kind? = some kind) : kind.Spelled i.bytes := by
  cases i with
  | opcode | byte => cases hkind
  | immediate kind' n =>
    cases hkind
    obtain ⟨width, hwidth, -⟩ := h
    exact .immediate (by simp [Item.bytes, hwidth])
  | string text =>
    cases hkind
    exact .string (Ascii.of_mem_encode h)

/-- A descriptor together with its first operands. -/
structure Term where
  descriptor : Descriptor
  operands : List Item

namespace Term

/-- The descriptor is in the table, and the operands are those of the longest initial part of its
operand kinds that has strings and numbers only. -/
structure WellFormed (t : Term) : Prop where
  mem : t.descriptor ∈ Descriptor.table
  kinds : t.operands.map Item.kind? =
    (t.descriptor.signature.toList.takeWhile OperandKind.isPlain).map some
  operands : ∀ i ∈ t.operands, i.WellFormed

def bytes (t : Term) : List UInt8 :=
  t.descriptor.opcode.encoding.bytes ++ t.operands.flatMap Item.bytes

end Term

/-- Operands of the kinds that come first are read, up to the first kind that is neither string nor
number. -/
theorem operandRun_of_kinds {kinds : List OperandKind} {operands : List Item}
    (hkinds : operands.map Item.kind? = (kinds.takeWhile OperandKind.isPlain).map some)
    (h : ∀ i ∈ operands, i.WellFormed) (rest : List UInt8) :
    OperandRun kinds (operands.flatMap Item.bytes ++ rest) (operands.map Item.bytes) := by
  induction kinds generalizing operands with
  | nil =>
    rw [List.takeWhile_nil, List.map_nil, List.map_eq_nil_iff] at hkinds
    subst hkinds
    exact .nil _
  | cons kind kinds ih =>
    rcases hplain : kind.isPlain with _ | _
    · rw [List.takeWhile_cons_of_neg (by simp [hplain]), List.map_nil, List.map_eq_nil_iff] at hkinds
      subst hkinds
      refine OperandRun.stop_iff.mpr fun bs hbs => ?_
      rw [hbs.isPlain] at hplain
      cases hplain
    · rw [List.takeWhile_cons_of_pos hplain, List.map_cons, List.map_eq_cons_iff] at hkinds
      obtain ⟨i, operands, rfl, hkind, hkinds⟩ := hkinds
      obtain ⟨hi, hoperands⟩ := List.forall_mem_cons.mp h
      rw [List.flatMap_cons, List.append_assoc, List.map_cons]
      exact OperandRun.cons_iff.mpr ⟨hi.spelled hkind, ih hkinds hoperands⟩

namespace Term

/-- The record of a term that starts at offset `pc`. -/
def record (t : Term) (pc : Nat) : Record := .decoded t.descriptor.opcode pc

/-- The segments of terms written one after the other from offset `pc` on. -/
def segments (pc : Nat) : List Term → List Segment
  | [] => []
  | t :: terms => ⟨t.record pc, t.bytes⟩ :: segments (pc + t.bytes.length) terms

variable {t : Term} {terms : List Term}

theorem WellFormed.segment_at (h : t.WellFormed) (pc : Nat) (rest : List UInt8) :
    (Segment.mk (t.record pc) t.bytes).At pc (t.bytes ++ rest) := by
  have hrun := operandRun_of_kinds h.kinds h.operands rest
  rw [bytes, List.append_assoc, List.flatMap_def]
  exact .decoded h.mem rfl hrun

/-- Terms and a tiling of the bytes behind them make a tiling. -/
theorem tiling (h : ∀ t ∈ terms, t.WellFormed) {pc : Nat} {rest : List UInt8} {gs : List Segment}
    (H : Tiling (pc + (terms.flatMap bytes).length) rest gs) :
    Tiling pc (terms.flatMap bytes ++ rest) (segments pc terms ++ gs) := by
  induction terms generalizing pc with
  | nil => exact H
  | cons t terms ih =>
    obtain ⟨ht, hterms⟩ := List.forall_mem_cons.mp h
    rw [List.flatMap_cons, List.length_append, ← Nat.add_assoc] at H
    rw [List.flatMap_cons, List.append_assoc]
    exact .cons (ht.segment_at pc _) rfl (ih hterms H)

theorem map_record_segments (pc : Nat) (terms : List Term) :
    (segments pc terms).map (·.record) =
      terms.mapIdx fun i t => t.record (pc + ((terms.take i).flatMap bytes).length) := by
  induction terms generalizing pc with
  | nil => rfl
  | cons t terms ih =>
    rw [segments, List.map_cons, ih, List.mapIdx_cons]
    simp only [List.take_zero, List.take_succ_cons, List.flatMap_nil, List.flatMap_cons,
      List.length_nil, List.length_append, Nat.add_zero, Nat.add_assoc]

end Term

/-- Terms written one after the other are found by a sweep, in order and each at its offset, whatever
comes after them; and behind them the sweep finds what it would find if the stream started there. -/
theorem sweep_terms (terms : List Term) (h : ∀ t ∈ terms, t.WellFormed) (rest : List UInt8) :
    let written := terms.flatMap Term.bytes
    sweep (written ++ rest) =
      (terms.mapIdx fun i t =>
        .decoded t.descriptor.opcode ((terms.take i).flatMap Term.bytes).length) ++
      (sweep rest).map (Record.shift written.length) := by
  intro written
  obtain ⟨gs, H⟩ := exists_tiling 0 rest
  have Hterms : Tiling 0 (written ++ rest)
      (Term.segments 0 terms ++ gs.map (Segment.shift written.length)) :=
    Term.tiling h (H.shift written.length)
  have hshift : (gs.map (Segment.shift written.length)).map (·.record) =
      (gs.map (·.record)).map (Record.shift written.length) := by
    rw [List.map_map, List.map_map]
    rfl
  rw [Hterms.sweep_eq, List.map_append, Term.map_record_segments, hshift, H.sweep_eq]
  simp only [Nat.zero_add, Term.record]

/-- A string and two numbers made of prefixes, read because of their kinds, and behind them a zero and
the prefix by itself. -/
theorem sweep_terms_of_prefixes :
    let text : Descriptor := ⟨.stringPrefix, .string, Descriptor.Table.constant, .ofKinds [.string]⟩
    let fatal : Descriptor :=
      ⟨.fatalOp, .any, Descriptor.Table.executable, .ofKinds [.byteData, .dWord, .termObj]⟩
    let terms : List Term := [⟨text, [.string "["]⟩,
      ⟨fatal, [.immediate .byteData 0x5b, .immediate .dWord 0x5b5b5b5b]⟩]
    (∀ t ∈ terms, t.WellFormed) ∧
      sweep [0x0d, 0x5b, 0x00, 0x5b, 0x32, 0x5b, 0x5b, 0x5b, 0x5b, 0x5b, 0x00, 0x5b] =
        [.decoded .stringPrefix 0, .decoded .fatalOp 3, .decoded .zeroOp 10,
          .truncatedExtendedOpcode] := by
  intro text fatal terms
  have h : ∀ t ∈ terms, t.WellFormed := by
    simp only [terms, List.forall_mem_cons]
    refine ⟨⟨by decide, by decide, ?_⟩, ⟨by decide, by decide, ?_⟩, by simp⟩
    · simp [Item.WellFormed]
    · simp [Item.WellFormed, OperandKind.immediateWidth?, LittleEndian.fits_iff_lt_pow]
  let zero : Descriptor := ⟨.zeroOp, .integer, Descriptor.Table.constant, .ofKinds []⟩
  have hrun : OperandRun zero.signature.toList [0x5b] [] :=
    (show zero.signature.toList = [] by decide) ▸ .nil _
  have Hrest : Tiling 0 [0x00, 0x5b]
      [⟨.decoded .zeroOp 0, [0x00]⟩, ⟨.truncatedExtendedOpcode, [0x5b]⟩] :=
    .cons (.decoded (by decide : zero ∈ Descriptor.table) rfl hrun) rfl
      (.cons (.truncated rfl) rfl .nil)
  have hwritten : terms.flatMap Term.bytes ++ [0x00, 0x5b] =
    [0x0d, 0x5b, 0x00, 0x5b, 0x32, 0x5b, 0x5b, 0x5b, 0x5b, 0x5b, 0x00, 0x5b] := by decide
  have hsweep : sweep (terms.flatMap Term.bytes ++ [0x00, 0x5b]) = _ :=
    sweep_terms terms h [0x00, 0x5b]
  rw [hwritten, Hrest.sweep_eq] at hsweep
  exact ⟨h, hsweep⟩

end AmlBytecode
