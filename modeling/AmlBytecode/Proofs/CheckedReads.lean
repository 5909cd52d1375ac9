import AmlBytecode.Session
import AmlBytecode.Proofs.ItemReading

/-! # Reads with every access checked

The readers of signatures and the reads of a cursor written once more, so that each access can go
wrong: a slice, an index, a range of bits or a position in the table may be out of range, and a sum
or a product may be too large for a word of 64 bits. Main statements: the readers of a signature
have no such fault (`Signature.checkedToList_eq`), nor has any read of a cursor that stands in its
stream or at its end (`Cursor.checkedString_eq` and its like), and the results are as before; and
where a read leads, the cursor still stands in the stream (`Cursor.Reads.within`). -/

namespace AmlBytecode

/-! ## Accesses -/

/-- What can go wrong on the way to a result. -/
inductive Fault
  /-- A slice, an index or a range of bits past the end of what it is taken from. -/
  | outOfRange
  /-- A sum or a product that a word of 64 bits cannot hold. -/
  | overflow
  /-- A loop that is not done after as many rounds as it may take. -/
  | unfinished
deriving DecidableEq

/-- A result, if nothing went wrong on the way to it. -/
abbrev Checked := Except Fault

namespace Checked

def add (m n : Nat) : Checked Nat :=
  if m + n < UInt64.size then .ok (m + n) else .error .overflow

def mul (m n : Nat) : Checked Nat :=
  if m * n < UInt64.size then .ok (m * n) else .error .overflow

/-- The elements from index `n` on. -/
def sliceFrom (bs : List UInt8) (n : Nat) : Checked (List UInt8) :=
  if n ≤ bs.length then .ok (bs.drop n) else .error .outOfRange

/-- The elements before index `n`. -/
def sliceTo (bs : List UInt8) (n : Nat) : Checked (List UInt8) :=
  if n ≤ bs.length then .ok (bs.take n) else .error .outOfRange

/-- The little-endian number of a width in some bytes. There is one reader for each of the widths
one, two and four; for every other width eight bytes are read. -/
def number (bs : List UInt8) : (width : Nat) → Checked Nat
  | 1 => LittleEndian.value <$> sliceTo bs 1
  | 2 => LittleEndian.value <$> sliceTo bs 2
  | 4 => LittleEndian.value <$> sliceTo bs 4
  | _ => LittleEndian.value <$> sliceTo bs 8

theorem add_eq {m n : Nat} (h : m + n < UInt64.size) : add m n = .ok (m + n) := if_pos h

theorem mul_eq {m n : Nat} (h : m * n < UInt64.size) : mul m n = .ok (m * n) := if_pos h

theorem sliceFrom_eq {bs : List UInt8} {n : Nat} (h : n ≤ bs.length) :
    sliceFrom bs n = .ok (bs.drop n) := if_pos h

theorem sliceTo_eq {bs : List UInt8} {n : Nat} (h : n ≤ bs.length) :
    sliceTo bs n = .ok (bs.take n) := if_pos h

@[simp] theorem ok_bind {α β : Type} (a : α) (f : α → Checked β) :
    ((.ok a : Checked α) >>= f) = f a := rfl

/-- A kind of operand whose width is the number of the bytes has a reader for all of them. -/
theorem number_eq {kind : OperandKind} {bs : List UInt8} {width : Nat}
    (h : kind.immediateWidth? = some width) (hlength : bs.length = width) :
    number bs width = .ok (LittleEndian.value bs) := by
  have hslice : LittleEndian.value <$> sliceTo bs width = .ok (LittleEndian.value bs) := by
    rw [sliceTo_eq (Nat.le_of_eq hlength.symm), ← hlength, List.take_length]
    rfl
  cases kind <;> cases h <;> exact hslice

section

variable {α β : Type} {l : List α}

theorem anyM_eq {p : α → Checked Bool} {q : α → Bool} (h : ∀ a ∈ l, p a = .ok (q a)) :
    l.anyM p = .ok (l.any q) := by
  induction l with
  | nil => rfl
  | cons a l ih =>
    obtain ⟨ha, hl⟩ := List.forall_mem_cons.mp h
    rw [List.anyM_cons, ha, ok_bind, ih hl, List.any_cons]
    cases q a <;> rfl

theorem filterMapM_eq {f : α → Checked (Option β)} {g : α → Option β}
    (h : ∀ a ∈ l, f a = .ok (g a)) : l.filterMapM f = .ok (l.filterMap g) := by
  induction l with
  | nil => rfl
  | cons a l ih =>
    obtain ⟨ha, hl⟩ := List.forall_mem_cons.mp h
    rw [List.filterMapM_cons, ha, ok_bind, ih hl, List.filterMap_cons]
    cases g a <;> rfl

end

end Checked

/-! ## Signatures -/

namespace Signature

/-- The code in slot `n`: four bits from bit `8 * n` on. -/
def checkedSlot (s : Signature) (n : Nat) : Checked UInt8 := do
  let stop ← Checked.add (← Checked.mul n 8) 4
  if stop ≤ 64 then return s.slot n else .error .outOfRange

/-- How many slots from slot `n` on, and no more than `left`, precede the first empty one. -/
def checkedCountFrom (s : Signature) : (left n : Nat) → Checked Nat
  | 0, _ => .ok 0
  | left + 1, n => do
    if (← s.checkedSlot n) ≠ 0 then return (← s.checkedCountFrom left (n + 1)) + 1 else return 0

def checkedGet? (s : Signature) (n : Nat) : Checked (Option OperandKind) :=
  if n < capacity then do
    if ← (List.range n).anyM fun i => (· == 0) <$> s.checkedSlot i then return none
    else return OperandKind.ofCode? (← s.checkedSlot n)
  else .ok none

def checkedToList (s : Signature) : Checked (List OperandKind) := do
  (List.range (← s.checkedCountFrom capacity 0)).filterMapM s.checkedGet?

theorem checkedSlot_eq (s : Signature) {n : Nat} (h : n < capacity) :
    s.checkedSlot n = .ok (s.slot n) := by
  unfold capacity at h
  have hmul : Checked.mul n 8 = .ok (n * 8) :=
    Checked.mul_eq (Nat.lt_trans (show n * 8 < 64 by omega) (by decide))
  have hadd : Checked.add (n * 8) 4 = .ok (n * 8 + 4) :=
    Checked.add_eq (Nat.lt_trans (show n * 8 + 4 < 64 by omega) (by decide))
  have hstop : n * 8 + 4 ≤ 64 := by omega
  rw [checkedSlot, hmul, Checked.ok_bind, hadd, Checked.ok_bind, if_pos hstop]
  rfl

theorem checkedCountFrom_eq (s : Signature) {left n : Nat} (h : n + left ≤ capacity) :
    s.checkedCountFrom left n =
      .ok ((List.range' n left).takeWhile fun i => s.slot i ≠ 0).length := by
  induction left generalizing n with
  | zero => rfl
  | succ left ih =>
    have hn : n < capacity := by omega
    rw [checkedCountFrom, s.checkedSlot_eq hn, Checked.ok_bind, List.range'_succ,
      List.takeWhile_cons]
    by_cases hslot : s.slot n = 0
    · rw [if_neg (not_not_intro hslot), if_neg (by simpa using hslot)]
      rfl
    · rw [if_pos hslot, ih (by omega), if_pos (by simpa using hslot)]
      rfl

theorem checkedGet?_eq (s : Signature) (n : Nat) : s.checkedGet? n = .ok (s.get? n) := by
  unfold checkedGet? get?
  split
  case isFalse => rfl
  case isTrue hn =>
    have hany : (List.range n).anyM (fun i => (· == 0) <$> s.checkedSlot i) =
        .ok ((List.range n).any fun i => s.slot i == 0) := by
      refine Checked.anyM_eq fun i hi => ?_
      rw [s.checkedSlot_eq (Nat.lt_trans (List.mem_range.mp hi) hn)]
      rfl
    rw [hany, Checked.ok_bind, s.checkedSlot_eq hn]
    by_cases h : ∀ i < n, s.slot i ≠ 0
    · have hnone : ((List.range n).any fun i => s.slot i == 0) = false := by simpa using h
      rw [hnone, if_pos h]
      rfl
    · have hsome : ((List.range n).any fun i => s.slot i == 0) = true := by simpa using h
      rw [hsome, if_neg h]
      rfl

theorem checkedToList_eq (s : Signature) : s.checkedToList = .ok s.toList := by
  rw [checkedToList, s.checkedCountFrom_eq (by decide), Checked.ok_bind,
    ← List.range_eq_range', Checked.filterMapM_eq fun n _ => s.checkedGet?_eq n]
  rfl

end Signature

/-- The first zero of some bytes comes right after those that are not zero. -/
theorem takeWhile_ne_zero_of_findIdx? {bs : List UInt8} {n : Nat}
    (h : bs.findIdx? (· == 0) = some n) :
    0 ∈ bs ∧ n < bs.length ∧ bs.takeWhile (· != 0) = bs.take n := by
  obtain ⟨hlt, hfirst⟩ := List.findIdx?_eq_some_iff_findIdx_eq.mp h
  refine ⟨?_, hlt, ?_⟩
  · obtain ⟨b, hb, hzero⟩ := List.findIdx_lt_length.mp (hfirst ▸ hlt)
    exact eq_of_beq hzero ▸ hb
  · rw [List.takeWhile_eq_take_findIdx_not, ← hfirst]
    simp only [bne, Bool.not_not]

/-! ## Reads -/

/-- The entry of the table with a given written form. A position in the byte map has to be one of
the table. -/
def Encoding.checkedDescriptor? (e : Encoding) : Checked (Option Descriptor) :=
  match e.space.byteMap.lookup e.byte with
  | none => .ok none
  | some i =>
    match Descriptor.atPosition? i.toNat with
    | some d => .ok (some d)
    | none => .error .outOfRange

def Descriptor.checkedResolve (byte : UInt8) (next : Option UInt8) :
    Checked (Traced (Except DecodeError Descriptor)) :=
  if byte = Encoding.extendedPrefix then
    match next with
    | none => .ok ⟨.error .truncatedExtendedOpcode, [.truncatedExtendedOpcode]⟩
    | some b => do
      match ← (Encoding.extended b).checkedDescriptor? with
      | some d => return ⟨.ok d, []⟩
      | none => return ⟨.error (.illegalExtendedOpcode b), [.illegalExtendedOpcode b]⟩
  else do
    match ← (Encoding.primary byte).checkedDescriptor? with
    | some d => return ⟨.ok d, []⟩
    | none => return ⟨.error (.illegalOpcode byte), [.illegalOpcode byte]⟩

namespace Cursor

def checkedAdvance (c : Cursor) (n : Nat) : Checked Cursor := do
  return { c with pc := ← Checked.add c.pc n }

def checkedRemaining (c : Cursor) : Checked (List UInt8) := Checked.sliceFrom c.bytes c.pc

def checkedNext (c : Cursor) : Checked (Except DecodeError UInt8 × Cursor) :=
  match c.peek with
  | .ok b => do return (.ok b, ← c.checkedAdvance 1)
  | .error e => .ok (.error e, c)

def checkedTake (c : Cursor) (n : Nat) : Checked (Except DecodeError (List UInt8) × Cursor) := do
  let rest ← c.checkedRemaining
  if n ≤ rest.length then return (.ok (rest.take n), ← c.checkedAdvance n)
  else return (.error .endOfStream, c)

def checkedNextOpcode (c : Cursor) :
    Checked (Traced (Except DecodeError Descriptor × Cursor)) :=
  match c.peek with
  | .error e => .ok ⟨(.error e, c), []⟩
  | .ok b => do
    let after ← Checked.add c.pc 1
    match ← Descriptor.checkedResolve b c.bytes[after]? with
    | ⟨.error e, trace⟩ => return ⟨(.error e, c), trace⟩
    | ⟨.ok d, trace⟩ =>
      return ⟨(.ok d, ← c.checkedAdvance d.encodedLength), trace ++ [.decoded d.opcode c.pc]⟩

def checkedImmediate (c : Cursor) (kind : OperandKind) :
    Checked (Except DecodeError Nat × Cursor) :=
  match kind.immediateWidth? with
  | none => .ok (.error (.notAnImmediate kind), c)
  | some width => do
    match ← c.checkedTake width with
    | (.ok bs, c') => return (.ok (← Checked.number bs width), c')
    | (.error e, c') => return (.error e, c')

def checkedString (c : Cursor) : Checked (Except DecodeError String × Cursor) := do
  let rest ← c.checkedRemaining
  match rest.findIdx? (· == 0) with
  | none => return (.error .endOfStream, c)
  | some length =>
    match Ascii.decode? (← Checked.sliceTo rest length) with
    | none => return (.error .invalidString, c)
    | some text => return (.ok text, ← c.checkedAdvance (← Checked.add length 1))

end Cursor

theorem Encoding.checkedDescriptor?_eq (e : Encoding) :
    e.checkedDescriptor? = .ok e.descriptor? := by
  rcases hi : e.space.byteMap.lookup e.byte with _ | i
  · simp only [checkedDescriptor?, descriptor?, hi, Option.bind_none]
  · -- the byte map holds only positions of entries
    obtain ⟨d, hd, -⟩ := (ByteMap.lookup_ofTable_eq_some_iff Descriptor.length_table_le
      Descriptor.nodup_encodings).mp (Space.byteMap_eq_ofTable _ ▸ hi)
    have hd' : Descriptor.atPosition? i.toNat = some d := hd
    simp only [checkedDescriptor?, descriptor?, hi, Option.bind_some, hd']

theorem Descriptor.checkedResolve_eq (b : UInt8) (next : Option UInt8) :
    checkedResolve b next = .ok (resolve b next) := by
  unfold checkedResolve resolve
  split
  · rcases next with _ | b
    · rfl
    · simp only [Encoding.checkedDescriptor?_eq]
      rcases (Encoding.extended b).descriptor? with _ | d <;> rfl
  · simp only [Encoding.checkedDescriptor?_eq]
    rcases (Encoding.primary b).descriptor? with _ | d <;> rfl

namespace Cursor

variable {c c' : Cursor} {stream : List UInt8}

/-- The cursor is over the given stream, and stands in it or at its end. -/
structure Within (c : Cursor) (stream : List UInt8) : Prop where
  bytes_eq : c.bytes = stream
  pc_le : c.pc ≤ stream.length

namespace Within

theorem start (stream : List UInt8) : (Cursor.start stream).Within stream :=
  ⟨rfl, Nat.zero_le _⟩

theorem pc_add_length_remaining (H : c.Within stream) :
    c.pc + c.remaining.length = stream.length := by
  rw [length_remaining, H.bytes_eq]
  exact Nat.add_sub_cancel' H.pc_le

theorem advance (H : c.Within stream) {n : Nat} (h : n ≤ c.remaining.length) :
    (c.advance n).Within stream := by
  refine ⟨H.bytes_eq, ?_⟩
  rw [← H.pc_add_length_remaining]
  exact Nat.add_le_add_left h _

end Within

/-- What is read is in the rest of the stream. -/
theorem Reads.length_le {i : Item} (h : c.Reads i c') : i.bytes.length ≤ c.remaining.length :=
  (reads_iff.mp h).2.1.length_le

theorem Reads.within {i : Item} (h : c.Reads i c') (H : c.Within stream) : c'.Within stream := by
  rw [(reads_iff.mp h).2.2]
  exact H.advance h.length_le

section

variable (H : c.Within stream) (hword : stream.length < UInt64.size)
include H hword

theorem checkedAdd_eq {n : Nat} (h : n ≤ c.remaining.length) :
    Checked.add c.pc n = .ok (c.pc + n) := by
  apply Checked.add_eq
  have hlength := H.pc_add_length_remaining
  omega

theorem checkedAdvance_eq {n : Nat} (h : n ≤ c.remaining.length) :
    c.checkedAdvance n = .ok (c.advance n) := by
  rw [checkedAdvance, checkedAdd_eq H hword h]
  rfl

omit hword in
theorem checkedRemaining_eq : c.checkedRemaining = .ok c.remaining :=
  Checked.sliceFrom_eq (H.bytes_eq ▸ H.pc_le)

theorem checkedNext_eq : c.checkedNext = .ok c.next := by
  rcases hrest : c.remaining with _ | ⟨b, rest⟩
  · rw [checkedNext, next, peek_of_nil hrest]
  · have hle : 1 ≤ c.remaining.length := by simp [hrest]
    rw [checkedNext, next_of_cons hrest, peek_of_cons hrest]
    simp only [checkedAdvance_eq H hword hle, Checked.ok_bind]
    rfl

theorem checkedTake_eq (n : Nat) : c.checkedTake n = .ok (c.take n) := by
  simp only [checkedTake, take, checkedRemaining_eq H, Checked.ok_bind]
  split
  case isTrue h =>
    simp only [checkedAdvance_eq H hword h, Checked.ok_bind]
    rfl
  case isFalse => rfl

theorem checkedNextOpcode_eq : c.checkedNextOpcode = .ok c.nextOpcode := by
  rcases hrest : c.remaining with _ | ⟨b, rest⟩
  · rw [checkedNextOpcode, nextOpcode_of_nil hrest, peek_of_nil hrest]
  · have hle : 1 ≤ c.remaining.length := by simp [hrest]
    rw [checkedNextOpcode, peek_of_cons hrest]
    simp only [checkedAdd_eq H hword hle, Descriptor.checkedResolve_eq, Checked.ok_bind,
      getElem?_succ_of_cons hrest]
    rcases hresolve : Descriptor.resolve b rest.head? with ⟨e | d, trace⟩
    · rw [nextOpcode_of_resolve_error hrest hresolve]
      rfl
    · have hop := nextOpcode_of_resolve_ok hrest hresolve
      have hreads : c.Reads (.opcode d) (c.advance d.encodedLength) := congrArg Traced.value hop
      have hle' : d.encodedLength ≤ c.remaining.length := by
        rw [Descriptor.encodedLength, ← Encoding.length_bytes]
        exact hreads.length_le
      simp only [hop, checkedAdvance_eq H hword hle', Checked.ok_bind]
      rfl

theorem checkedImmediate_eq (kind : OperandKind) :
    c.checkedImmediate kind = .ok (c.immediate kind) := by
  rcases hwidth : kind.immediateWidth? with _ | width
  · simp only [checkedImmediate, immediate, hwidth]
  · simp only [checkedImmediate, immediate, hwidth, checkedTake_eq H hword, Checked.ok_bind]
    rcases htake : c.take width with ⟨e | bs, c'⟩
    · rfl
    · obtain ⟨hle, rfl, -⟩ := take_eq_ok_iff.mp htake
      simp only [Checked.number_eq hwidth (List.length_take_of_le hle), Checked.ok_bind]
      rfl

theorem checkedString_eq : c.checkedString = .ok c.string := by
  simp only [checkedString, checkedRemaining_eq H, Checked.ok_bind]
  rcases hidx : c.remaining.findIdx? (· == 0) with _ | length
  · have hzero : 0 ∉ c.remaining := fun h => by
      simpa using List.findIdx?_eq_none_iff.mp hidx 0 h
    rw [string, if_neg hzero]
    rfl
  · obtain ⟨hzero, hlt, htext⟩ := takeWhile_ne_zero_of_findIdx? hidx
    have hlength : (c.remaining.take length).length = length :=
      List.length_take_of_le (Nat.le_of_lt hlt)
    have hsum : Checked.add length 1 = .ok (length + 1) := by
      apply Checked.add_eq
      have hremaining := H.pc_add_length_remaining
      omega
    simp only [Checked.sliceTo_eq (Nat.le_of_lt hlt), Checked.ok_bind]
    rcases htext' : Ascii.decode? (c.remaining.take length) with _ | text
    · simp only [string, if_pos hzero, htext, htext']
      rfl
    · simp only [string, if_pos hzero, htext, htext', hlength, hsum, Checked.ok_bind,
        checkedAdvance_eq H hword hlt]
      rfl

end

end Cursor

end AmlBytecode
