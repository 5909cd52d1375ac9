import AmlBytecode.Item
import AmlBytecode.Proofs.OpcodeLanguage
import Mathlib.Algebra.Group.Nat.Defs

/-! # Reading items

Each kind of item has one read of the cursor, and `Cursor.Reads` says that this read finds a given
item. Main statement: `Cursor.reads_iff`, a read finds an item exactly where the item is well
formed and written at the cursor, and then goes past what is written. Nothing else in the stream
has a say, so writing and reading undo each other item by item. -/

namespace AmlBytecode

/-! ## Numbers, characters and terminated strings -/

theorem LittleEndian.fits_iff_lt_pow {width n : Nat} : Fits width n ↔ n < 256 ^ width := by
  induction width generalizing n with
  | zero => simp [Fits]
  | succ width ih => rw [Fits, ih, Nat.pow_succ, Nat.div_lt_iff_lt_mul (by decide)]

namespace Ascii

theorem toNat_ofUInt8 (b : UInt8) : (Char.ofUInt8 b).toNat = b.toNat := UInt8.toNat_toUInt32 b

theorem toNat_toUInt8 (c : Char) : c.toUInt8.toNat = c.toNat % 256 := UInt32.toNat_toUInt8 c.val

theorem ofUInt8_toUInt8 {c : Char} (h : c.toNat < 256) : Char.ofUInt8 c.toUInt8 = c := by
  apply Char.toNat_inj.mp
  rw [toNat_ofUInt8, toNat_toUInt8, Nat.mod_eq_of_lt h]

theorem decode?_encode {text : String} (h : ∀ c ∈ text.toList, c.toNat < 0x80) :
    decode? (encode text) = some text := by
  have hbytes : (encode text).all (·.toNat < 0x80) = true := by
    simp only [encode, List.all_map, List.all_eq_true, Function.comp_apply, decide_eq_true_eq]
    intro c hc
    rw [toNat_toUInt8]
    exact Nat.lt_of_le_of_lt (Nat.mod_le _ _) (h c hc)
  have hchars : (encode text).map Char.ofUInt8 = text.toList := by
    rw [encode, List.map_map]
    refine (List.map_congr_left fun c hc => ?_).trans (List.map_id _)
    exact ofUInt8_toUInt8 (Nat.lt_trans (h c hc) (by decide))
  rw [decode?, if_pos hbytes, hchars, String.ofList_toList]

/-- Characters other than zero are written as bytes other than zero. -/
theorem of_mem_encode {text : String} (h : ∀ c ∈ text.toList, 0 < c.toNat ∧ c.toNat < 0x80) :
    ∀ b ∈ encode text, b ≠ 0 ∧ b.toNat < 0x80 := by
  intro b hb
  obtain ⟨c, hc, rfl⟩ := List.mem_map.mp hb
  obtain ⟨hpos, hlt⟩ := h c hc
  have hbyte : c.toUInt8.toNat = c.toNat := by
    rw [toNat_toUInt8]
    omega
  refine ⟨fun h0 => ?_, hbyte ▸ hlt⟩
  rw [← hbyte, h0] at hpos
  cases hpos

theorem toNat_lt_of_decode? {bytes : List UInt8} {text : String}
    (h : decode? bytes = some text) {c : Char} (hc : c ∈ text.toList) : c.toNat < 0x80 := by
  unfold decode? at h
  split at h
  case isTrue hall =>
    cases h
    rw [String.toList_ofList] at hc
    obtain ⟨b, hb, rfl⟩ := List.mem_map.mp hc
    rw [toNat_ofUInt8]
    simpa using List.all_eq_true.mp hall b hb
  case isFalse => cases h

theorem exists_decode?_eq_some_iff {bytes : List UInt8} :
    (∃ text, decode? bytes = some text) ↔ ∀ b ∈ bytes, b.toNat < 0x80 := by
  rw [← Option.ne_none_iff_exists', ne_eq, decode?_eq_none_iff]
  simp only [not_exists, not_and, Nat.not_le]

theorem decode?_eq_some_iff {bytes : List UInt8} {text : String} :
    decode? bytes = some text ↔ (∀ c ∈ text.toList, c.toNat < 0x80) ∧ encode text = bytes := by
  refine ⟨fun h => ⟨?_, encode_of_decode? h⟩, fun h => ?_⟩
  · intro c hc
    exact toNat_lt_of_decode? h hc
  · obtain ⟨hascii, rfl⟩ := h
    exact decode?_encode hascii

end Ascii

theorem takeWhile_ne_append {α : Type} [BEq α] [LawfulBEq α] {a : α} {l : List α}
    (h : ∀ b ∈ l, b ≠ a) (rest : List α) : (l ++ a :: rest).takeWhile (· != a) = l := by
  rw [List.takeWhile_append_of_pos (by simpa using h), List.takeWhile_cons_of_neg (by simp),
    List.append_nil]

theorem takeWhile_ne_zero_prefix {bs : List UInt8} (h : 0 ∈ bs) :
    bs.takeWhile (· != 0) ++ [0] <+: bs := by
  induction bs with
  | nil => cases h
  | cons b bs ih =>
    by_cases hb : b = 0
    · subst hb
      exact ⟨bs, rfl⟩
    · rw [List.takeWhile_cons_of_pos (by simpa using hb), List.cons_append, List.cons_prefix_cons]
      exact ⟨rfl, ih (List.mem_of_ne_of_mem (Ne.symm hb) h)⟩

namespace Cursor

variable {c c' : Cursor}

theorem string_eq_ok_iff_encode {text : String} :
    c.string = (.ok text, c') ↔
      (∀ ch ∈ text.toList, 0 < ch.toNat ∧ ch.toNat < 0x80) ∧
        Ascii.encode text ++ [0] <+: c.remaining ∧
          c' = c.advance ((Ascii.encode text).length + 1) := by
  rw [string_eq_ok_iff, Ascii.decode?_eq_some_iff]
  refine ⟨fun h => ?_, fun h => ?_⟩
  · obtain ⟨hzero, ⟨hascii, hencode⟩, rfl⟩ := h
    refine ⟨fun ch hch => ⟨?_, hascii ch hch⟩, ?_, by rw [hencode]⟩
    · -- the bytes of the text stand before the first zero, so none of them is zero
      have hmem : ch.toUInt8 ∈ c.remaining.takeWhile (· != 0) :=
        hencode ▸ List.mem_map_of_mem hch
      have hne : ch.toUInt8 ≠ 0 := by
        simpa using List.all_eq_true.mp List.all_takeWhile _ hmem
      refine Nat.pos_of_ne_zero fun h0 => hne (UInt8.toNat_inj.mp ?_)
      rw [Ascii.toNat_toUInt8, h0]
      rfl
    · rw [hencode]
      exact takeWhile_ne_zero_prefix hzero
  · obtain ⟨hchars, ⟨rest, hrest⟩, rfl⟩ := h
    have hne : ∀ b ∈ Ascii.encode text, b ≠ 0 := fun b hb => (Ascii.of_mem_encode hchars b hb).1
    have hremaining : c.remaining = Ascii.encode text ++ 0 :: rest := by
      rw [← hrest, List.append_assoc, List.singleton_append]
    rw [hremaining, takeWhile_ne_append hne]
    exact ⟨by simp, ⟨fun ch hch => (hchars ch hch).2, rfl⟩, rfl⟩

theorem immediate_eq_ok_iff_bytes {kind : OperandKind} {n : Nat} :
    c.immediate kind = (.ok n, c') ↔
      ∃ width, kind.immediateWidth? = some width ∧ LittleEndian.Fits width n ∧
        LittleEndian.bytes width n <+: c.remaining ∧ c' = c.advance width := by
  rw [immediate_eq_ok_iff]
  refine ⟨fun h => ?_, fun h => ?_⟩
  · obtain ⟨width, hwidth, hle, rfl, rfl⟩ := h
    have hlength : (c.remaining.take width).length = width := List.length_take_of_le hle
    have hbytes := LittleEndian.bytes_value (c.remaining.take width)
    rw [hlength] at hbytes
    refine ⟨width, hwidth, LittleEndian.fits_value (Nat.le_of_eq hlength), ?_, rfl⟩
    rw [hbytes]
    exact List.take_prefix _ _
  · obtain ⟨width, hwidth, hfits, hprefix, rfl⟩ := h
    have htake := List.prefix_iff_eq_take.mp hprefix
    rw [LittleEndian.length_bytes] at htake
    refine ⟨width, hwidth, ?_, ?_, rfl⟩
    · simpa using hprefix.length_le
    · rw [← htake, LittleEndian.value_bytes hfits]

theorem next_eq_ok_iff_prefix {b : UInt8} :
    c.next = (.ok b, c') ↔ [b] <+: c.remaining ∧ c' = c.advance 1 := by
  have hhead : c.bytes[c.pc]? = some b ↔ [b] <+: c.remaining := by
    rw [← Nat.add_zero c.pc, ← getElem?_remaining, ← List.head?_eq_getElem?]
    rcases c.remaining with _ | ⟨b', rest⟩
    · simp
    · simp [eq_comm]
  rw [next_eq_ok_iff, hhead]

/-! ## Items -/

/-- The read that belongs to the item finds it at `c` and goes on to `c'`. -/
def Reads (c : Cursor) (i : Item) (c' : Cursor) : Prop :=
  match i with
  | .opcode d => c.nextOpcode.value = (.ok d, c')
  | .immediate kind n => c.immediate kind = (.ok n, c')
  | .string text => c.string = (.ok text, c')
  | .byte b => c.next = (.ok b, c')

/-- An item is read exactly where it is written, and read past as far as it is written. -/
theorem reads_iff {i : Item} :
    c.Reads i c' ↔
      i.WellFormed ∧ i.bytes <+: c.remaining ∧ c' = c.advance i.bytes.length := by
  cases i with
  | opcode d =>
    simp only [Reads, Item.WellFormed, Item.bytes, Encoding.length_bytes]
    exact nextOpcode_eq_ok_iff
  | immediate kind n =>
    simp only [Reads, Item.WellFormed, Item.bytes, immediate_eq_ok_iff_bytes,
      LittleEndian.length_bytes]
    refine ⟨fun h => ?_, fun h => ?_⟩
    · obtain ⟨width, hwidth, hfits, hprefix, hc'⟩ := h
      rw [hwidth]
      exact ⟨⟨width, rfl, hfits⟩, hprefix, hc'⟩
    · obtain ⟨⟨width, hwidth, hfits⟩, hprefix, hc'⟩ := h
      rw [hwidth] at hprefix hc'
      exact ⟨width, hwidth, hfits, hprefix, hc'⟩
  | string text =>
    simp only [Reads, Item.WellFormed, Item.bytes, List.length_append, List.length_singleton]
    exact string_eq_ok_iff_encode
  | byte b =>
    simp only [Reads, Item.WellFormed, Item.bytes, List.length_singleton, true_and]
    exact next_eq_ok_iff_prefix

end Cursor

end AmlBytecode
