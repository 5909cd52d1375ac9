import AmlBytecode.Signature
import Mathlib.Data.List.Basic
import Mathlib.Data.Nat.Find

/-! # The readers of a signature agree

The operands of a signature are counted, looked up by place, listed and searched for by four readers,
and each of them looks for the end of the list in its own way. On every word, also on one that `ofKinds`
does not build, they read the same list of kinds: those in the slots before the first empty one
(`Signature.lt_count_iff`, `Signature.get?_eq_some_iff`). Main statement: `Signature.readers_agree`. -/

namespace AmlBytecode

/-- Every code of four bits except zero stands for a kind. -/
theorem OperandKind.exists_code_eq {c : UInt8} (h : c.toNat < 16) (hne : c ≠ 0) :
    ∃ k : OperandKind, k.code = c := by
  have hcodes : ∀ n < 16, n ≠ 0 → ∃ k ∈ all, k.code = UInt8.ofNat n := by decide
  have hn : c.toNat ≠ 0 := fun h0 => hne (UInt8.toNat_inj.mp h0)
  obtain ⟨k, -, hk⟩ := hcodes c.toNat h hn
  exact ⟨k, by rw [hk, UInt8.ofNat_toNat]⟩

theorem OperandKind.code_ne_zero (k : OperandKind) : k.code ≠ 0 := UInt8.pos_iff_ne_zero.mp k.code_pos

theorem OperandKind.code_injective : Function.Injective code := fun k k' h =>
  Option.some.inj (by rw [← ofCode?_code k, h, ofCode?_code])

/-- Byte `n` of a number, counted from the least significant one. -/
theorem LittleEndian.toNat_getD_bytes {width n : Nat} (m : Nat) (h : n < width) :
    ((bytes width m).getD n 0).toNat = (m >>> (8 * n)) % 256 := by
  induction width generalizing m n with
  | zero => cases h
  | succ width ih =>
    cases n with
    | zero => simp [bytes]
    | succ n =>
      have hdiv : m / 256 = m >>> 8 := (Nat.shiftRight_eq_div_pow m 8).symm
      rw [bytes, List.getD_cons_succ, ih (m / 256) (Nat.lt_of_succ_lt_succ h), hdiv,
        ← Nat.shiftRight_add, Nat.mul_succ, Nat.add_comm]

namespace Signature

variable {s : Signature} {n : Nat} {k : OperandKind}

/-! ## Slots -/

theorem toNat_slot (s : Signature) (h : n < 8) :
    (s.slot n).toNat = (s.word.toNat >>> (8 * n)) % 16 := by
  have hmask : (0x0f : UInt8).toNat = 2 ^ 4 - 1 := rfl
  rw [slot, UInt8.toNat_and, LittleEndian.toNat_getD_bytes _ h, hmask, Nat.and_two_pow_sub_one_eq_mod]
  omega

theorem slot_lt (s : Signature) (n : Nat) : (s.slot n).toNat < 16 := by
  rw [slot, UInt8.toNat_and]
  exact Nat.lt_succ_of_le Nat.and_le_right

theorem exists_code_eq_slot (h : s.slot n ≠ 0) : ∃ k : OperandKind, k.code = s.slot n :=
  OperandKind.exists_code_eq (s.slot_lt n) h

/-! ## Counting and looking up -/

theorem lt_count_iff : n < s.count ↔ n < capacity ∧ ∀ i ≤ n, s.slot i ≠ 0 := by
  rw [count, List.takeWhile_eq_take_findIdx_not, List.length_take, List.length_range, Nat.lt_min,
    List.lt_findIdx_iff, and_comm]
  simp only [List.getElem_range, List.length_range, ne_eq, decide_not, Bool.not_not,
    decide_eq_false_iff_not, exists_prop, and_self_left]

theorem count_le (s : Signature) : s.count ≤ capacity := by
  refine Nat.le_of_not_lt fun h => ?_
  rw [lt_count_iff] at h
  exact Nat.lt_irrefl _ h.1

/-- A slot with the code of a kind is counted if no empty slot precedes it. -/
theorem lt_count_of_slot_eq (hn : n < capacity) (hbefore : ∀ i < n, s.slot i ≠ 0)
    (hcode : s.slot n = k.code) : n < s.count := by
  rw [lt_count_iff]
  refine ⟨hn, fun i hi => ?_⟩
  rcases Nat.lt_or_eq_of_le hi with hlt | rfl
  · exact hbefore i hlt
  · exact hcode ▸ k.code_ne_zero

theorem get?_eq_some_iff : s.get? n = some k ↔ n < s.count ∧ k.code = s.slot n := by
  refine ⟨fun h => ?_, fun h => ?_⟩
  · rw [get?, Option.ite_none_right_eq_some, Option.ite_none_right_eq_some,
      OperandKind.ofCode?_eq_some_iff] at h
    obtain ⟨hn, hbefore, hcode⟩ := h
    exact ⟨lt_count_of_slot_eq hn hbefore hcode.symm, hcode⟩
  · rw [lt_count_iff] at h
    obtain ⟨⟨hn, hslots⟩, hcode⟩ := h
    rw [get?, if_pos hn, if_pos fun i hi => hslots i (Nat.le_of_lt hi), ← hcode]
    exact k.ofCode?_code

theorem isSome_get?_iff : (s.get? n).isSome = true ↔ n < s.count := by
  simp only [Option.isSome_iff_exists, get?_eq_some_iff, exists_and_left, and_iff_left_iff_imp]
  intro h
  rw [lt_count_iff] at h
  exact exists_code_eq_slot (h.2 n (Nat.le_refl n))

/-! ## Listing -/

/-- A place that is counted holds a kind, so listing leaves none out. -/
theorem map_some_toList (s : Signature) : s.toList.map some = (List.range s.count).map s.get? := by
  rw [toList, List.map_filterMap_some_eq_filter_map_isSome, List.filter_eq_self]
  intro found hfound
  obtain ⟨n, hn, rfl⟩ := List.mem_map.mp hfound
  rw [isSome_get?_iff]
  exact List.mem_range.mp hn

theorem length_toList (s : Signature) : s.toList.length = s.count := by
  simpa using congrArg List.length s.map_some_toList

theorem getElem?_toList (s : Signature) (n : Nat) : s.toList[n]? = s.get? n := by
  ext k
  rcases Nat.lt_or_ge n s.count with h | h
  · have hplace := congrArg (·[n]?) s.map_some_toList
    simp only [List.getElem?_map, List.getElem?_range h, Option.map_some] at hplace
    obtain ⟨k', hk', hget⟩ := Option.map_eq_some_iff.mp hplace
    rw [hk', ← hget]
  · have hnone : ¬(s.get? n).isSome = true := by
      rw [isSome_get?_iff]
      exact Nat.not_lt_of_le h
    rw [List.getElem?_eq_none (s.length_toList ▸ h), Option.not_isSome_iff_eq_none.mp hnone]

theorem mem_toList_iff : k ∈ s.toList ↔ ∃ n < s.count, s.get? n = some k := by
  simp only [List.mem_iff_getElem?, getElem?_toList]
  refine exists_congr fun n => (and_iff_right_of_imp fun hk => ?_).symm
  rw [get?_eq_some_iff] at hk
  exact hk.1

/-! ## Searching -/

theorem contains_eq_true_iff : s.contains k = true ↔
    ∃ n < capacity, s.slot n = k.code ∧ ∀ i < n, s.slot i ≠ 0 ∧ s.slot i ≠ k.code := by
  simp only [contains, Option.any_eq_true, List.find?_range_eq_some, List.mem_range,
    decide_eq_true_eq, Bool.not_eq_true', decide_eq_false_iff_not, not_or]
  refine exists_congr fun n => ⟨fun h => ?_, fun h => ?_⟩
  · obtain ⟨⟨-, hn, hbefore⟩, hcode⟩ := h
    exact ⟨hn, hcode, hbefore⟩
  · obtain ⟨hn, hcode, hbefore⟩ := h
    exact ⟨⟨.inr hcode, hn, hbefore⟩, hcode⟩

/-- The search ends at the first slot with the code, which no empty slot precedes. -/
theorem contains_iff_mem : s.contains k = true ↔ k ∈ s.toList := by
  simp only [contains_eq_true_iff, mem_toList_iff, get?_eq_some_iff]
  refine ⟨fun h => ?_, fun h => ?_⟩
  · obtain ⟨n, hn, hcode, hbefore⟩ := h
    have hlt := lt_count_of_slot_eq hn (fun i hi => (hbefore i hi).1) hcode
    exact ⟨n, hlt, hlt, hcode.symm⟩
  · obtain ⟨n, hn, -, hcode⟩ := h
    rw [lt_count_iff] at hn
    obtain ⟨hcap, hslots⟩ := hn
    have hplace : ∃ m, s.slot m = k.code := ⟨n, hcode.symm⟩
    have hle : Nat.find hplace ≤ n := Nat.find_min' hplace hcode.symm
    refine ⟨Nat.find hplace, Nat.lt_of_le_of_lt hle hcap, Nat.find_spec hplace, fun i hi => ?_⟩
    exact ⟨hslots i (Nat.le_trans (Nat.le_of_lt hi) hle), Nat.find_min hplace hi⟩

/-! ## Packed lists -/

section

variable {kinds : List OperandKind} (h : kinds.length ≤ capacity)

theorem slot_ofKinds_of_getElem? (hn : kinds[n]? = some k) : (ofKinds kinds h).slot n = k.code := by
  rw [slot_ofKinds, hn]
  rfl

theorem slot_ofKinds_ne_zero_iff : (ofKinds kinds h).slot n ≠ 0 ↔ n < kinds.length := by
  refine ⟨fun hslot => Nat.lt_of_not_le fun hle => ?_, fun hlt => ?_⟩
  · apply hslot
    rw [slot_ofKinds, List.getElem?_eq_none hle]
    rfl
  · rw [slot_ofKinds_of_getElem? h (List.getElem?_eq_getElem hlt)]
    exact OperandKind.code_ne_zero _

theorem lt_count_ofKinds_iff : n < (ofKinds kinds h).count ↔ n < kinds.length := by
  simp only [lt_count_iff, slot_ofKinds_ne_zero_iff]
  exact ⟨fun hn => hn.2 n (Nat.le_refl n), fun hn =>
    ⟨Nat.lt_of_lt_of_le hn h, fun i hi => Nat.lt_of_le_of_lt hi hn⟩⟩

theorem count_ofKinds : (ofKinds kinds h).count = kinds.length := by
  apply Nat.le_antisymm
  · exact Nat.le_of_not_lt fun hlt => Nat.lt_irrefl _ ((lt_count_ofKinds_iff h).mp hlt)
  · exact Nat.le_of_not_lt fun hlt => Nat.lt_irrefl _ ((lt_count_ofKinds_iff h).mpr hlt)

theorem get?_ofKinds (n : Nat) : (ofKinds kinds h).get? n = kinds[n]? := by
  ext k
  rw [get?_eq_some_iff, count_ofKinds]
  refine ⟨fun hk => ?_, fun hk => ?_⟩
  · obtain ⟨hn, hcode⟩ := hk
    have hget := List.getElem?_eq_getElem hn
    rw [slot_ofKinds_of_getElem? h hget] at hcode
    rw [hget, Option.some_inj, OperandKind.code_injective hcode]
  · exact ⟨(List.getElem?_eq_some_iff.mp hk).1, (slot_ofKinds_of_getElem? h hk).symm⟩

theorem toList_ofKinds : (ofKinds kinds h).toList = kinds :=
  List.ext_getElem? fun n => by rw [getElem?_toList, get?_ofKinds]

end

/-- Some list of kinds packs to the word. -/
def Packed (s : Signature) : Prop := ∃ kinds, ∃ h : kinds.length ≤ capacity, s = ofKinds kinds h

theorem ofKinds_toList_eq_iff (h : s.toList.length ≤ capacity) :
    ofKinds s.toList h = s ↔ s.Packed := by
  refine ⟨fun hs => ⟨s.toList, h, hs.symm⟩, fun H => ?_⟩
  obtain ⟨kinds, hkinds, rfl⟩ := H
  simp only [toList_ofKinds]

/-! ## All readers -/

section

variable {s' : Signature} (h : s.toList = s'.toList)
include h

theorem count_eq_of_toList_eq : s.count = s'.count := by
  rw [← length_toList, ← length_toList, h]

theorem get?_eq_of_toList_eq : s.get? = s'.get? := by
  funext n
  rw [← getElem?_toList, ← getElem?_toList, h]

theorem contains_eq_of_toList_eq : s.contains = s'.contains := by
  funext k
  rw [Bool.eq_iff_iff, contains_iff_mem, contains_iff_mem, h]

end

/-- The readers agree on every word. Of its slots, each of them four bits wide, those before the first
empty one are counted, there are at most seven of them, and just there a kind is found; listing gives
these kinds in order and leaves none out, and what is searched for is found if it is one of them. The
kinds that are listed can be packed again; the new word reads as the old one does, and it is the old one
if that was packed from any list at all. -/
theorem readers_agree (s : Signature) :
    (∀ n < 8, (s.slot n).toNat = (s.word.toNat >>> (8 * n)) % 16) ∧
    s.count ≤ 7 ∧
    (∀ n, (s.get? n).isSome = true ↔ n < s.count) ∧
    s.toList.map some = (List.range s.count).map s.get? ∧ s.toList.length = s.count ∧
    (∀ k, s.contains k = true ↔ ∃ n < s.count, s.get? n = some k) ∧
    ∃ h : s.toList.length ≤ capacity,
      let rebuilt := ofKinds s.toList h
      rebuilt.count = s.count ∧ rebuilt.get? = s.get? ∧ rebuilt.toList = s.toList ∧
        rebuilt.contains = s.contains ∧
        (rebuilt = s ↔ s.Packed) := by
  have h : s.toList.length ≤ capacity := s.length_toList ▸ s.count_le
  refine ⟨fun n => s.toNat_slot, s.count_le, fun n => isSome_get?_iff, s.map_some_toList,
    s.length_toList, fun k => contains_iff_mem.trans mem_toList_iff, h, ?_⟩
  intro rebuilt
  have hlist : rebuilt.toList = s.toList := toList_ofKinds h
  exact ⟨count_eq_of_toList_eq hlist, get?_eq_of_toList_eq hlist, hlist,
    contains_eq_of_toList_eq hlist, ofKinds_toList_eq_iff h⟩

/-- A word with a gap: the code behind the empty slot is not read, and no list packs to this word. -/
example : (Signature.mk 0x050007).toList = [.word] ∧
    ofKinds (Signature.mk 0x050007).toList ≠ ⟨0x050007⟩ := by decide

end Signature

end AmlBytecode
