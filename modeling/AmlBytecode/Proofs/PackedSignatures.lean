import AmlBytecode.Proofs.CheckedReads
import AmlBytecode.Proofs.PrintedForms
import AmlBytecode.Proofs.SignatureReaders
import Mathlib.Tactic.Ring

/-! # A packed signature stands for its list of kinds

A signature that is packed from at most seven kinds has the code of each kind in a byte of its own
(`Signature.word_ofKinds`), and every reader gives back what was packed. So the word tells such lists
apart. The printed form does so for the lists of any two words, since no two kinds have the same name
and no name can be taken for several (`Signature.text_eq_iff`). Main statement:
`Signature.ofKinds_represents`. -/

namespace AmlBytecode

/-! ## The word -/

namespace Signature

/-- Puts the code of a kind at a place of the word. -/
def putCode (word : UInt64) (entry : OperandKind × Nat) : UInt64 :=
  word ||| entry.1.code.toUInt64 <<< (8 * entry.2).toUInt64

/-- The codes of some kinds, each shifted to its place and joined to those before it bit by bit. -/
def joinCodes (kinds : List OperandKind) : UInt64 := kinds.zipIdx.foldl putCode 0

theorem toNat_putCode {word : UInt64} {n : Nat} (hn : n < 8) (hword : word.toNat < 2 ^ (8 * n))
    (k : OperandKind) : (putCode word (k, n)).toNat = word.toNat + 2 ^ (8 * n) * k.code.toNat := by
  have hshift : (8 * n).toUInt64.toNat % 64 = 8 * n := by
    rw [Nat.toUInt64_eq, UInt64.toNat_ofNat']
    omega
  have hcode : 2 ^ (8 * n) * k.code.toNat < 2 ^ 64 := by
    calc 2 ^ (8 * n) * k.code.toNat < 2 ^ (8 * n) * 2 ^ 8 :=
          Nat.mul_lt_mul_of_pos_left k.code.toNat_lt (Nat.two_pow_pos _)
      _ = 2 ^ (8 * n + 8) := (pow_add 2 _ _).symm
      _ ≤ 2 ^ 64 := Nat.pow_le_pow_right (by decide) (by omega)
  rw [putCode, UInt64.toNat_or, UInt64.toNat_shiftLeft, hshift, UInt8.toNat_toUInt64,
    Nat.shiftLeft_eq, Nat.mul_comm k.code.toNat, Nat.mod_eq_of_lt hcode, Nat.or_comm,
    ← Nat.two_pow_add_eq_or_of_lt hword, Nat.add_comm]

/-- The codes are put above a word that ends before their place, and leave it as it is. -/
theorem toNat_foldl_putCode {kinds : List OperandKind} {word : UInt64} {n : Nat}
    (hn : n + kinds.length ≤ 8) (hword : word.toNat < 2 ^ (8 * n)) :
    ((kinds.zipIdx n).foldl putCode word).toNat =
      word.toNat + 2 ^ (8 * n) * LittleEndian.value (kinds.map (·.code)) := by
  induction kinds generalizing word n with
  | nil => simp [LittleEndian.value]
  | cons k kinds ih =>
    rw [List.length_cons] at hn
    have hput := toNat_putCode (show n < 8 by omega) hword k
    have hnext : 2 ^ (8 * (n + 1)) = 2 ^ (8 * n) * 256 := by ring
    have hlt : (putCode word (k, n)).toNat < 2 ^ (8 * (n + 1)) := by
      calc (putCode word (k, n)).toNat = word.toNat + 2 ^ (8 * n) * k.code.toNat := hput
        _ < 2 ^ (8 * n) * (k.code.toNat + 1) := by rw [Nat.mul_succ]; omega
        _ ≤ 2 ^ (8 * n) * 256 := Nat.mul_le_mul_left _ k.code.toNat_lt
        _ = 2 ^ (8 * (n + 1)) := hnext.symm
    rw [List.zipIdx_cons, List.foldl_cons, ih (by omega) hlt, hput, hnext, List.map_cons,
      LittleEndian.value]
    ring

theorem word_ofKinds {kinds : List OperandKind} (h : kinds.length ≤ capacity) :
    (ofKinds kinds h).word = joinCodes kinds := by
  have hlength : 0 + kinds.length ≤ 8 := by
    rw [Nat.zero_add]
    exact Nat.le_succ_of_le h
  apply UInt64.toNat_inj.mp
  rw [toNat_word_ofKinds, joinCodes, toNat_foldl_putCode hlength (by decide)]
  simp

end Signature

/-! ## The printed form -/

namespace OperandKind

theorem name_injective : Function.Injective name := injective_of_nodup_map mem_all (by decide)

theorem name_ne_empty (k : OperandKind) : k.name ≠ "" := by cases k <;> decide

theorem comma_notMem_name (k : OperandKind) : ',' ∉ k.name.toList := by
  have hname : k.name.toList.all (· != ',') = true := by
    cases k <;> exact Text.all_toList_ofList rfl
  exact Text.notMem_of_all hname rfl

end OperandKind

namespace Signature

variable {s s' : Signature} {kinds kinds' : List OperandKind}

/-- Words print alike if the same kinds are read from them. -/
theorem text_eq_iff : s.text = s'.text ↔ s.toList = s'.toList := by
  refine ⟨fun h => ?_, fun h => by rw [text, text, h]⟩
  have hname : ∀ l : List OperandKind, ∀ t ∈ l.map (·.name), t ≠ "" ∧ ',' ∉ t.toList := by
    intro l t ht
    obtain ⟨k, -, rfl⟩ := List.mem_map.mp ht
    exact ⟨k.name_ne_empty, k.comma_notMem_name⟩
  rw [text, text, Text.listing, Text.listing, String.append_left_inj, String.append_right_inj] at h
  have hnames := Text.intercalate_inj rfl (hname s.toList) (hname s'.toList) h
  exact List.map_injective_iff.mpr OperandKind.name_injective hnames

section

variable (h : kinds.length ≤ capacity) (h' : kinds'.length ≤ capacity)

theorem ofKinds_eq_iff : ofKinds kinds h = ofKinds kinds' h' ↔ kinds = kinds' := by
  refine ⟨fun hs => ?_, fun hkinds => by simp only [hkinds]⟩
  rw [← toList_ofKinds h, hs, toList_ofKinds]

theorem text_ofKinds_eq_iff : (ofKinds kinds h).text = (ofKinds kinds' h').text ↔ kinds = kinds' := by
  rw [text_eq_iff, toList_ofKinds, toList_ofKinds]

end

/-- A signature that is packed from a list of kinds is a word that has their codes side by side, and it
stands for this list in every way: it has as many operands, the same one at each place and none at any
other, and no reader goes wrong on the way there; it lists the same kinds and holds no others, and it
prints as their names. Of two lists both the words and the printed forms are equal only if the lists
are. -/
theorem ofKinds_represents {kinds : List OperandKind} (h : kinds.length ≤ capacity) :
    let s := ofKinds kinds h
    s.word = joinCodes kinds ∧ s.count = kinds.length ∧
    (∀ n, s.get? n = kinds[n]? ∧ s.checkedGet? n = .ok kinds[n]?) ∧
    s.toList = kinds ∧ (∀ k, s.contains k = true ↔ k ∈ kinds) ∧
    s.text = "[" ++ ", ".intercalate (kinds.map (·.name)) ++ "]" ∧
    ∀ (kinds' : List OperandKind) (h' : kinds'.length ≤ capacity),
      (s = ofKinds kinds' h' ↔ kinds = kinds') ∧ (s.text = (ofKinds kinds' h').text ↔ kinds = kinds') := by
  intro s
  have hlist : s.toList = kinds := toList_ofKinds h
  refine ⟨word_ofKinds h, count_ofKinds h, fun n => ⟨get?_ofKinds h n, ?_⟩, hlist, fun k => ?_, ?_,
    fun kinds' h' => ⟨ofKinds_eq_iff h h', text_ofKinds_eq_iff h h'⟩⟩
  · rw [checkedGet?_eq, get?_ofKinds]
  · rw [contains_iff_mem, hlist]
  · rw [text, hlist, Text.listing]

/-- A full signature, with an operand kind twice. -/
theorem ofKinds_represents_full :
    let kinds : List OperandKind :=
      [.nameString, .byteData, .word, .string, .target, .target, .fieldList]
    kinds.length ≤ capacity ∧
      (ofKinds kinds).word = 0x0f0e0e0507060a ∧ (ofKinds kinds).get? 6 = some .fieldList ∧
      (ofKinds kinds).checkedGet? 0xffffffffffffffff = .ok none ∧
      (ofKinds kinds).text =
        "[NameString, ByteData, Word, String, Target, Target, FieldList]" ∧
      ofKinds kinds ≠ ofKinds (kinds.take 6) := by
  intro kinds
  have h : kinds.length ≤ capacity := by decide
  obtain ⟨hword, -, hget, -, -, htext, heq⟩ := ofKinds_represents h
  have htake : kinds ≠ kinds.take 6 := by decide
  refine ⟨h, hword.trans rfl, (hget 6).1, (hget _).2, htext.trans rfl, ?_⟩
  exact mt (heq (kinds.take 6) (by decide)).1.mp htake

end Signature

end AmlBytecode
