import AmlBytecode.Proofs.PackedSignatures
import Mathlib.Data.Nat.Bitwise

/-! # A printed descriptor tells what it describes

The printed form of a set of flags gives all its sixteen bits: the names give the bits that are flags,
and the number behind them the others (`Flags.text_injective`). In the printed form of a descriptor the
opcode, the object type and the flags end at the first comma, and the operands come last, so each part
is read off the whole. Main statement: `Descriptor.text_identifies`. -/

namespace AmlBytecode

/-! ## Flags -/

namespace Flag

theorem mem_all (f : Flag) : f ∈ all := by cases f <;> decide

theorem name_injective : Function.Injective name := injective_of_nodup_map mem_all (by decide)

theorem name_ne_empty (f : Flag) : f.name ≠ "" := by cases f <;> decide

theorem all_isAlpha_name (f : Flag) :
    f.name.toList.all (fun c => c.isAlpha || c == '_') = true := by
  cases f <;> exact Text.all_toList_ofList rfl

/-- A name is made of letters and low lines, so it is no number. -/
theorem isAlpha_of_mem_name {f : Flag} {c : Char} (h : c ∈ f.name.toList) :
    c.isAlpha = true ∨ c = '_' := by
  simpa using List.all_eq_true.mp f.all_isAlpha_name c h

theorem toNat_mask (f : Flag) : f.mask.toNat = 2 ^ all.idxOf f := by cases f <;> rfl

end Flag

namespace Flags

variable {s t : Flags}

/-! ### Bits -/

theorem and_or_distrib_left (a b c : UInt16) : a &&& (b ||| c) = a &&& b ||| a &&& c := by
  apply UInt16.toNat_inj.mp
  simp only [UInt16.toNat_and, UInt16.toNat_or, Nat.and_or_distrib_left]

/-- Of the one bit of a flag a set has all or nothing. -/
theorem and_mask (s : Flags) (f : Flag) :
    s.bits &&& f.mask = if s.includes ⟨f.mask⟩ then f.mask else 0 := by
  split
  case isTrue h => exact eq_of_beq h
  case isFalse h =>
    have hbits : (s.bits &&& f.mask).toNat =
        (s.bits.toNat.testBit (Flag.all.idxOf f)).toNat * f.mask.toNat := by
      rw [UInt16.toNat_and, f.toNat_mask, Nat.and_two_pow]
    apply UInt16.toNat_inj.mp
    rw [hbits]
    rcases hbit : s.bits.toNat.testBit (Flag.all.idxOf f) with _ | _
    · rw [Bool.toNat_false, Nat.zero_mul]
      rfl
    · rw [hbit, Bool.toNat_true, Nat.one_mul] at hbits
      exact absurd (beq_iff_eq.mpr (UInt16.toNat_inj.mp hbits)) h

theorem inter_ofList (s : Flags) (flags : List Flag) :
    s.inter (ofList flags) = ofList (flags.filter fun f => s.includes ⟨f.mask⟩) := by
  have hbits : s.bits &&& (ofList flags).bits =
      (ofList (flags.filter fun f => s.includes ⟨f.mask⟩)).bits := by
    induction flags with
    | nil => exact UInt16.and_zero
    | cons f flags ih =>
      have hcons : s.bits &&& (ofList (f :: flags)).bits =
          s.bits &&& f.mask ||| s.bits &&& (ofList flags).bits := and_or_distrib_left ..
      rw [hcons, ih, and_mask, List.filter_cons]
      split
      · rfl
      · exact UInt16.zero_or
  rw [inter, hbits]

theorem ofList_toList (s : Flags) : ofList s.toList = s.truncate := (s.inter_ofList Flag.all).symm

theorem union_truncate_unknown (s : Flags) : s.truncate.union s.unknown = s := by
  have hbits : s.bits &&& all.bits ||| s.bits &&& ~~~all.bits = s.bits := by
    rw [← and_or_distrib_left, UInt16.or_not_self, UInt16.and_neg_one]
  exact congrArg Flags.mk hbits

/-- A set is known by the flags in it and by its other bits. -/
theorem eq_of_toList_eq (hlist : s.toList = t.toList) (hunknown : s.unknown = t.unknown) : s = t := by
  rw [← s.union_truncate_unknown, ← t.union_truncate_unknown, ← ofList_toList, ← ofList_toList, hlist,
    hunknown]

/-! ### The printed form -/

/-- The number that is printed behind the names, unless there are names and no other bits. -/
def residue (s : Flags) : List String :=
  if s.toList ≠ [] ∧ s.unknown.isEmpty = true then [] else [Text.hex s.unknown.bits.toNat]

/-- The words that are printed between the bars. -/
def words (s : Flags) : List String := s.toList.map (·.name) ++ s.residue

theorem text_eq (s : Flags) : s.text = "OpFlags(" ++ (" | ".intercalate s.words ++ ")") := by
  rw [text, words, residue, String.append_assoc]
  rcases hlist : s.toList with _ | ⟨f, flags⟩
  · by_cases hunknown : s.unknown.isEmpty = true
    · have hzero : s.unknown.bits = 0 := eq_of_beq hunknown
      simp [hunknown, hzero]
    · simp [hunknown]
  · simp

theorem residue_eq_or (s : Flags) :
    s.residue = [] ∧ s.unknown = ⟨0⟩ ∨ s.residue = [Text.hex s.unknown.bits.toNat] := by
  unfold residue
  split
  case isTrue h => exact .inl ⟨rfl, congrArg Flags.mk (eq_of_beq h.2)⟩
  case isFalse => exact .inr rfl

theorem mem_words {w : String} (h : w ∈ s.words) : (∃ f : Flag, f.name = w) ∨ ∃ n, Text.hex n = w := by
  rw [words, List.mem_append] at h
  rcases h with h | h
  · obtain ⟨f, -, hf⟩ := List.mem_map.mp h
    exact .inl ⟨f, hf⟩
  · rcases s.residue_eq_or with ⟨hnil, -⟩ | hhex
    · rw [hnil] at h
      cases h
    · rw [hhex, List.mem_singleton] at h
      exact .inr ⟨_, h.symm⟩

theorem isAlphanum_of_mem_words {w : String} {c : Char} (h : w ∈ s.words) (hc : c ∈ w.toList) :
    c.isAlphanum = true ∨ c = '_' := by
  rcases mem_words h with ⟨f, rfl⟩ | ⟨n, rfl⟩
  · exact (Flag.isAlpha_of_mem_name hc).imp_left fun hα => by rw [Char.isAlphanum, hα, Bool.true_or]
  · exact .inl (Text.isAlphanum_of_mem_hex hc)

theorem word_ne_empty {w : String} (h : w ∈ s.words) : w ≠ "" := by
  rcases mem_words h with ⟨f, rfl⟩ | ⟨n, rfl⟩
  · exact f.name_ne_empty
  · exact Text.hex_ne_empty n

/-- The names are the words without a zero. -/
theorem filter_words (s : Flags) :
    s.words.filter (fun w => '0' ∉ w.toList) = s.toList.map (·.name) := by
  have hnames : ∀ w ∈ s.toList.map (·.name), decide ('0' ∉ w.toList) = true := by
    intro w hw
    obtain ⟨f, -, rfl⟩ := List.mem_map.mp hw
    exact decide_eq_true fun hzero => absurd (Flag.isAlpha_of_mem_name hzero) (by decide)
  have hresidue : s.residue.filter (fun w => '0' ∉ w.toList) = [] := by
    rw [List.filter_eq_nil_iff]
    intro w hw
    rcases s.residue_eq_or with ⟨hnil, -⟩ | hhex
    · rw [hnil] at hw
      cases hw
    · rw [hhex, List.mem_singleton] at hw
      simpa [hw] using Text.zero_mem_hex _
  rw [words, List.filter_append, List.filter_eq_self.mpr hnames, hresidue, List.append_nil]

theorem words_injective : Function.Injective words := by
  intro s t h
  have hnames : s.toList.map (·.name) = t.toList.map (·.name) := by
    rw [← filter_words, h, filter_words]
  have hresidue : s.residue = t.residue := by
    rw [words, words, hnames] at h
    exact List.append_cancel_left h
  apply eq_of_toList_eq (List.map_injective_iff.mpr Flag.name_injective hnames)
  rcases s.residue_eq_or with ⟨hs, hzero⟩ | hs
  · rcases t.residue_eq_or with ⟨-, hzero'⟩ | ht
    · rw [hzero, hzero']
    · rw [hs, ht] at hresidue
      cases hresidue
  · rcases t.residue_eq_or with ⟨ht, -⟩ | ht
    · rw [hs, ht] at hresidue
      cases hresidue
    · rw [hs, ht] at hresidue
      have hbits := Text.hex_injective (List.singleton_inj.mp hresidue)
      exact congrArg Flags.mk (UInt16.toNat_inj.mp hbits)

theorem text_injective : Function.Injective text := by
  intro s t h
  have hword : ∀ (u : Flags), ∀ w ∈ u.words, w ≠ "" ∧ ' ' ∉ w.toList := fun u w hw =>
    ⟨word_ne_empty hw, fun hblank => absurd (isAlphanum_of_mem_words hw hblank) (by decide)⟩
  rw [text_eq, text_eq, String.append_right_inj, String.append_left_inj] at h
  exact words_injective (Text.intercalate_inj rfl (hword s) (hword t) h)

theorem comma_notMem_text (s : Flags) : ',' ∉ s.text.toList := by
  intro h
  rw [text_eq, String.toList_append, String.toList_append, List.mem_append, List.mem_append] at h
  rcases h with h | h | h
  · exact absurd h (by decide)
  · rcases Text.mem_intercalate h with h | ⟨w, hw, hc⟩
    · exact absurd h (by decide)
    · exact absurd (isAlphanum_of_mem_words hw hc) (by decide)
  · exact absurd h (by decide)

end Flags

/-! ## Object types -/

namespace ObjectType

theorem name_injective : Function.Injective name := injective_of_nodup_map mem_all (by decide)

theorem comma_notMem_name (t : ObjectType) : ',' ∉ t.name.toList := by
  have hname : t.name.toList.all (· != ',') = true := by
    cases t <;> exact Text.all_toList_ofList rfl
  exact Text.notMem_of_all hname rfl

end ObjectType

/-! ## Descriptors -/

theorem Signature.Packed.eq_of_toList_eq {s s' : Signature} (H : s.Packed) (H' : s'.Packed)
    (h : s.toList = s'.toList) : s = s' := by
  obtain ⟨kinds, hkinds, rfl⟩ := H
  obtain ⟨kinds', hkinds', rfl⟩ := H'
  rw [toList_ofKinds, toList_ofKinds] at h
  exact (ofKinds_eq_iff hkinds hkinds').mpr h

namespace Descriptor

variable {d d' : Descriptor}

theorem text_eq (d : Descriptor) :
    d.text = "OpcodeInfo \x7b op: " ++ (d.opcode.text ++ (", object_type: " ++ (d.objectType.name ++
      (", flags: " ++ (d.flags.text ++ (", args: " ++ (d.signature.text ++ " \x7d"))))))) := by
  simp only [← String.append_assoc]
  rfl

/-- Each part but the last ends at a comma and has none in it. -/
theorem eq_of_text_eq (h : d.text = d'.text) :
    d.opcode = d'.opcode ∧ d.objectType = d'.objectType ∧ d.flags = d'.flags ∧
      d.signature.text = d'.signature.text := by
  rw [text_eq, text_eq, String.append_right_inj] at h
  obtain ⟨hopcode, h⟩ := (Text.stopsAt_append rfl _).append_inj (Text.stopsAt_append rfl _)
    d.opcode.comma_notMem_text d'.opcode.comma_notMem_text h
  rw [String.append_right_inj] at h
  obtain ⟨htype, h⟩ := (Text.stopsAt_append rfl _).append_inj (Text.stopsAt_append rfl _)
    d.objectType.comma_notMem_name d'.objectType.comma_notMem_name h
  rw [String.append_right_inj] at h
  obtain ⟨hflags, h⟩ := (Text.stopsAt_append rfl _).append_inj (Text.stopsAt_append rfl _)
    d.flags.comma_notMem_text d'.flags.comma_notMem_text h
  rw [String.append_right_inj, String.append_left_inj] at h
  exact ⟨Opcode.text_injective hopcode, ObjectType.name_injective htype,
    Flags.text_injective hflags, h⟩

/-- Two descriptors whose operands are packed from lists of kinds print alike only if they agree in
opcode, object type, flags and operands. -/
theorem text_identifies (H : d.signature.Packed) (H' : d'.signature.Packed) :
    d.text = d'.text ↔
      d.opcode = d'.opcode ∧ d.objectType = d'.objectType ∧ d.flags = d'.flags ∧
        d.signature = d'.signature := by
  refine ⟨fun h => ?_, fun h => ?_⟩
  · obtain ⟨hopcode, htype, hflags, hsignature⟩ := eq_of_text_eq h
    have hlist := Signature.text_eq_iff.mp hsignature
    exact ⟨hopcode, htype, hflags, H.eq_of_toList_eq H' hlist⟩
  · obtain ⟨hopcode, htype, hflags, hsignature⟩ := h
    rw [text_eq, text_eq, hopcode, htype, hflags, hsignature]

/-- Descriptors of an opcode outside the language that differ in a single bit which is no flag. -/
theorem text_identifies_unknown_bit :
    let d : Descriptor :=
      ⟨.localObj 200, .localVariable, ⟨0x8402⟩, .ofKinds [.byteData, .termList]⟩
    let d' : Descriptor := { d with flags := ⟨0x0402⟩ }
    d.signature.Packed ∧ d'.signature.Packed ∧ d.text ≠ d'.text := by
  intro d d'
  have H : d.signature.Packed := ⟨[.byteData, .termList], by decide, rfl⟩
  refine ⟨H, H, fun h => ?_⟩
  obtain ⟨-, -, hflags, -⟩ := (text_identifies H (show d'.signature.Packed from H)).mp h
  exact absurd hflags (by decide)

end Descriptor

end AmlBytecode
