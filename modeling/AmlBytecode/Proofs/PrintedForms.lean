import AmlBytecode.Proofs.DescriptorLookups

/-! # Printed forms tell things apart

Different numbers have different numerals (`Text.decimal_injective`, `Text.hex_injective`), different
lists of texts different listings if the separator can be told from the texts (`Text.intercalate_inj`),
different opcodes different names, the local and the argument objects outside the language included
(`Opcode.text_injective`), and different records different texts (`Record.text_injective`). -/

namespace AmlBytecode

/-- A function whose values in a list of everything are all different is injective. -/
theorem injective_of_nodup_map {α β : Type} {f : α → β} {all : List α} (hall : ∀ a, a ∈ all)
    (h : (all.map f).Nodup) : Function.Injective f := fun a b =>
  List.inj_on_of_nodup_map h (hall a) (hall b)

/-! ## Numerals -/

namespace Text

theorem digitChar_inj : ∀ m < 16, ∀ n < 16, Nat.digitChar m = Nat.digitChar n → m = n := by decide

theorem toDigits_injective {base : Nat} (hone : 1 < base) (hbase : base ≤ 16) :
    Function.Injective (Nat.toDigits base) := by
  intro m n h
  induction m using Nat.strongRecOn generalizing n with
  | ind m ih =>
    have hshort : m < base ↔ n < base := by
      rw [← Nat.pow_one base, ← Nat.length_toDigits_le_iff hone Nat.one_pos, h,
        Nat.length_toDigits_le_iff hone Nat.one_pos]
    by_cases hm : m < base
    · have hn := hshort.mp hm
      rw [Nat.toDigits_of_lt_base hm, Nat.toDigits_of_lt_base hn] at h
      exact digitChar_inj m (by omega) n (by omega) (List.singleton_inj.mp h)
    · have hn := mt hshort.mpr hm
      rw [Nat.toDigits_of_base_le hone (Nat.le_of_not_lt hm),
        Nat.toDigits_of_base_le hone (Nat.le_of_not_lt hn)] at h
      obtain ⟨hhigh, hlow⟩ := List.append_inj' h rfl
      have hdiv : m / base = n / base := ih _ (Nat.div_lt_self (by omega) hone) hhigh
      have hmod : m % base = n % base := by
        have hm16 : m % base < 16 := Nat.lt_of_lt_of_le (Nat.mod_lt m (by omega)) hbase
        have hn16 : n % base < 16 := Nat.lt_of_lt_of_le (Nat.mod_lt n (by omega)) hbase
        exact digitChar_inj _ hm16 _ hn16 (List.singleton_inj.mp hlow)
      rw [← Nat.div_add_mod m base, ← Nat.div_add_mod n base, hdiv, hmod]

theorem decimal_injective : Function.Injective decimal := fun _ _ h =>
  toDigits_injective (by decide) (by decide) (String.ofList_injective h)

theorem hex_injective : Function.Injective hex := fun _ _ h =>
  toDigits_injective (by decide) (by decide)
    (String.ofList_injective ((String.append_right_inj _).mp h))

theorem isDigit_of_mem_decimal {n : Nat} {c : Char} (h : c ∈ (decimal n).toList) :
    c.isDigit = true := by
  rw [decimal, String.toList_ofList] at h
  exact Nat.isDigit_of_mem_toDigits (by decide) (by decide) h

theorem exists_digitChar_of_mem_toDigits {base n : Nat} (hone : 1 < base) {c : Char}
    (h : c ∈ Nat.toDigits base n) : ∃ m < base, c = Nat.digitChar m := by
  induction n using Nat.strongRecOn with
  | ind n ih =>
    by_cases hn : n < base
    · rw [Nat.toDigits_of_lt_base hn, List.mem_singleton] at h
      exact ⟨n, hn, h⟩
    · rw [Nat.toDigits_of_base_le hone (Nat.le_of_not_lt hn), List.mem_append,
        List.mem_singleton] at h
      rcases h with h | h
      · exact ih _ (Nat.div_lt_self (by omega) hone) h
      · exact ⟨n % base, Nat.mod_lt n (by omega), h⟩

theorem zero_mem_hex (n : Nat) : '0' ∈ (hex n).toList := by
  rw [hex, String.toList_append]
  exact List.mem_append_left _ (by decide)

theorem hex_ne_empty (n : Nat) : hex n ≠ "" := fun h => by
  have hzero := zero_mem_hex n
  rw [h] at hzero
  cases hzero

theorem isAlphanum_of_mem_hex {n : Nat} {c : Char} (h : c ∈ (hex n).toList) :
    c.isAlphanum = true := by
  have hdigit : ∀ m < 16, (Nat.digitChar m).isAlphanum = true := by decide
  rw [hex, String.toList_append, List.mem_append] at h
  rcases h with h | h
  · have hopening : "0x".toList.all Char.isAlphanum = true := rfl
    exact List.all_eq_true.mp hopening c h
  · rw [String.toList_ofList] at h
    obtain ⟨m, hm, rfl⟩ := exists_digitChar_of_mem_toDigits (show 1 < 16 by decide) h
    exact hdigit m hm

/-! ## Characters -/

/-- The letters of a text that is written out are found without decoding its bytes. -/
theorem all_toList_ofList {p : Char → Bool} {letters : List Char} (h : letters.all p = true) :
    (String.ofList letters).toList.all p = true := by
  rw [String.toList_ofList, h]

theorem notMem_of_all {p : Char → Bool} {c : Char} {s : String} (h : s.toList.all p = true)
    (hc : p c = false) : c ∉ s.toList := by
  intro hmem
  have hp := List.all_eq_true.mp h c hmem
  rw [hc] at hp
  cases hp

/-! ## Cutting a text -/

/-- The text is empty or starts with the character. -/
def StopsAt (c : Char) (t : String) : Prop := ∀ d ∈ t.toList.head?, d = c

section

variable {c : Char} {s s' t t' : String}

theorem stopsAt_append (h : s.toList.head? = some c) (t : String) : StopsAt c (s ++ t) := by
  intro d hd
  rw [String.toList_append, List.head?_append, h, Option.some_or] at hd
  exact (Option.some.inj hd).symm

theorem StopsAt.takeWhile_append (ht : StopsAt c t) (hs : c ∉ s.toList) :
    (s ++ t).toList.takeWhile (· != c) = s.toList := by
  have hne : ∀ d ∈ s.toList, (d != c) = true := by
    intro d hd
    simpa using fun hdc : d = c => hs (hdc ▸ hd)
  have hstop : t.toList.takeWhile (· != c) = [] := by
    rcases htext : t.toList with _ | ⟨d, rest⟩
    · rfl
    · have hd : d = c := ht d (by rw [htext, List.head?_cons, Option.mem_def])
      exact List.takeWhile_cons_of_neg (by simpa using hd)
  rw [String.toList_append, List.takeWhile_append_of_pos hne, hstop, List.append_nil]

/-- Texts without a character are told apart also when texts that start with this character come behind
them. -/
theorem StopsAt.append_inj (ht : StopsAt c t) (ht' : StopsAt c t') (hs : c ∉ s.toList)
    (hs' : c ∉ s'.toList) (h : s ++ t = s' ++ t') : s = s' ∧ t = t' := by
  have hhead : s = s' := by
    apply String.toList_inj.mp
    rw [← ht.takeWhile_append hs, h, ht'.takeWhile_append hs']
  subst hhead
  exact ⟨rfl, (String.append_right_inj s).mp h⟩

end

/-! ## Listings -/

/-- Texts one after the other, each behind a separator. -/
def trail (sep : String) (items : List String) : String := String.join (items.map (sep ++ ·))

theorem trail_cons (sep s : String) (items : List String) :
    trail sep (s :: items) = sep ++ (s ++ trail sep items) := by
  rw [trail, List.map_cons, String.join_cons, String.append_assoc]
  rfl

theorem intercalate_cons (sep s : String) (items : List String) :
    sep.intercalate (s :: items) = s ++ trail sep items := by
  induction items generalizing s with
  | nil => rw [String.intercalate_singleton, trail, List.map_nil, String.join_nil, String.append_empty]
  | cons t items ih => rw [String.intercalate_cons_cons, ih, trail_cons, String.append_assoc]

theorem mem_trail {sep : String} {items : List String} {c : Char} (h : c ∈ (trail sep items).toList) :
    c ∈ sep.toList ∨ ∃ s ∈ items, c ∈ s.toList := by
  rw [trail, String.toList_join, List.flatMap_map, List.mem_flatMap] at h
  obtain ⟨s, hs, hc⟩ := h
  rw [String.toList_append, List.mem_append] at hc
  exact hc.imp_right fun hc => ⟨s, hs, hc⟩

/-- Texts that are strung together have no characters but their own and those of the separator. -/
theorem mem_intercalate {sep : String} {items : List String} {c : Char}
    (h : c ∈ (sep.intercalate items).toList) : c ∈ sep.toList ∨ ∃ s ∈ items, c ∈ s.toList := by
  cases items with
  | nil => simp at h
  | cons s items =>
    rw [intercalate_cons, String.toList_append, List.mem_append] at h
    rcases h with h | h
    · exact .inr ⟨s, List.mem_cons_self, h⟩
    · exact (mem_trail h).imp_right fun ⟨t, ht, hc⟩ => ⟨t, List.mem_cons_of_mem _ ht, hc⟩

section

variable {sep : String} {c : Char} (hsep : sep.toList.head? = some c)
include hsep

theorem trail_cons_ne_empty (s : String) (items : List String) : trail sep (s :: items) ≠ "" := by
  intro h
  rw [trail_cons, ← String.toList_inj, String.toList_append] at h
  rw [(List.append_eq_nil_iff.mp h).1] at hsep
  cases hsep

theorem stopsAt_trail (items : List String) : StopsAt c (trail sep items) := by
  cases items with
  | nil => exact fun _ hd => by cases hd
  | cons s items =>
    rw [trail_cons]
    exact stopsAt_append hsep _

theorem trail_inj {items items' : List String} (hitems : ∀ s ∈ items, c ∉ s.toList)
    (hitems' : ∀ s ∈ items', c ∉ s.toList) (h : trail sep items = trail sep items') :
    items = items' := by
  induction items generalizing items' with
  | nil =>
    cases items' with
    | nil => rfl
    | cons s' items' => exact absurd h.symm (trail_cons_ne_empty hsep s' items')
  | cons s items ih =>
    cases items' with
    | nil => exact absurd h (trail_cons_ne_empty hsep s items)
    | cons s' items' =>
      obtain ⟨hs, hrest⟩ := List.forall_mem_cons.mp hitems
      obtain ⟨hs', hrest'⟩ := List.forall_mem_cons.mp hitems'
      rw [trail_cons, trail_cons, String.append_right_inj] at h
      obtain ⟨rfl, htrail⟩ :=
        (stopsAt_trail hsep items).append_inj (stopsAt_trail hsep items') hs hs' h
      rw [ih hrest hrest' htrail]

/-- A list of texts can be recovered from the texts strung together, if the character that the separator
starts with is in none of them and none is empty. -/
theorem intercalate_inj {items items' : List String}
    (hitems : ∀ s ∈ items, s ≠ "" ∧ c ∉ s.toList) (hitems' : ∀ s ∈ items', s ≠ "" ∧ c ∉ s.toList)
    (h : sep.intercalate items = sep.intercalate items') : items = items' := by
  cases items with
  | nil =>
    cases items' with
    | nil => rfl
    | cons s' items' =>
      rw [String.intercalate_nil, intercalate_cons] at h
      exact absurd (String.append_eq_empty_iff.mp h.symm).1 (hitems' s' List.mem_cons_self).1
  | cons s items =>
    cases items' with
    | nil =>
      rw [String.intercalate_nil, intercalate_cons] at h
      exact absurd (String.append_eq_empty_iff.mp h).1 (hitems s List.mem_cons_self).1
    | cons s' items' =>
      obtain ⟨⟨-, hs⟩, hrest⟩ := List.forall_mem_cons.mp hitems
      obtain ⟨⟨-, hs'⟩, hrest'⟩ := List.forall_mem_cons.mp hitems'
      rw [intercalate_cons, intercalate_cons] at h
      obtain ⟨rfl, htrail⟩ :=
        (stopsAt_trail hsep items).append_inj (stopsAt_trail hsep items') hs hs' h
      rw [trail_inj hsep (fun t ht => (hrest t ht).2) (fun t ht => (hrest' t ht).2) htrail]

end

end Text

/-! ## Opcodes -/

namespace Opcode

/-- The printed form has a number in it. -/
def hasNumber : Opcode → Bool
  | localObj _ | argObj _ => true
  | _ => false

theorem text_localObj (n : UInt8) :
    (localObj n).text = "Local(" ++ (Text.decimal n.toNat ++ ")") := by
  rw [← String.append_assoc]
  rfl

theorem text_argObj (n : UInt8) :
    (argObj n).text = "Arg(" ++ (Text.decimal n.toNat ++ ")") := by
  rw [← String.append_assoc]
  rfl

/-- A name without a number is made of letters. -/
theorem all_isAlpha_text {op : Opcode} (h : op.hasNumber = false) :
    op.text.toList.all Char.isAlpha = true := by
  cases op with
  | localObj | argObj => cases h
  | _ => exact Text.all_toList_ofList rfl

theorem isAlpha_of_mem_text {op : Opcode} (h : op.hasNumber = false) {c : Char}
    (hc : c ∈ op.text.toList) : c.isAlpha = true :=
  List.all_eq_true.mp (all_isAlpha_text h) c hc

theorem parenthesis_mem_text_iff {op : Opcode} :
    '(' ∈ op.text.toList ↔ op.hasNumber = true := by
  rcases h : op.hasNumber with _ | _
  · refine iff_of_false (fun hmem => ?_) Bool.false_ne_true
    exact absurd (isAlpha_of_mem_text h hmem) (by decide)
  · refine iff_of_true ?_ rfl
    cases op with
    | localObj n => simp [text_localObj]
    | argObj n => simp [text_argObj]
    | _ => cases h

/-- A letter, a digit or a parenthesis. -/
def isNameChar (c : Char) : Bool := c.isAlphanum || c == '(' || c == ')'

theorem all_isNameChar_numbered {word : String} (hword : word.toList.all isNameChar = true)
    (n : UInt8) : (word ++ (Text.decimal n.toNat ++ ")")).toList.all isNameChar = true := by
  have hdigits : (Text.decimal n.toNat).toList.all isNameChar = true := by
    rw [List.all_eq_true]
    intro c hc
    rw [isNameChar, Char.isAlphanum, Text.isDigit_of_mem_decimal hc, Bool.or_true]
    rfl
  rw [String.toList_append, String.toList_append, List.all_append, List.all_append, hword, hdigits]
  rfl

theorem all_isNameChar_text (op : Opcode) : op.text.toList.all isNameChar = true := by
  rcases h : op.hasNumber with _ | _
  · rw [List.all_eq_true]
    intro c hc
    rw [isNameChar, Char.isAlphanum, isAlpha_of_mem_text h hc]
    rfl
  · cases op with
    | localObj n =>
      rw [text_localObj]
      exact all_isNameChar_numbered rfl n
    | argObj n =>
      rw [text_argObj]
      exact all_isNameChar_numbered rfl n
    | _ => cases h

theorem blank_notMem_text (op : Opcode) : ' ' ∉ op.text.toList :=
  Text.notMem_of_all op.all_isNameChar_text rfl

theorem comma_notMem_text (op : Opcode) : ',' ∉ op.text.toList :=
  Text.notMem_of_all op.all_isNameChar_text rfl

/-- The bytes of the names, taken as numbers, differ even modulo a small prime. -/
theorem nodup_texts : (Descriptor.table.map (·.opcode.text)).Nodup :=
  nodup_of_allNew (fun s => LittleEndian.value s.toUTF8.data.toList % 65537) rfl

theorem inLanguage_of_hasNumber_eq_false {op : Opcode} (h : op.hasNumber = false) :
    op.inLanguage = true := by
  cases op with
  | localObj | argObj => cases h
  | _ => rfl

theorem eq_of_text_eq_of_inLanguage {a b : Opcode} (ha : a.inLanguage = true)
    (hb : b.inLanguage = true) (h : a.text = b.text) : a = b := by
  obtain ⟨d, hd, rfl⟩ := exists_mem_table_of_inLanguage ha
  obtain ⟨d', hd', rfl⟩ := exists_mem_table_of_inLanguage hb
  rw [List.inj_on_of_nodup_map nodup_texts hd hd' h]

theorem eq_of_numbered_eq {word : String} {m n : UInt8}
    (h : word ++ (Text.decimal m.toNat ++ ")") = word ++ (Text.decimal n.toNat ++ ")")) :
    m = n := by
  rw [String.append_right_inj, String.append_left_inj] at h
  exact UInt8.toNat_inj.mp (Text.decimal_injective h)

theorem text_localObj_ne_text_argObj (m n : UInt8) : (localObj m).text ≠ (argObj n).text := by
  intro h
  rw [text_localObj, text_argObj] at h
  simpa using congrArg String.toList h

theorem text_injective : Function.Injective text := by
  intro a b h
  have hnumber : a.hasNumber = b.hasNumber := by
    rw [Bool.eq_iff_iff, ← parenthesis_mem_text_iff, ← parenthesis_mem_text_iff, h]
  rcases ha : a.hasNumber with _ | _
  · have hb : b.hasNumber = false := hnumber ▸ ha
    exact eq_of_text_eq_of_inLanguage (inLanguage_of_hasNumber_eq_false ha)
      (inLanguage_of_hasNumber_eq_false hb) h
  · have hb : b.hasNumber = true := hnumber ▸ ha
    cases a with
    | localObj m =>
      cases b with
      | localObj n =>
        rw [text_localObj, text_localObj] at h
        rw [eq_of_numbered_eq h]
      | argObj n => exact absurd h (text_localObj_ne_text_argObj m n)
      | _ => cases hb
    | argObj m =>
      cases b with
      | localObj n => exact absurd h.symm (text_localObj_ne_text_argObj n m)
      | argObj n =>
        rw [text_argObj, text_argObj] at h
        rw [eq_of_numbered_eq h]
      | _ => cases hb
    | _ => cases ha

end Opcode

/-! ## Records -/

namespace Record

/-- The words that the text of a record opens with. -/
def opening : Record → String
  | truncatedExtendedOpcode => "Stream ends after extended opcode prefix"
  | illegalExtendedOpcode _ => "Illegal extended opcode: "
  | illegalOpcode _ => "Illegal opcode: "
  | decoded _ _ => "Decoded opcode "

/-- What the text of a record goes on with. -/
def detail : Record → String
  | truncatedExtendedOpcode => ""
  | illegalExtendedOpcode b => Text.hex Encoding.extendedPrefix.toNat ++ (" " ++ Text.hex b.toNat)
  | illegalOpcode b => Text.hex b.toNat
  | decoded op pc => op.text ++ (" at pc=" ++ Text.hex pc)

theorem text_eq (r : Record) : r.text = r.opening ++ r.detail := by
  cases r with
  | truncatedExtendedOpcode | illegalOpcode => rfl
  | illegalExtendedOpcode b =>
    rw [opening, detail, ← String.append_assoc, ← String.append_assoc]
    rfl
  | decoded op pc =>
    rw [opening, detail, ← String.append_assoc, ← String.append_assoc]
    rfl

def openings : List String :=
  ["Stream ends after extended opcode prefix", "Illegal extended opcode: ", "Illegal opcode: ",
    "Decoded opcode "]

theorem opening_mem (r : Record) : r.opening ∈ openings := by
  cases r <;> simp [opening, openings]

/-- Nine letters tell the openings apart. -/
theorem eq_of_take_eq : ∀ s ∈ openings, ∀ s' ∈ openings,
    s.toList.take 9 = s'.toList.take 9 → s = s' := by decide

theorem length_of_mem_openings : ∀ s ∈ openings, 9 ≤ s.toList.length := by decide

theorem take_toList_text (r : Record) : r.text.toList.take 9 = r.opening.toList.take 9 := by
  rw [text_eq, String.toList_append,
    List.take_append_of_le_length (length_of_mem_openings _ r.opening_mem)]

theorem opening_eq_of_text_eq {r r' : Record} (h : r.text = r'.text) : r.opening = r'.opening := by
  apply eq_of_take_eq _ r.opening_mem _ r'.opening_mem
  rw [← take_toList_text, ← take_toList_text, h]

theorem text_injective : Function.Injective text := by
  intro r r' h
  have hopening : r.opening = r'.opening := opening_eq_of_text_eq h
  have hdetail : r.detail = r'.detail := by
    rwa [text_eq, text_eq, hopening, String.append_right_inj] at h
  cases r with
  | truncatedExtendedOpcode =>
    cases r' with
    | truncatedExtendedOpcode => rfl
    | illegalExtendedOpcode | illegalOpcode | decoded => simp [opening] at hopening
  | illegalExtendedOpcode b =>
    cases r' with
    | illegalExtendedOpcode b' =>
      rw [detail, detail, String.append_right_inj, String.append_right_inj] at hdetail
      rw [UInt8.toNat_inj.mp (Text.hex_injective hdetail)]
    | truncatedExtendedOpcode | illegalOpcode | decoded => simp [opening] at hopening
  | illegalOpcode b =>
    cases r' with
    | illegalOpcode b' => rw [UInt8.toNat_inj.mp (Text.hex_injective hdetail)]
    | truncatedExtendedOpcode | illegalExtendedOpcode | decoded => simp [opening] at hopening
  | decoded op pc =>
    cases r' with
    | decoded op' pc' =>
      obtain ⟨hop, hpc⟩ := (Text.stopsAt_append rfl _).append_inj (Text.stopsAt_append rfl _)
        op.blank_notMem_text op'.blank_notMem_text hdetail
      rw [Opcode.text_injective hop, Text.hex_injective ((String.append_right_inj _).mp hpc)]
    | truncatedExtendedOpcode | illegalExtendedOpcode | illegalOpcode =>
      simp [opening] at hopening

end Record

end AmlBytecode
