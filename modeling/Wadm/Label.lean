import Wadm.Manifest
import Mathlib.Data.String.Basic

/-! # Label keys

`valid_oam_label` and its two helpers as `handlers.rs` has them, then the key grammar of the OAM
metadata rules, and that the code accepts exactly that grammar.
-/

namespace Wadm

/-! ## The code -/

/-- The closure `is_valid_label_name` passes to `chars().all`. -/
def labelNameChar (c : Char) : Bool := c.isAlphanum || c == '-' || c == '_' || c == '.'

/-- `is_valid_label_name`. Rust's `len` counts bytes. -/
def isValidLabelName (name : String) : Bool :=
  if name.isEmpty || name.utf8ByteSize > 63 then false
  else name.toList.head?.any Char.isAlphanum && name.toList.getLast?.any Char.isAlphanum &&
    name.toList.all labelNameChar

/-- The closure `is_valid_dns_subdomain` passes to `chars().all`. -/
def dnsPartChar (c : Char) : Bool := c.isAlphanum || c == '-'

/-- The closure `is_valid_dns_subdomain` runs on each part. -/
def isValidDnsPart (part : String) : Bool :=
  !part.isEmpty && part.utf8ByteSize ≤ 63 && part.toList.head?.any Char.isAlpha &&
    part.toList.getLast?.any Char.isAlphanum && part.toList.all dnsPartChar

/-- `is_valid_dns_subdomain`. `split('.')` keeps the empty parts. -/
def isValidDnsSubdomain (s : String) : Bool :=
  if s.isEmpty || s.utf8ByteSize > 253 then false
  else (s.toList.splitOn '.').all fun part => isValidDnsPart (String.mk part)

/-- `valid_oam_label`: the value is not looked at. -/
def validOamLabel (label : String × String) : Bool :=
  match splitOnce '/' label.1.toList with
  | some (pre, name) => isValidDnsSubdomain (String.mk pre) && isValidLabelName (String.mk name)
  | none => isValidLabelName label.1

/-! ## The grammar -/

/-- `[A-Za-z0-9._-]` -/
def NameChar (c : Char) : Prop := c.isAlphanum ∨ c = '.' ∨ c = '_' ∨ c = '-'

/-- `[A-Za-z0-9-]` -/
def PartChar (c : Char) : Prop := c.isAlphanum ∨ c = '-'

/-- 1 to 63 characters of `[A-Za-z0-9._-]`, the first and the last alphanumeric. -/
def IsLabelName (n : List Char) : Prop :=
  1 ≤ n.length ∧ n.length ≤ 63 ∧ (∀ c ∈ n, NameChar c) ∧
    (∀ c ∈ n.head?, c.isAlphanum) ∧ ∀ c ∈ n.getLast?, c.isAlphanum

/-- 1 to 63 characters of `[A-Za-z0-9-]`, a letter first and an alphanumeric last. -/
def IsDnsPart (p : List Char) : Prop :=
  1 ≤ p.length ∧ p.length ≤ 63 ∧ (∀ c ∈ p, PartChar c) ∧
    (∀ c ∈ p.head?, c.isAlpha) ∧ ∀ c ∈ p.getLast?, c.isAlphanum

/-- 1 to 253 characters: parts joined by dots. -/
def IsLabelPrefix (p : List Char) : Prop :=
  1 ≤ p.length ∧ p.length ≤ 253 ∧
    ∃ parts, parts ≠ [] ∧ p = ['.'].intercalate parts ∧ ∀ q ∈ parts, IsDnsPart q

/-- A name, or a prefix, a slash and a name. -/
def IsLabelKey (k : List Char) : Prop :=
  IsLabelName k ∨ ∃ p n, k = p ++ '/' :: n ∧ IsLabelPrefix p ∧ IsLabelName n

/-! ## Byte length is character length on ASCII -/

theorem utf8Size_of_lt {c : Char} (h : c.toNat < 128) : c.utf8Size = 1 := by
  simp only [Char.utf8Size]
  rw [if_pos]
  simp only [Char.toNat] at h
  show c.val.toNat ≤ 127
  omega

theorem toNat_lt_of_isAlphanum {c : Char} (h : c.isAlphanum = true) : c.toNat < 128 := by
  simp only [Char.isAlphanum, Char.isAlpha, Char.isUpper, Char.isLower, Char.isDigit,
    Bool.or_eq_true, Bool.and_eq_true, decide_eq_true_eq] at h
  rcases h with (⟨-, h⟩ | ⟨-, h⟩) | ⟨-, h⟩
  · have : c.val.toNat ≤ 90 := UInt32.toNat_le_of_le (by decide) h
    exact Nat.lt_of_le_of_lt this (by decide)
  · have : c.val.toNat ≤ 122 := UInt32.toNat_le_of_le (by decide) h
    exact Nat.lt_of_le_of_lt this (by decide)
  · have : c.val.toNat ≤ 57 := UInt32.toNat_le_of_le (by decide) h
    exact Nat.lt_of_le_of_lt this (by decide)

theorem NameChar.toNat_lt {c : Char} (h : NameChar c) : c.toNat < 128 := by
  rcases h with h | rfl | rfl | rfl
  · exact toNat_lt_of_isAlphanum h
  all_goals decide

theorem PartChar.toNat_lt {c : Char} (h : PartChar c) : c.toNat < 128 := by
  rcases h with h | rfl
  · exact toNat_lt_of_isAlphanum h
  · decide

theorem utf8Len_of_ascii {l : List Char} (h : ∀ c ∈ l, c.toNat < 128) :
    String.utf8Len l = l.length := by
  induction l with
  | nil => rfl
  | cons c l ih =>
    simp only [List.forall_mem_cons] at h
    simp [ih h.2, utf8Size_of_lt h.1]

theorem isEmpty_mk (l : List Char) : (String.mk l).isEmpty = l.isEmpty := by
  cases l with
  | nil => rfl
  | cons c l =>
    have : String.utf8Len l + c.utf8Size ≠ 0 :=
      Nat.ne_of_gt (Nat.add_pos_right _ (Char.utf8Size_pos c))
    simp only [String.isEmpty, String.endPos, String.utf8ByteSize_mk, String.utf8Len_cons,
      List.isEmpty_cons]
    exact beq_eq_false_iff_ne.mpr fun h => this (congrArg String.Pos.byteIdx h)

theorem mem_of_mem_intersperse {α : Type} {sep x : α} :
    ∀ {ls : List α}, x ∈ ls.intersperse sep → x = sep ∨ x ∈ ls
  | [], h => by simp at h
  | [_], h => Or.inr h
  | a :: b :: ls, h => by
    simp only [List.intersperse_cons₂, List.mem_cons] at h
    rcases h with rfl | rfl | h
    · simp
    · simp
    · rcases mem_of_mem_intersperse h with h | h <;> simp_all

theorem forall_mem_intercalate {p : Char → Prop} {sep : Char} {ls : List (List Char)}
    (hs : p sep) (hl : ∀ l ∈ ls, ∀ c ∈ l, p c) : ∀ c ∈ [sep].intercalate ls, p c := by
  intro c hc
  obtain ⟨l, hl', hc⟩ := List.mem_flatten.mp hc
  rcases mem_of_mem_intersperse hl' with rfl | h
  · exact (List.mem_singleton.mp hc) ▸ hs
  · exact hl l h c hc

/-! ## The code accepts the grammar -/

@[simp] theorem labelNameChar_iff (c : Char) : labelNameChar c = true ↔ NameChar c := by
  simp only [labelNameChar, NameChar, Bool.or_eq_true, beq_iff_eq, or_assoc, or_comm, or_left_comm]

@[simp] theorem dnsPartChar_iff (c : Char) : dnsPartChar c = true ↔ PartChar c := by
  simp [dnsPartChar, PartChar]

theorem getLast?_cons_eq (c : Char) (n : List Char) :
    (c :: n).getLast? = some ((c :: n).getLast (List.cons_ne_nil c n)) :=
  List.getLast?_eq_getLast _ _

theorem isValidLabelName_iff (n : List Char) :
    isValidLabelName (String.mk n) = true ↔ IsLabelName n := by
  rcases n with _ | ⟨c, n⟩
  · simp [isValidLabelName, IsLabelName]
  by_cases hc : ∀ x ∈ c :: n, NameChar x
  · have hlen := utf8Len_of_ascii fun x h => (hc x h).toNat_lt
    simp only [isValidLabelName, isEmpty_mk, List.isEmpty_cons, String.utf8ByteSize_mk, hlen,
      List.length_cons, gt_iff_lt, Bool.false_or, decide_eq_true_eq, String.toList, List.head?_cons,
      Option.any_some, getLast?_cons_eq, List.all_cons, Bool.if_false_left, Bool.and_eq_true,
      Bool.not_eq_eq_eq_not, Bool.not_true, decide_eq_false_iff_not, not_lt, Nat.reduceLeDiff,
      labelNameChar_iff, List.mem_cons, true_or, hc, List.all_eq_true, true_and, IsLabelName,
      le_add_iff_nonneg_left, zero_le, forall_eq_or_imp, Option.mem_def, Option.some.injEq, forall_eq',
      and_congr_right_iff]
    exact fun _ => and_comm
  · rw [List.forall_mem_cons] at hc
    simp only [isValidLabelName, String.utf8ByteSize_mk, String.utf8Len_cons, gt_iff_lt,
      Bool.or_eq_true, decide_eq_true_eq, String.toList, List.head?_cons, Option.any_some, List.all_cons,
      Bool.if_false_left, Bool.and_eq_true, Bool.not_eq_eq_eq_not, Bool.not_true, labelNameChar_iff,
      List.all_eq_true, IsLabelName, List.mem_cons, forall_eq_or_imp]
    exact iff_of_false (fun h => hc h.2.2) (fun h => hc h.2.2.1)

theorem isValidDnsPart_iff (p : List Char) : isValidDnsPart (String.mk p) = true ↔ IsDnsPart p := by
  rcases p with _ | ⟨c, p⟩
  · simp [isValidDnsPart, IsDnsPart]
  by_cases hc : ∀ x ∈ c :: p, PartChar x
  · have hlen := utf8Len_of_ascii fun x h => (hc x h).toNat_lt
    simp only [isValidDnsPart, isEmpty_mk, List.isEmpty_cons, Bool.not_false, String.utf8ByteSize_mk,
      hlen, List.length_cons, Nat.reduceLeDiff, Bool.true_and, String.toList, List.head?_cons,
      Option.any_some, getLast?_cons_eq, List.all_cons, Bool.and_eq_true, decide_eq_true_eq,
      dnsPartChar_iff, List.mem_cons, true_or, hc, List.all_eq_true, true_and, IsDnsPart,
      le_add_iff_nonneg_left, zero_le, forall_eq_or_imp, Option.mem_def, Option.some.injEq, forall_eq']
    exact ⟨fun ⟨⟨⟨hl, ha⟩, hb⟩, hp⟩ => ⟨hl, hp, ha, hb⟩, fun ⟨hl, hp, ha, hb⟩ => ⟨⟨⟨hl, ha⟩, hb⟩, hp⟩⟩
  · rw [List.forall_mem_cons] at hc
    simp only [isValidDnsPart, String.toList, List.head?_cons, Option.any_some, List.all_cons,
      Bool.and_eq_true, dnsPartChar_iff, List.all_eq_true, IsDnsPart, List.mem_cons, forall_eq_or_imp]
    exact iff_of_false (fun h => hc h.2) (fun h => hc h.2.2.1)

theorem IsDnsPart.dot_not_mem {q : List Char} (h : IsDnsPart q) : '.' ∉ q := fun hq => by
  have := h.2.2.1 '.' hq
  unfold PartChar at this
  revert this
  decide

theorem IsDnsPart.ascii {q : List Char} (h : IsDnsPart q) : ∀ c ∈ q, c.toNat < 128 :=
  fun c hc => (h.2.2.1 c hc).toNat_lt

theorem isValidDnsSubdomain_iff (p : List Char) :
    isValidDnsSubdomain (String.mk p) = true ↔ IsLabelPrefix p := by
  have hcode : isValidDnsSubdomain (String.mk p) = true ↔
      p ≠ [] ∧ String.utf8Len p ≤ 253 ∧ ∀ q ∈ p.splitOn '.', IsDnsPart q := by
    simp [isValidDnsSubdomain, isEmpty_mk, isValidDnsPart_iff, List.isEmpty_iff, and_assoc]
  rw [hcode]
  constructor
  · rintro ⟨hne, hlen, hparts⟩
    have hp : p = ['.'].intercalate (p.splitOn '.') := (List.intercalate_splitOn p '.').symm
    have hascii : ∀ c ∈ p, c.toNat < 128 := by
      rw [hp]
      exact forall_mem_intercalate (by decide) fun q hq => (hparts q hq).ascii
    rw [utf8Len_of_ascii hascii] at hlen
    exact ⟨List.length_pos.mpr hne, hlen, p.splitOn '.', List.splitOnP_ne_nil _ _, hp, hparts⟩
  · rintro ⟨hpos, hlen, parts, hne, rfl, hparts⟩
    have hascii : ∀ c ∈ ['.'].intercalate parts, c.toNat < 128 :=
      forall_mem_intercalate (by decide) fun q hq => (hparts q hq).ascii
    rw [utf8Len_of_ascii hascii, List.splitOn_intercalate _ _ (fun q hq => (hparts q hq).dot_not_mem) hne]
    exact ⟨List.ne_nil_of_length_pos hpos, hlen, hparts⟩

theorem IsLabelName.slash_not_mem {n : List Char} (h : IsLabelName n) : '/' ∉ n := fun hn => by
  have := h.2.2.1 '/' hn
  unfold NameChar at this
  revert this
  decide

theorem IsLabelPrefix.slash_not_mem {p : List Char} (h : IsLabelPrefix p) : '/' ∉ p := by
  obtain ⟨-, -, parts, -, rfl, hparts⟩ := h
  intro hp
  refine @forall_mem_intercalate (· ≠ '/') '.' parts (by decide) (fun q hq c hc => ?_) '/' hp rfl
  rintro rfl
  have := (hparts q hq).2.2.1 '/' hc
  unfold PartChar at this
  revert this
  decide

/-- `valid_oam_label` accepts exactly the label keys, whatever the value. -/
theorem valid_oam_label_iff (key value : String) :
    validOamLabel (key, value) = true ↔ IsLabelKey key.toList := by
  simp only [validOamLabel, IsLabelKey]
  rcases hs : splitOnce '/' key.toList with _ | ⟨pre, name⟩
  · have hslash := splitOnce_eq_none.mp hs
    rw [← isValidLabelName_iff]
    refine ⟨Or.inl, ?_⟩
    rintro (h | ⟨p, n, hk, -, -⟩)
    · exact h
    · exact absurd (hk ▸ List.mem_append_right p (List.mem_cons_self _ _)) hslash
  · obtain ⟨hk, -⟩ := splitOnce_eq_some.mp hs
    simp only [Bool.and_eq_true, isValidDnsSubdomain_iff, isValidLabelName_iff]
    refine ⟨fun h => Or.inr ⟨pre, name, hk, h⟩, ?_⟩
    rintro (h | ⟨p, n, hk', hp, hn⟩)
    · exact absurd (hk ▸ List.mem_append_right _ (List.mem_cons_self _ _)) h.slash_not_mem
    · have := splitOnce_eq_some.mpr ⟨hk', hp.slash_not_mem⟩
      rw [hs, Option.some.injEq, Prod.mk.injEq] at this
      obtain ⟨rfl, rfl⟩ := this
      exact ⟨hp, hn⟩

end Wadm
