import Mathlib.Data.List.Basic

/-! # Manifests and the string helpers the handler uses

The parts of `wadm_types::Manifest` that `handlers.rs` reads, and the few `str` methods it
calls (`trim`, `split_once`), written over `List Char` so that they compute.
-/

namespace Wadm

/-! ## Rust string methods -/

/-- `char::is_whitespace`: the Unicode `White_Space` property. -/
def isWhitespace (c : Char) : Bool :=
  let v := c.toNat
  (0x09 ≤ v && v ≤ 0x0D) || v == 0x20 || v == 0x85 || v == 0xA0 || v == 0x1680 ||
    (0x2000 ≤ v && v ≤ 0x200A) || v == 0x2028 || v == 0x2029 || v == 0x202F || v == 0x205F ||
    v == 0x3000

/-- `str::trim`. -/
def trim (s : String) : String :=
  String.mk ((s.toList.dropWhile isWhitespace).reverse.dropWhile isWhitespace).reverse

/-- `str::split_once` on a character: the text before and after its first occurrence. -/
def splitOnce (sep : Char) : List Char → Option (List Char × List Char)
  | [] => none
  | c :: cs => if c = sep then some ([], cs) else (splitOnce sep cs).map fun p => (c :: p.1, p.2)

theorem splitOnce_append {sep : Char} {a : List Char} (b : List Char) (h : sep ∉ a) :
    splitOnce sep (a ++ sep :: b) = some (a, b) := by
  induction a with
  | nil => simp [splitOnce]
  | cons d a ih =>
    simp only [List.mem_cons, not_or] at h
    simp [splitOnce, Ne.symm h.1, ih h.2]

theorem eq_of_splitOnce {sep : Char} {s a b : List Char} (h : splitOnce sep s = some (a, b)) :
    s = a ++ sep :: b ∧ sep ∉ a := by
  induction s generalizing a with
  | nil => simp [splitOnce] at h
  | cons c cs ih =>
    by_cases hc : c = sep
    · simp only [splitOnce, hc, if_true, Option.some.injEq, Prod.mk.injEq] at h
      obtain ⟨rfl, rfl⟩ := h
      simp [hc]
    · simp only [splitOnce, hc, if_false, Option.map_eq_some'] at h
      obtain ⟨⟨a', b'⟩, h', he⟩ := h
      cases he
      obtain ⟨rfl, hn⟩ := ih h'
      simp [hn, Ne.symm hc]

theorem splitOnce_eq_some {sep : Char} {s a b : List Char} :
    splitOnce sep s = some (a, b) ↔ s = a ++ sep :: b ∧ sep ∉ a :=
  ⟨eq_of_splitOnce, fun ⟨hs, ha⟩ => hs ▸ splitOnce_append b ha⟩

theorem splitOnce_eq_none {sep : Char} {s : List Char} : splitOnce sep s = none ↔ sep ∉ s := by
  induction s with
  | nil => simp [splitOnce]
  | cons c cs ih =>
    by_cases hc : c = sep
    · simp [splitOnce, hc]
    · simp [splitOnce, hc, ih, Ne.symm hc]

/-! ## The manifest -/

/-- The `properties` of a trait: only a link's `target` is read here. -/
inductive TraitProperty where
  | link (target : String)
  | other
deriving DecidableEq

structure Trait where
  properties : TraitProperty
deriving DecidableEq

/-- The two kinds of component, with the fields the handler reads. -/
inductive Properties where
  | component (id : Option String)
  | capability (id : Option String) (image : String)
deriving DecidableEq

structure Component where
  name : String
  properties : Properties
  traits : Option (List Trait)
deriving DecidableEq

structure Metadata where
  name : String
  labels : List (String × String)
  annotations : List (String × String)
deriving DecidableEq

structure Manifest where
  metadata : Metadata
  version : String
  components : List Component
deriving DecidableEq

/-- `LATEST_VERSION` of `wadm_types`: the reserved version that means the newest one. -/
def latestVersion : String := "latest"

/-! ## Image references -/

/-- Splits `repository:version` at the first `:`; a reference without one is ignored. -/
def parseImageRef (imageName : String) : Option (String × String) :=
  (splitOnce ':' imageName.toList).map fun p => (String.mk p.1, String.mk p.2)

theorem parseImageRef_eq_some {imageName r v : String} :
    parseImageRef imageName = some (r, v) ↔
      imageName.toList = r.toList ++ ':' :: v.toList ∧ ':' ∉ r.toList := by
  constructor
  · intro h
    obtain ⟨⟨a, b⟩, hs, he⟩ := Option.map_eq_some'.mp h
    cases he
    exact splitOnce_eq_some.mp hs
  · intro h
    exact Option.map_eq_some'.mpr ⟨(r.toList, v.toList), splitOnce_eq_some.mpr h, rfl⟩

end Wadm
