import Wadm.StoredManifest

/-! # The model store

`ModelStorage` is not in this slice of the repository. Its contract (§4.4) is modelled from the
spec: rows keyed by `(account, lattice, name)` with a revision each, a `set` that compares
revisions, a `delete` that does not, and a `list` of the models of one lattice.
-/

namespace Wadm

/-- A store key: `(account_id?, lattice_id, name)`. -/
structure Key where
  accountId : Option String
  latticeId : String
  name : String
deriving DecidableEq

/-- How a store call fails: a revision mismatch, or anything else. -/
inductive StoreError where
  | conflict
  | storage
deriving DecidableEq

/-- `StatusType` of `wadm_types`. -/
inductive StatusType where
  | undeployed
  | reconciling
  | deployed
  | failed
  | waiting
deriving DecidableEq

/-- `ModelSummary`: one model as `list` reports it. -/
structure ModelSummary where
  name : String
  deployedVersion : Option String
  status : StatusType
  statusMessage : Option String
deriving DecidableEq

structure Row where
  key : Key
  model : StoredManifest
  revision : Nat
deriving DecidableEq

/-- A row as `list` reports it. -/
def Row.summary (r : Row) : ModelSummary :=
  { name := r.key.name, deployedVersion := r.model.deployedVersion, status := .undeployed,
    statusMessage := none }

/-- Whether a row belongs to the lattice `latticeId` of `accountId`. -/
def Row.inLattice (accountId : Option String) (latticeId : String) (r : Row) : Bool :=
  r.key.accountId == accountId && r.key.latticeId == latticeId

/-- Modelled from the spec: the rows of the store in listing order, and the last revision it
handed out. Every write takes a fresh revision. -/
structure Store where
  rows : List Row
  seq : Nat
deriving DecidableEq

namespace Store

def empty : Store := ⟨[], 0⟩

/-- Modelled from the spec: `get`, the model under a key and its revision. -/
def get (s : Store) (k : Key) : Option (StoredManifest × Nat) :=
  (s.rows.find? (·.key == k)).map fun r => (r.model, r.revision)

/-- A write with a fresh revision: in place if the key has a row, at the end otherwise. -/
def write (s : Store) (k : Key) (sm : StoredManifest) : Store :=
  let rev := s.seq + 1
  { rows := if s.rows.any (·.key == k) then s.rows.map fun r => if r.key == k then ⟨k, sm, rev⟩ else r
      else s.rows ++ [⟨k, sm, rev⟩]
    seq := rev }

/-- Modelled from the spec: the revision check of `set`; revision `0` asks for an absent key. -/
def revisionMatches (s : Store) (k : Key) : Option Nat → Bool
  | none => true
  | some r =>
    match s.get k with
    | some (_, cur) => cur == r
    | none => r == 0

/-- Modelled from the spec: `set` writes a model under its own name. -/
def set (s : Store) (accountId : Option String) (latticeId : String) (sm : StoredManifest)
    (expected : Option Nat) : Except StoreError Store :=
  let k : Key := ⟨accountId, latticeId, sm.name⟩
  if s.revisionMatches k expected then .ok (s.write k sm) else .error .conflict

/-- Modelled from the spec: `delete`, which takes no revision. -/
def delete (s : Store) (k : Key) : Store := { s with rows := s.rows.filter (·.key != k) }

/-- Modelled from the spec: `list`, the models of one lattice in row order. -/
def list (s : Store) (accountId : Option String) (latticeId : String) : List ModelSummary :=
  (s.rows.filter (Row.inLattice accountId latticeId)).map Row.summary

/-! ## Reading after a write -/

theorem get_eq_some {s : Store} {k : Key} {p : StoredManifest × Nat} :
    s.get k = some p ↔ ∃ r, s.rows.find? (·.key == k) = some r ∧ (r.model, r.revision) = p := by
  simp [get]

theorem mem_of_get {s : Store} {k : Key} {sm : StoredManifest} {rev : Nat}
    (h : s.get k = some (sm, rev)) : ⟨k, sm, rev⟩ ∈ s.rows := by
  obtain ⟨r, hr, he⟩ := get_eq_some.mp h
  have hk := List.find?_some hr
  simp only [beq_iff_eq] at hk
  cases he
  exact hk ▸ List.mem_of_find?_eq_some hr

/-- In a store whose keys are distinct, `get` finds every row under its own key. -/
theorem get_of_mem {s : Store} (hkeys : (s.rows.map (·.key)).Nodup) {r : Row} (h : r ∈ s.rows) :
    s.get r.key = some (r.model, r.revision) := by
  obtain ⟨rows, seq⟩ := s
  simp only [get]
  induction rows with
  | nil => cases h
  | cons r0 rest ih =>
    simp only [List.map_cons, List.nodup_cons, List.mem_map] at hkeys
    rcases List.mem_cons.mp h with rfl | hr
    · simp
    · have hne : r0.key ≠ r.key := fun he => hkeys.1 ⟨r, hr, he.symm⟩
      simpa [List.find?_cons, hne] using ih hkeys.2 hr

/-- In a store whose keys are distinct, `get` of the name a listed row reports finds that row. -/
theorem get_of_mem_lattice {s : Store} (hkeys : (s.rows.map (·.key)).Nodup)
    {accountId : Option String} {latticeId : String} {r : Row}
    (h : r ∈ s.rows.filter (Row.inLattice accountId latticeId)) :
    s.get ⟨accountId, latticeId, r.key.name⟩ = some (r.model, r.revision) := by
  obtain ⟨hr, hl⟩ := List.mem_filter.mp h
  simp only [Row.inLattice, Bool.and_eq_true, beq_iff_eq] at hl
  rw [← hl.1, ← hl.2]
  exact get_of_mem hkeys hr

theorem mem_write {s : Store} {k : Key} {sm : StoredManifest} {r : Row}
    (h : r ∈ (s.write k sm).rows) : r ∈ s.rows ∨ r = ⟨k, sm, s.seq + 1⟩ := by
  simp only [write] at h
  split at h
  · obtain ⟨r', hr', rfl⟩ := List.mem_map.mp h
    split <;> simp_all
  · simpa using h

/-- A write keeps the rows of the other keys and replaces every row of its own. -/
theorem mem_write_cases {s : Store} {k : Key} {sm : StoredManifest} {r : Row}
    (h : r ∈ (s.write k sm).rows) : (r ∈ s.rows ∧ r.key ≠ k) ∨ r = ⟨k, sm, s.seq + 1⟩ := by
  simp only [write] at h
  split at h
  · obtain ⟨r', hr', rfl⟩ := List.mem_map.mp h
    by_cases hk : r'.key = k <;> simp [hk, hr']
  · rename_i hany
    rcases List.mem_append.mp h with h | h
    · exact .inl ⟨h, fun hk => hany (List.any_eq_true.mpr ⟨r, h, by simp [hk]⟩)⟩
    · exact .inr (List.mem_singleton.mp h)

theorem mem_delete {s : Store} {k : Key} {r : Row} (h : r ∈ (s.delete k).rows) : r ∈ s.rows :=
  (List.mem_filter.mp h).1

theorem get_delete_self (s : Store) (k : Key) : (s.delete k).get k = none := by
  simp [get, delete, List.find?_filter]

/-- A `set` that succeeds has written the model under its own name. -/
theorem set_eq_ok (k : Key) {s s' : Store} {sm : StoredManifest} {e : Option Nat}
    (h : s.set k.accountId k.latticeId sm e = .ok s') (hname : sm.name = k.name) :
    s' = s.write k sm := by
  simp only [Store.set, hname] at h
  split at h
  · cases h
    rfl
  · cases h

/-! ## Keys -/

/-- The keys of the store are distinct, and each row holds a model named by its key: `set`
writes a model under its own name. -/
structure Keyed (s : Store) : Prop where
  nodup : (s.rows.map (·.key)).Nodup
  named : ∀ r ∈ s.rows, r.model.name = r.key.name

theorem keyed_empty : empty.Keyed := ⟨List.nodup_nil, fun _ h => by cases h⟩

/-- A write replaces the row of its key in place, keeping the keys as they were. -/
theorem keys_write_of_any {s : Store} {k : Key} (sm : StoredManifest) (h : s.rows.any (·.key == k)) :
    (s.write k sm).rows.map (·.key) = s.rows.map (·.key) := by
  simp only [write, h, if_true, List.map_map]
  congr 1
  funext r
  by_cases hk : r.key = k <;> simp [hk]

theorem get_write_self (s : Store) (k : Key) (sm : StoredManifest) :
    (s.write k sm).get k = some (sm, s.seq + 1) := by
  by_cases h : s.rows.any (·.key == k)
  · obtain ⟨r, hr, hk⟩ := List.any_eq_true.mp h
    have hfind : (s.rows.find? (·.key == k)).isSome := List.find?_isSome.mpr ⟨r, hr, hk⟩
    obtain ⟨r0, hr0⟩ := Option.isSome_iff_exists.mp hfind
    have hk0 : r0.key = k := by simpa using List.find?_some hr0
    have hp : ((·.key == k) ∘ fun r : Row => if r.key == k then (⟨k, sm, s.seq + 1⟩ : Row) else r) =
        (·.key == k) := by
      funext r
      by_cases hr : r.key = k <;> simp [hr]
    simp only [get, write, h, if_true, List.find?_map, hp, hr0]
    simp [hk0]
  · simp only [get, write, h, if_false, Bool.false_eq_true, List.find?_append]
    rw [List.find?_eq_none.mpr fun r hr hk => h (List.any_eq_true.mpr ⟨r, hr, hk⟩)]
    simp

theorem Keyed.write {s : Store} {k : Key} {sm : StoredManifest} (hs : s.Keyed) (hk : sm.name = k.name) :
    (s.write k sm).Keyed := by
  refine ⟨?_, fun r hr => ?_⟩
  · by_cases h : s.rows.any (·.key == k)
    · rw [keys_write_of_any sm h]
      exact hs.nodup
    · simp only [Store.write, h, if_false, Bool.false_eq_true, List.map_append, List.map_cons,
        List.map_nil]
      refine List.nodup_append.mpr ⟨hs.nodup, List.nodup_singleton _, ?_⟩
      simp only [List.disjoint_singleton, List.mem_map, not_exists, not_and]
      exact fun r hr hrk => h (List.any_eq_true.mpr ⟨r, hr, by simp [hrk]⟩)
  · rcases mem_write hr with hr | rfl
    · exact hs.named r hr
    · exact hk

theorem Keyed.get_name {s : Store} (hs : s.Keyed) {k : Key} :
    ∀ p ∈ s.get k, p.1.name = k.name := fun p hp => by
  have hr := mem_of_get (Option.mem_def.mp hp)
  exact hs.named _ hr

theorem Keyed.delete {s : Store} (hs : s.Keyed) (k : Key) : (s.delete k).Keyed :=
  ⟨hs.nodup.sublist ((List.filter_sublist _).map _), fun r hr => hs.named r (mem_delete hr)⟩

theorem Keyed.set {s s' : Store} {a : Option String} {l : String} {sm : StoredManifest}
    {e : Option Nat} (hs : s.Keyed) (h : s.set a l sm e = .ok s') : s'.Keyed := by
  simp only [Store.set] at h
  split at h
  · cases h
    exact hs.write rfl
  · cases h

/-! ## Other keys -/

@[simp] theorem write_seq (s : Store) (k : Key) (sm : StoredManifest) :
    (s.write k sm).seq = s.seq + 1 := rfl

@[simp] theorem delete_seq (s : Store) (k : Key) : (s.delete k).seq = s.seq := rfl

theorem get_write_of_ne {s : Store} {k k' : Key} (sm : StoredManifest) (h : k' ≠ k) :
    (s.write k sm).get k' = s.get k' := by
  by_cases ha : s.rows.any (·.key == k)
  · have hp : ((·.key == k') ∘ fun r : Row => if r.key == k then (⟨k, sm, s.seq + 1⟩ : Row) else r) =
        (·.key == k') := by
      funext r
      by_cases hr : r.key = k <;> simp [hr, Ne.symm h]
    simp only [get, write, ha, if_true, List.find?_map, hp, Option.map_map]
    rcases hf : s.rows.find? (·.key == k') with _ | r0
    · simp [hf]
    · have hk : r0.key = k' := by simpa using List.find?_some hf
      simp [hf, hk, h]
  · simp only [get, write, ha, if_false, Bool.false_eq_true, List.find?_append]
    cases s.rows.find? (·.key == k') <;> simp [Ne.symm h]

theorem get_delete_of_ne {s : Store} {k k' : Key} (h : k' ≠ k) : (s.delete k).get k' = s.get k' := by
  simp only [get, delete, List.find?_filter]
  congr 2
  funext r
  by_cases hr : r.key = k' <;> simp [hr, h]

/-- Writing back the model a key holds changes only its revision: every key keeps its model. -/
theorem model_write_of_get {s : Store} {k : Key} {sm : StoredManifest} {rev : Nat}
    (h : s.get k = some (sm, rev)) (k' : Key) :
    ((s.write k sm).get k').map Prod.fst = (s.get k').map Prod.fst := by
  by_cases hk : k' = k
  · subst hk
    rw [get_write_self, h]
    rfl
  · rw [get_write_of_ne _ hk]

/-! ## Revisions

A revision names one write: every write takes a fresh one. So a row a task has read is still
the only row that can carry its revision, however the store has changed since, and a `set` at
that revision can only replace it.
-/

/-- Every row's revision was handed out, and no other row carries it. -/
structure Revisions (s : Store) : Prop where
  bounded : ∀ r ∈ s.rows, 0 < r.revision ∧ r.revision ≤ s.seq
  unique : ∀ r ∈ s.rows, ∀ r' ∈ s.rows, r.revision = r'.revision → r = r'

/-- A row read from the store that a later `set` can still rely on: its revision was handed
out, and any row that carries it is that row. -/
def Stamped (s : Store) (r : Row) : Prop :=
  0 < r.revision ∧ r.revision ≤ s.seq ∧ ∀ r' ∈ s.rows, r'.revision = r.revision → r' = r

theorem revisions_empty : empty.Revisions := ⟨fun _ h => (nomatch h), fun _ h => (nomatch h)⟩

theorem Revisions.write {s : Store} (hs : s.Revisions) (k : Key) (sm : StoredManifest) :
    (s.write k sm).Revisions := by
  have hold : ∀ r ∈ s.rows, r.revision ≠ s.seq + 1 := fun r hr => by
    have := (hs.bounded r hr).2
    omega
  refine ⟨fun r hr => ?_, fun r hr r' hr' he => ?_⟩
  · rcases mem_write hr with hr | rfl
    · have := hs.bounded r hr
      simp only [write_seq]
      omega
    · exact ⟨Nat.succ_pos _, le_rfl⟩
  · rcases mem_write hr with hr | rfl <;> rcases mem_write hr' with hr' | rfl
    · exact hs.unique r hr r' hr' he
    · exact absurd he (hold r hr)
    · exact absurd he.symm (hold r' hr')
    · rfl

theorem Revisions.delete {s : Store} (hs : s.Revisions) (k : Key) : (s.delete k).Revisions :=
  ⟨fun r hr => hs.bounded r (mem_delete hr),
    fun r hr r' hr' => hs.unique r (mem_delete hr) r' (mem_delete hr')⟩

theorem Revisions.stamped_of_get {s : Store} (hs : s.Revisions) {k : Key} {sm : StoredManifest}
    {rev : Nat} (h : s.get k = some (sm, rev)) : s.Stamped ⟨k, sm, rev⟩ :=
  have hr := mem_of_get h
  ⟨(hs.bounded _ hr).1, (hs.bounded _ hr).2, fun r' hr' he => hs.unique r' hr' _ hr he⟩

theorem Stamped.write {s : Store} {r : Row} (h : s.Stamped r) (k : Key) (sm : StoredManifest) :
    (s.write k sm).Stamped r := by
  obtain ⟨hpos, hle, hrows⟩ := h
  refine ⟨hpos, by simp only [write_seq]; omega, fun r' hr' he => ?_⟩
  rcases mem_write hr' with hr' | rfl
  · exact hrows r' hr' he
  · simp only at he
    omega

theorem Stamped.delete {s : Store} {r : Row} (h : s.Stamped r) (k : Key) : (s.delete k).Stamped r :=
  ⟨h.1, h.2.1, fun r' hr' => h.2.2 r' (mem_delete hr')⟩

/-- A `set` at the revision of a stamped row succeeds only under that row's key, and replaces
the row. -/
theorem Stamped.set_eq_ok {s s' : Store} {r : Row} (h : s.Stamped r) {a : Option String} {l : String}
    {sm : StoredManifest} (hset : s.set a l sm (some r.revision) = .ok s') :
    r.key = ⟨a, l, sm.name⟩ ∧ s.get r.key = some (r.model, r.revision) ∧ s' = s.write r.key sm := by
  simp only [Store.set, revisionMatches] at hset
  split at hset
  · rename_i hm
    cases hset
    split at hm
    · rename_i m cur hg
      obtain rfl : cur = r.revision := by simpa using hm
      have hr : (⟨⟨a, l, sm.name⟩, m, r.revision⟩ : Row) = r := h.2.2 _ (mem_of_get hg) rfl
      rw [← hr]
      exact ⟨rfl, hg, rfl⟩
    · have : r.revision = 0 := by simpa using hm
      exact absurd this (Nat.pos_iff_ne_zero.mp h.1)
  · cases hset

/-- A `set` at revision `0` succeeds only on an absent key: no row carries revision `0`. -/
theorem Revisions.set_zero {s s' : Store} (hs : s.Revisions) {a : Option String} {l : String}
    {sm : StoredManifest} (hset : s.set a l sm (some 0) = .ok s') :
    s.get ⟨a, l, sm.name⟩ = none ∧ s' = s.write ⟨a, l, sm.name⟩ sm := by
  simp only [Store.set, revisionMatches] at hset
  split at hset
  · rename_i hm
    cases hset
    split at hm
    · rename_i m cur hg
      obtain rfl : cur = 0 := by simpa using hm
      exact absurd (hs.bounded _ (mem_of_get hg)).1 (Nat.lt_irrefl 0)
    · exact ⟨‹_›, rfl⟩
  · cases hset

end Store

end Wadm
