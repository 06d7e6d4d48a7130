import Wadm.Manifest
import Mathlib.Data.List.Nodup

/-! # Stored manifests

`StoredManifest` lives in the `model` module, which is not part of this slice of the
repository. Its operations are modelled from the spec (§3 and §4.3); each keeps the name the
handler calls it by.
-/

namespace Wadm

/-- Modelled from the spec: `StoredManifest`, the versions of one model in insertion order and
the version that is deployed (§3). -/
structure StoredManifest where
  manifests : List Manifest
  deployedVersion : Option String
deriving DecidableEq

/-- `StoredManifest::default()`. -/
instance : Inhabited StoredManifest := ⟨{ manifests := [], deployedVersion := none }⟩

namespace StoredManifest

def count (sm : StoredManifest) : Nat := sm.manifests.length

def isEmpty (sm : StoredManifest) : Bool := sm.manifests.isEmpty

/-- Modelled from the spec: `all_versions`, the version strings in insertion order. -/
def allVersions (sm : StoredManifest) : List String := sm.manifests.map (·.version)

/-- Modelled from the spec: `add_version` appends `m` unless a stored version has its version
string, and says whether it did. -/
def addVersion (sm : StoredManifest) (m : Manifest) : Bool × StoredManifest :=
  if sm.manifests.any (·.version == m.version) then (false, sm)
  else (true, { sm with manifests := sm.manifests ++ [m] })

/-- Modelled from the spec: `get_version`. -/
def getVersion (sm : StoredManifest) (v : String) : Option Manifest :=
  sm.manifests.find? (·.version == v)

/-- Modelled from the spec: `get_current`, the last inserted version. Rust panics on an empty
model, which is the `none` here. -/
def getCurrent (sm : StoredManifest) : Option Manifest := sm.manifests.getLast?

/-- Modelled from the spec: `name`, the store key of a model (§3, invariant 3), is
`get_current`'s name; empty for an empty model, where Rust panics. -/
def name (sm : StoredManifest) : String := (sm.getCurrent.map (·.metadata.name)).getD ""

/-- `delete_version` removes version `v` and says whether it did. The deployed version is left as
it is: `delete_model` reads it afterwards and undeploys when it names `v` (`handlers.rs`
340-351). -/
def deleteVersion (sm : StoredManifest) (v : String) : Bool × StoredManifest :=
  let manifests := sm.manifests.filter (·.version != v)
  (manifests.length != sm.manifests.length, { sm with manifests := manifests })

/-- Modelled from the spec: the version `deploy` aims at; an absent version or `latest` means
the current one. -/
def deployTarget (sm : StoredManifest) : Option String → Option String
  | some v => if v = latestVersion then sm.getCurrent.map (·.version) else some v
  | none => sm.getCurrent.map (·.version)

/-- Modelled from the spec: `deploy` sets the deployed version iff its target is stored. -/
def deploy (sm : StoredManifest) (version : Option String) : Bool × StoredManifest :=
  match sm.deployTarget version with
  | some t =>
    if sm.manifests.any (·.version == t) then (true, { sm with deployedVersion := some t })
    else (false, sm)
  | none => (false, sm)

/-- Modelled from the spec: `undeploy` clears the deployed version and says whether one was set. -/
def undeploy (sm : StoredManifest) : Bool × StoredManifest :=
  (sm.deployedVersion.isSome, { sm with deployedVersion := none })

/-- Modelled from the spec: `is_deployed`. -/
def isDeployed (sm : StoredManifest) (v : String) : Bool := sm.deployedVersion == some v

/-- Modelled from the spec: `get_deployed`. -/
def getDeployed (sm : StoredManifest) : Option Manifest := sm.deployedVersion.bind sm.getVersion

/-! ## The invariants of §3 -/

/-- A deployed version, if set, is one of the stored versions. -/
def DeployedStored (sm : StoredManifest) : Prop := ∀ v ∈ sm.deployedVersion, v ∈ sm.allVersions

/-- The invariants a stored model keeps: it has a version, its version strings are distinct,
and its deployed version is one of them. -/
structure WellFormed (sm : StoredManifest) : Prop where
  nonempty : sm.manifests ≠ []
  nodup : sm.allVersions.Nodup
  deployed : sm.DeployedStored

@[simp] theorem default_manifests : (default : StoredManifest).manifests = [] := rfl

@[simp] theorem default_deployedVersion : (default : StoredManifest).deployedVersion = none := rfl

@[simp] theorem isEmpty_eq (sm : StoredManifest) : sm.isEmpty = sm.manifests.isEmpty := rfl

@[simp] theorem allVersions_mk (ms : List Manifest) (d : Option String) :
    allVersions ⟨ms, d⟩ = ms.map (·.version) := rfl

theorem mem_allVersions {sm : StoredManifest} {v : String} :
    v ∈ sm.allVersions ↔ ∃ m ∈ sm.manifests, m.version = v := by
  simp [allVersions]

/-- A model whose versions all carry the name `n` is named `n`. -/
theorem name_eq_of_forall {sm : StoredManifest} {n : String} (hne : sm.manifests ≠ [])
    (h : ∀ m ∈ sm.manifests, m.metadata.name = n) : sm.name = n := by
  simp only [name, getCurrent, List.getLast?_eq_getLast _ hne, Option.map_some', Option.getD_some]
  exact h _ (List.getLast_mem hne)

theorem WellFormed.getCurrent_isSome {sm : StoredManifest} (h : sm.WellFormed) :
    sm.getCurrent.isSome := by
  simpa [getCurrent] using h.nonempty

theorem mem_of_getCurrent {sm : StoredManifest} {m : Manifest} (h : sm.getCurrent = some m) :
    m ∈ sm.manifests :=
  List.mem_of_getLast?_eq_some h

theorem getVersion_eq_some {sm : StoredManifest} {v : String} {m : Manifest}
    (h : sm.getVersion v = some m) : m ∈ sm.manifests ∧ m.version = v := by
  have := List.find?_some h
  exact ⟨List.mem_of_find?_eq_some h, by simpa using this⟩

theorem find?_version_of_mem {ms : List Manifest} {m : Manifest}
    (hn : (ms.map (·.version)).Nodup) (hm : m ∈ ms) : ms.find? (·.version == m.version) = some m := by
  induction ms with
  | nil => simp at hm
  | cons x ms ih =>
    rw [List.map_cons, List.nodup_cons] at hn
    rcases List.mem_cons.mp hm with rfl | hm
    · simp
    · have hne : x.version ≠ m.version := fun he => hn.1 (he ▸ List.mem_map_of_mem _ hm)
      simp [hne, ih hn.2 hm]

/-- With distinct versions, a stored manifest is found by its own version. -/
theorem getVersion_of_mem {sm : StoredManifest} {m : Manifest} (hn : sm.allVersions.Nodup)
    (hm : m ∈ sm.manifests) : sm.getVersion m.version = some m :=
  find?_version_of_mem hn hm

theorem getVersion_isSome {sm : StoredManifest} {v : String} (h : v ∈ sm.allVersions) :
    (sm.getVersion v).isSome := by
  obtain ⟨m, hm, rfl⟩ := mem_allVersions.mp h
  simpa [getVersion, List.find?_isSome] using ⟨m, hm, rfl⟩

/-! ## Each operation keeps the invariants -/

theorem default_nodup : (default : StoredManifest).allVersions.Nodup := List.nodup_nil

theorem default_deployedStored : (default : StoredManifest).DeployedStored := fun _ h => by
  cases h

theorem WellFormed.deployedStored_nodup {sm : StoredManifest} (h : sm.WellFormed) :
    sm.allVersions.Nodup ∧ sm.DeployedStored := ⟨h.nodup, h.deployed⟩

theorem addVersion_wellFormed {sm sm' : StoredManifest} {m : Manifest} (hn : sm.allVersions.Nodup)
    (hd : sm.DeployedStored) (h : sm.addVersion m = (true, sm')) : sm'.WellFormed := by
  unfold addVersion at h
  split at h
  · cases h
  rename_i hany
  cases h
  simp only [List.any_eq_true, beq_iff_eq, not_exists, not_and] at hany
  refine ⟨by simp, ?_, fun v hv => ?_⟩
  · simp only [allVersions, List.map_append, List.map_cons, List.map_nil] at hn ⊢
    exact hn.append (List.nodup_singleton _)
      (List.disjoint_singleton.mpr fun hm => by
        obtain ⟨x, hx, he⟩ := List.mem_map.mp hm
        exact hany x hx he)
  · simp only [allVersions, List.map_append, List.mem_append]
    exact .inl (hd v hv)

/-- `add_version` of a new version appends it. -/
theorem addVersion_of_not_mem {sm : StoredManifest} {m : Manifest} (h : m.version ∉ sm.allVersions) :
    sm.addVersion m = (true, ⟨sm.manifests ++ [m], sm.deployedVersion⟩) := by
  have hany : sm.manifests.any (·.version == m.version) = false := by
    simpa [mem_allVersions] using h
  simp [addVersion, hany]

/-- `add_version` of a stored version changes nothing. -/
theorem addVersion_of_mem {sm : StoredManifest} {m : Manifest} (h : m.version ∈ sm.allVersions) :
    sm.addVersion m = (false, sm) := by
  obtain ⟨x, hx, he⟩ := mem_allVersions.mp h
  have hany : sm.manifests.any (·.version == m.version) = true :=
    List.any_eq_true.mpr ⟨x, hx, by simp [he]⟩
  simp [addVersion, hany]

/-- What a successful `add_version` does: append a version that is not stored yet. -/
theorem addVersion_eq_true {sm sm' : StoredManifest} {m : Manifest}
    (h : sm.addVersion m = (true, sm')) :
    m.version ∉ sm.allVersions ∧ sm' = ⟨sm.manifests ++ [m], sm.deployedVersion⟩ := by
  by_cases hv : m.version ∈ sm.allVersions
  · rw [addVersion_of_mem hv] at h
    cases h
  · rw [addVersion_of_not_mem hv] at h
    cases h
    exact ⟨hv, rfl⟩

theorem getVersion_append_of_not_mem {sm : StoredManifest} {m : Manifest} (d : Option String)
    (h : m.version ∉ sm.allVersions) :
    (⟨sm.manifests ++ [m], d⟩ : StoredManifest).getVersion m.version = some m := by
  have hnone : sm.manifests.find? (·.version == m.version) = none :=
    List.find?_eq_none.mpr fun x hx he => h (mem_allVersions.mpr ⟨x, hx, by simpa using he⟩)
  simp [getVersion, List.find?_append, hnone]

theorem getVersion_eq_none {sm : StoredManifest} {v : String} :
    sm.getVersion v = none ↔ v ∉ sm.allVersions := by
  simp [getVersion, mem_allVersions]

/-- Deleting the version just appended gives back the versions there were. -/
theorem deleteVersion_append_of_not_mem {sm : StoredManifest} {m : Manifest} (d : Option String)
    (h : m.version ∉ sm.allVersions) :
    (⟨sm.manifests ++ [m], d⟩ : StoredManifest).deleteVersion m.version = (true, ⟨sm.manifests, d⟩) := by
  have hkeep : sm.manifests.filter (·.version != m.version) = sm.manifests :=
    List.filter_eq_self.mpr fun x hx => by
      simpa using fun he => h (mem_allVersions.mpr ⟨x, hx, he⟩)
  simp [deleteVersion, hkeep]

/-- A model is named by the version appended last. -/
@[simp] theorem name_append (ms : List Manifest) (m : Manifest) (d : Option String) :
    (⟨ms ++ [m], d⟩ : StoredManifest).name = m.metadata.name := by
  simp [name, getCurrent]

theorem deleteVersion_nodup {sm : StoredManifest} (v : String) (hn : sm.allVersions.Nodup) :
    (sm.deleteVersion v).2.allVersions.Nodup :=
  hn.sublist ((List.filter_sublist _).map _)

@[simp] theorem deleteVersion_manifests (sm : StoredManifest) (v : String) :
    (sm.deleteVersion v).2.manifests = sm.manifests.filter (·.version != v) := rfl

@[simp] theorem deleteVersion_deployedVersion (sm : StoredManifest) (v : String) :
    (sm.deleteVersion v).2.deployedVersion = sm.deployedVersion := rfl

/-- The check `delete_model` makes after `delete_version`, which leaves the deployed version
as it was: is `v` the deployed version. -/
theorem deployedVersion_map_beq (sm : StoredManifest) (v : String) :
    (sm.deployedVersion.map (· == v)).getD false = (sm.deployedVersion == some v) := by
  cases sm.deployedVersion <;> simp

/-- What `delete_model` decides once `delete_version` has deleted `v`: the `undeploy` hint, and
the model it stores, without `v` and undeployed iff `v` was the deployed version. -/
theorem deleteVersion_undeploy_eq (sm : StoredManifest) (v : String) :
    (if ((sm.deleteVersion v).2.deployedVersion.map (· == v)).getD false = true then
        (true, (sm.deleteVersion v).2.undeploy.2) else (false, (sm.deleteVersion v).2)) =
      (sm.deployedVersion == some v, ⟨sm.manifests.filter (·.version != v),
        if sm.deployedVersion = some v then none else sm.deployedVersion⟩) := by
  by_cases h : sm.deployedVersion = some v <;> simp [h, deleteVersion, undeploy, deployedVersion_map_beq]

/-- The model `delete_model` stores after deleting a version is well formed when versions
remain. -/
theorem deleteVersion_undeploy_wellFormed {sm : StoredManifest} {v : String} (hw : sm.WellFormed)
    (hne : sm.manifests.filter (·.version != v) ≠ []) :
    (⟨sm.manifests.filter (·.version != v),
      if sm.deployedVersion = some v then none else sm.deployedVersion⟩ : StoredManifest).WellFormed := by
  refine ⟨hne, hw.nodup.sublist ((List.filter_sublist _).map _), fun w hw' => ?_⟩
  split at hw'
  · cases hw'
  rename_i hv
  obtain ⟨m, hm, rfl⟩ := mem_allVersions.mp (hw.deployed w hw')
  refine mem_allVersions.mpr ⟨m, List.mem_filter.mpr ⟨hm, ?_⟩, rfl⟩
  simpa using fun he : m.version = v => hv (he ▸ hw')

theorem deleteVersion_allVersions (sm : StoredManifest) (v : String) :
    (sm.deleteVersion v).2.allVersions = sm.allVersions.filter (· != v) := by
  simp [deleteVersion, allVersions, List.filter_map, Function.comp_def]

/-- `delete_version` deletes iff the version is stored. -/
theorem deleteVersion_fst {sm : StoredManifest} {v : String} :
    (sm.deleteVersion v).1 = true ↔ v ∈ sm.allVersions := by
  simp [deleteVersion, ← List.countP_eq_length_filter, List.countP_eq_length, mem_allVersions]

theorem undeploy_wellFormed {sm : StoredManifest} (hw : sm.WellFormed) : sm.undeploy.2.WellFormed :=
  ⟨hw.nonempty, hw.nodup, fun _ h => by cases h⟩

@[simp] theorem undeploy_deployedVersion (sm : StoredManifest) :
    sm.undeploy.2.deployedVersion = none := rfl

@[simp] theorem undeploy_manifests (sm : StoredManifest) : sm.undeploy.2.manifests = sm.manifests :=
  rfl

/-- What a successful `deploy` does: point at its target, which is a stored version. -/
theorem deploy_eq_true {sm sm' : StoredManifest} {version : Option String}
    (h : sm.deploy version = (true, sm')) :
    ∃ t, sm.deployTarget version = some t ∧ t ∈ sm.allVersions ∧
      sm' = { sm with deployedVersion := some t } := by
  unfold deploy at h
  split at h
  · rename_i t ht
    split at h
    · rename_i hany
      cases h
      simp only [List.any_eq_true, beq_iff_eq] at hany
      obtain ⟨m, hm, he⟩ := hany
      exact ⟨t, ht, mem_allVersions.mpr ⟨m, hm, he⟩, rfl⟩
    · cases h
  · cases h

theorem deploy_eq_false {sm sm' : StoredManifest} {version : Option String}
    (h : sm.deploy version = (false, sm')) : sm' = sm := by
  unfold deploy at h
  split at h
  · split at h
    · cases h
    · cases h; rfl
  · cases h; rfl

theorem deploy_wellFormed {sm : StoredManifest} (version : Option String) (hw : sm.WellFormed) :
    (sm.deploy version).2.WellFormed := by
  rcases h : sm.deploy version with ⟨_ | _, sm'⟩
  · rw [deploy_eq_false h]; exact hw
  · obtain ⟨t, -, ht, rfl⟩ := deploy_eq_true h
    exact ⟨hw.nonempty, hw.nodup, fun v hv => by cases hv; exact ht⟩

@[simp] theorem getVersion_with_deployed (sm : StoredManifest) (d : Option String) (v : String) :
    ({ sm with deployedVersion := d } : StoredManifest).getVersion v = sm.getVersion v := rfl

/-- `deploy` of a version whose target is stored points at it. -/
theorem deploy_of_target {sm : StoredManifest} {version : Option String} {t : String}
    (h : sm.deployTarget version = some t) (ht : t ∈ sm.allVersions) :
    sm.deploy version = (true, { sm with deployedVersion := some t }) := by
  obtain ⟨m, hm, rfl⟩ := mem_allVersions.mp ht
  have hany : sm.manifests.any (·.version == m.version) = true :=
    List.any_eq_true.mpr ⟨m, hm, beq_self_eq_true _⟩
  simp [deploy, h, hany]

theorem deployedVersion_of_getDeployed {sm : StoredManifest} {m : Manifest}
    (h : sm.getDeployed = some m) : sm.deployedVersion = some m.version := by
  obtain ⟨v, hv, hg⟩ := Option.bind_eq_some.mp h
  rw [hv, (getVersion_eq_some hg).2]

/-- A model that keeps its manifest at its deployed version among those of `sm`, and whose
deployed version was `sm`'s, is deployed at `sm`'s deployed manifest. -/
theorem getDeployed_of_sub {sm sm' : StoredManifest} (hn : sm.allVersions.Nodup)
    (hd : ∀ v ∈ sm'.deployedVersion, sm.deployedVersion = some v)
    (hsub : ∀ m ∈ sm'.manifests, m.version ∈ sm.deployedVersion → m ∈ sm.manifests) {m : Manifest}
    (h : sm'.getDeployed = some m) : sm.getDeployed = some m := by
  obtain ⟨v, hv, hg⟩ := Option.bind_eq_some.mp h
  obtain ⟨hm, rfl⟩ := getVersion_eq_some hg
  have hdv := hd _ hv
  simp only [getDeployed, hdv, Option.bind_some]
  exact getVersion_of_mem hn (hsub m hm hdv)

end StoredManifest

end Wadm
