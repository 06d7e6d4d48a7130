import Wadm.Handler

/-! # Deploy admission

A `deploy_model` that changes the store carries out what its admission check allowed
(`DeployPlan`).
-/

namespace Wadm

open StoredManifest

/-! ## The staged manifest is the one deployed -/

/-- What `staged_model` resolves to is the target of `deploy`, and is found again by its
version. -/
theorem resolveStaged_spec {name : String} {manifests : StoredManifest} {version : Option String}
    {staged : Manifest} (hw : manifests.WellFormed)
    (hstaged : ∀ k, resolveStaged name manifests version k = k staged) :
    manifests.deployTarget version = some staged.version ∧
      manifests.getVersion staged.version = some staged := by
  have h := hstaged fun m => .ret (.get ⟨.success, "", some m⟩)
  obtain ⟨cur, hcur⟩ := Option.isSome_iff_exists.mp hw.getCurrent_isSome
  have hfound := getVersion_of_mem hw.nodup (mem_of_getCurrent hcur)
  unfold resolveStaged at h
  simp only [hcur] at h
  rcases version with _ | v
  · simp only [Prog.ret.injEq, Reply.get.injEq, GetModelResponse.mk.injEq, Option.some.injEq,
      true_and] at h
    subst h
    exact ⟨by simp [deployTarget, hcur], hfound⟩
  by_cases hv : v = latestVersion
  · simp only [hv, if_true, Prog.ret.injEq, Reply.get.injEq, GetModelResponse.mk.injEq,
      Option.some.injEq, true_and] at h
    subst h
    exact ⟨by simp [deployTarget, hcur, hv], hfound⟩
  simp only [hv, if_false] at h
  rcases hg : manifests.getVersion v with _ | m
  · simp [hg] at h
  simp only [hg, Prog.ret.injEq, Reply.get.injEq, GetModelResponse.mk.injEq, Option.some.injEq,
    true_and] at h
  subst h
  obtain ⟨-, rfl⟩ := getVersion_eq_some hg
  exact ⟨by simp [deployTarget, hv], hg⟩

/-- `staged_model` either resolves to one manifest, whatever the handler does with it, or ends
the handler with a panic or an error reply. -/
theorem resolveStaged_cases (name : String) (manifests : StoredManifest) (version : Option String) :
    (∃ staged, ∀ k, resolveStaged name manifests version k = k staged) ∨
      ∃ p : Prog Reply, (p = .abort emptyModelPanic ∨ ∃ d, p = .ret (.deploy d) ∧ d.result = .error) ∧
        ∀ k, resolveStaged name manifests version k = p := by
  have hcurrent : (∃ staged, ∀ k, resolveStaged name manifests none k = k staged) ∨
      ∃ p : Prog Reply, (p = .abort emptyModelPanic ∨ ∃ d, p = .ret (.deploy d) ∧ d.result = .error) ∧
        ∀ k, resolveStaged name manifests none k = p := by
    rcases hc : manifests.getCurrent with _ | cur
    · exact .inr ⟨_, .inl rfl, fun k => by simp [resolveStaged, hc]⟩
    · exact .inl ⟨cur, fun k => by simp [resolveStaged, hc]⟩
  rcases version with _ | v
  · exact hcurrent
  by_cases hv : v = latestVersion
  · have hsame : ∀ k, resolveStaged name manifests (some v) k = resolveStaged name manifests none k := by
      simp [resolveStaged, hv]
    simpa only [hsame] using hcurrent
  rcases hg : manifests.getVersion v with _ | m
  · exact .inr ⟨_, .inr ⟨⟨.error,
      s!"Model with the name {name} does not have the specified version to deploy"⟩, rfl, rfl⟩,
      fun k => by simp [resolveStaged, hv, hg]⟩
  · exact .inl ⟨m, fun k => by simp [resolveStaged, hv, hg]⟩

/-- Once `staged_model` has resolved, `deploy` succeeds, the `SAFETY` unwraps succeed, and the
handler stores and publishes `staged_model`. -/
theorem deployAndNotify_staged {manifests : StoredManifest} (hw : manifests.WellFormed)
    {name : String} {version : Option String} {staged : Manifest}
    (hstaged : ∀ k, resolveStaged name manifests version k = k staged)
    (accountId : Option String) (latticeId : String) (currentRevision : Nat) :
    manifests.deploy version = (true, { manifests with deployedVersion := some staged.version }) ∧
      deployAndNotify accountId latticeId name version manifests currentRevision =
        storeAndNotify accountId latticeId name
          { manifests with deployedVersion := some staged.version } staged currentRevision := by
  obtain ⟨ht, hg⟩ := resolveStaged_spec hw hstaged
  have hd := deploy_of_target ht (mem_allVersions.mpr ⟨staged, (getVersion_eq_some hg).1, rfl⟩)
  refine ⟨hd, ?_⟩
  simp only [deployAndNotify, hd, getVersion_with_deployed, hg]

/-! ## Provider references

`existing_provider_refs` is a `HashMap` from a repository to a version and a model: a later insert
for a repository replaces the earlier one, so the table keeps the last reference the loops meet.
-/

/-- The `(repository, version)` that `parse_image_ref` splits a capability's image into. -/
def imageRef (c : Component) : Option (String × String) :=
  match c.properties with
  | .capability _ image => parseImageRef image
  | .component _ => none

/-- The references of the capabilities of a manifest, in component order. -/
def imageRefs (components : List Component) : List (String × String) :=
  components.filterMap imageRef

/-- The references a row contributes to the table: those of its deployed manifest, unless it is
the model being deployed. -/
def Row.providerRefs (name : String) (r : Row) : List (String × String × String) :=
  if r.model.name = name then []
  else
    match r.model.getDeployed with
    | some m => (imageRefs m.components).map fun p => (p.1, p.2, r.model.name)
    | none => []

/-- The references of the deployed manifests of the other models of a lattice, in listing
order and then component order: `(repository, version, model)`. -/
def deployedRefs (s : Store) (accountId : Option String) (latticeId name : String) :
    List (String × String × String) :=
  (s.rows.filter (Row.inLattice accountId latticeId)).flatMap (Row.providerRefs name)

/-- The version that the last entry for repository `r` names. -/
def lastVersion (entries : List (String × String × String)) (r : String) : Option String :=
  (entries.reverse.find? (·.1 == r)).map (·.2.1)

/-- Inserting entries `(repository, version, model)` in turn. -/
def ProviderRefs.insertAll (refs : ProviderRefs) (entries : List (String × String × String)) :
    ProviderRefs :=
  entries.foldl (fun refs e => refs.insert e.1 e.2) refs

@[simp] theorem ProviderRefs.insertAll_nil (refs : ProviderRefs) : refs.insertAll [] = refs := rfl

theorem ProviderRefs.insertAll_append (refs : ProviderRefs) (xs ys : List (String × String × String)) :
    refs.insertAll (xs ++ ys) = (refs.insertAll xs).insertAll ys := List.foldl_append ..

/-- The table answers for a repository with the last entry inserted for it. -/
theorem ProviderRefs.get_insertAll (refs : ProviderRefs) (entries : List (String × String × String))
    (r : String) :
    (refs.insertAll entries).get r = ((entries.reverse.find? (·.1 == r)).map (·.2)).or (refs.get r) := by
  induction entries generalizing refs with
  | nil => rfl
  | cons e es ih =>
    rw [insertAll, List.foldl_cons, ← insertAll, ih, List.reverse_cons, List.find?_append]
    cases List.find? (fun x => x.1 == r) es.reverse with
    | none => by_cases h : e.1 = r <;> simp [insert, h, Ne.symm]
    | some x => rfl

/-- The inner loop inserts the references of the components in order. -/
theorem insertProviderRefs_eq (modelName : String) (refs : ProviderRefs) (cs : List Component) :
    insertProviderRefs modelName refs cs =
      refs.insertAll ((imageRefs cs).map fun p => (p.1, p.2, modelName)) := by
  induction cs generalizing refs with
  | nil => rfl
  | cons c rest ih =>
    rcases c with ⟨_, _ | ⟨_, image⟩, _⟩
    · exact ih refs
    · rcases h : parseImageRef image with _ | ⟨r, v⟩ <;>
        simp only [insertProviderRefs, imageRefs, imageRef, List.filterMap_cons, h] <;> exact ih _

/-- The conflict loop finds a conflict iff some reference of the staged manifest meets a table
entry with another version. -/
theorem findConflict_isSome_iff (existing : ProviderRefs) (cs : List Component) :
    (findConflict existing cs).isSome ↔
      ∃ p ∈ imageRefs cs, ∃ v' o, existing.get p.1 = some (v', o) ∧ v' ≠ p.2 := by
  induction cs with
  | nil => simp [findConflict, imageRefs]
  | cons c rest ih =>
    rcases c with ⟨n, _ | ⟨id, image⟩, t⟩
    · exact ih
    rcases h : parseImageRef image with _ | ⟨r, v⟩
    · simp only [findConflict, imageRefs, imageRef, List.filterMap_cons, h]
      exact ih
    simp only [findConflict, imageRefs, imageRef, List.filterMap_cons, h, List.mem_cons,
      exists_eq_or_imp]
    rcases hg : existing.get r with _ | ⟨v', o⟩
    · simpa only [reduceCtorEq, false_and, exists_false, false_or] using ih
    by_cases hv : v' = v
    · subst hv
      have hhead : ¬ ∃ v'' o', some (v', o) = some (v'', o') ∧ v'' ≠ v' := by
        rintro ⟨_, _, ⟨⟩, hne⟩
        exact hne rfl
      simpa only [or_iff_right hhead, bne_self_eq_false, Bool.false_eq_true, if_false] using ih
    · simp only [bne_iff_ne.mpr hv, if_true, Option.isSome_some, true_iff]
      exact .inl ⟨v', o, rfl, hv⟩

/-- A row whose model is not deployed contributes nothing, and the loop does not get it. -/
theorem Row.providerRefs_eq_nil {r : Row} (name : String) (h : r.model.deployedVersion = none) :
    r.providerRefs name = [] := by
  simp [Row.providerRefs, StoredManifest.getDeployed, h]

/-- One turn of the outer loop over a listed row that its get found inserts the row's
references. -/
theorem insertAll_providerRefs (name : String) (r : Row) (refs : ProviderRefs) :
    (if r.model.name != name then
        match r.model.getDeployed with
        | some deployedManifest => insertProviderRefs r.model.name refs deployedManifest.components
        | none => refs
      else refs) = refs.insertAll (r.providerRefs name) := by
  by_cases hn : r.model.name = name
  · simp [Row.providerRefs, hn]
  · cases hg : r.model.getDeployed <;> simp [Row.providerRefs, hn, hg, insertProviderRefs_eq]

/-- With its gets answered, the outer loop inserts the references of the rows it lists, in
order. -/
theorem run_collectProviderRefs {w : World} {accountId : Option String} {latticeId name : String}
    {k : ProviderRefs → Prog Reply} (rows : List Row)
    (hrows : ∀ r ∈ rows, w.store.get ⟨accountId, latticeId, r.key.name⟩ = some (r.model, r.revision))
    (refs : ProviderRefs) :
    (collectProviderRefs accountId latticeId name (rows.map Row.summary) refs k).run [] w =
      (k (refs.insertAll (rows.flatMap (Row.providerRefs name)))).run [] w := by
  induction rows generalizing refs with
  | nil => rfl
  | cons r rest ih =>
    have ih := ih fun r' h => hrows r' (List.mem_cons_of_mem r h)
    rw [List.flatMap_cons, ProviderRefs.insertAll_append]
    rcases hd : r.model.deployedVersion with _ | v
    · simp [collectProviderRefs, Row.summary, hd, Row.providerRefs_eq_nil name hd, ih]
    · simp only [List.map_cons, collectProviderRefs, Row.summary, hd, Option.isSome_some, if_true,
        Prog.run_call, Call.perform_get, hrows r (List.mem_cons_self _ _), List.headD_nil,
        List.tail_nil, Bool.false_eq_true, if_false, Option.map_some', Option.getD_some, ih]
      exact congrArg (fun x => (k (x.insertAll (rest.flatMap (Row.providerRefs name)))).run [] w)
        (insertAll_providerRefs name r refs)

/-- The outer loop whichever gets fail: a failed get ends it with a storage error, and
otherwise it goes on with the table it builds when every get is answered. -/
theorem collectProviderRefs_always_insertAll {Q : World → Outcome Reply → Prop} {w : World}
    {accountId : Option String} {latticeId name : String} {k : ProviderRefs → Prog Reply}
    (herr : Q w (.done (.error storageError))) (rows : List Row)
    (hrows : ∀ r ∈ rows, w.store.get ⟨accountId, latticeId, r.key.name⟩ = some (r.model, r.revision))
    (refs : ProviderRefs) (hk : (k (refs.insertAll (rows.flatMap (Row.providerRefs name)))).Always Q w) :
    (collectProviderRefs accountId latticeId name (rows.map Row.summary) refs k).Always Q w := by
  induction rows generalizing refs with
  | nil => exact hk
  | cons r rest ih =>
    have ih := ih fun r' h => hrows r' (List.mem_cons_of_mem r h)
    rw [List.flatMap_cons, ProviderRefs.insertAll_append] at hk
    rcases hd : r.model.deployedVersion with _ | v
    · simp only [List.map_cons, collectProviderRefs, Row.summary, hd, Option.isSome_none,
        Bool.false_eq_true, if_false]
      exact ih refs (by rwa [Row.providerRefs_eq_nil name hd, ProviderRefs.insertAll_nil] at hk)
    · simp only [List.map_cons, collectProviderRefs, Row.summary, hd, Option.isSome_some, if_true]
      refine Prog.always_get herr ?_
      simp only [hrows r (List.mem_cons_self _ _), Option.map_some', Option.getD_some]
      exact insertAll_providerRefs name r refs ▸ ih _ hk

/-- The table built from `entries` holds for a repository the version `lastVersion` names. -/
theorem get_empty_insertAll (entries : List (String × String × String)) (r : String) (v' : String) :
    (∃ o, (ProviderRefs.empty.insertAll entries).get r = some (v', o)) ↔ lastVersion entries r = some v' := by
  rw [ProviderRefs.get_insertAll, lastVersion]
  simpa [ProviderRefs.empty] using exists_comm

theorem findConflict_empty_insertAll_isSome_iff (entries : List (String × String × String))
    (cs : List Component) :
    (findConflict (ProviderRefs.empty.insertAll entries) cs).isSome ↔
      ∃ r v, (r, v) ∈ imageRefs cs ∧ ∃ v', lastVersion entries r = some v' ∧ v' ≠ v := by
  simp only [findConflict_isSome_iff, Prod.exists, ← get_empty_insertAll, exists_and_right]

/-- Past its admission check, `deploy_model` replies with a deploy reply or stops at a `SAFETY`
unwrap. -/
theorem deployAndNotify_always (accountId : Option String) (latticeId name : String)
    (version : Option String) (manifests : StoredManifest) (currentRevision : Nat) (w : World) :
    (deployAndNotify accountId latticeId name version manifests currentRevision).Always
      (fun _ o => o = .aborted unwrapNonePanic ∨ ∃ d, o = .done (.deploy d)) w := by
  unfold deployAndNotify storeAndNotify
  split
  · exact .inr ⟨_, rfl⟩
  split
  · exact .inl rfl
  split
  · exact .inl rfl
  intro _ f2
  cases f2 <;> exact .inr ⟨_, rfl⟩

/-! ## The admission decision -/

/-- The admission check of `deploy_model` passes at `s`. -/
def Admits (s : Store) (accountId : Option String) (latticeId name : String)
    (version : Option String) : Prop :=
  ∃ manifests currentRevision staged,
    s.get ⟨accountId, latticeId, name⟩ = some (manifests, currentRevision) ∧
      (∀ k, resolveStaged name manifests version k = k staged) ∧
      findConflict (ProviderRefs.empty.insertAll (deployedRefs s accountId latticeId name))
        staged.components = none

/-- With its store calls answered, `deploy_model` of a stored model whose staged manifest
resolves checks that manifest against the table of the other models' references. -/
theorem run_deployModel {w : World} (hkeys : (w.store.rows.map (·.key)).Nodup)
    {accountId : Option String} {latticeId name : String} {payload : Payload VersionRequest}
    {req : VersionRequest} (hreq : payload.orDefault ⟨none⟩ = .ok req) {manifests : StoredManifest}
    {currentRevision : Nat}
    (hget : w.store.get ⟨accountId, latticeId, name⟩ = some (manifests, currentRevision))
    {staged : Manifest} (hstaged : ∀ k, resolveStaged name manifests req.version k = k staged) :
    (deployModel accountId latticeId name payload).run [] w =
      (match findConflict (ProviderRefs.empty.insertAll (deployedRefs w.store accountId latticeId name))
          staged.components with
        | some (imageName, oldManifestName) => Prog.ret (providerConflict imageName oldManifestName)
        | none => deployAndNotify accountId latticeId name req.version manifests currentRevision).run
        [] w := by
  rcases hfc : findConflict (ProviderRefs.empty.insertAll
    ((w.store.rows.filter (Row.inLattice accountId latticeId)).flatMap (Row.providerRefs name)))
    staged.components with _ | ⟨i, o⟩ <;>
  simp only [deployModel, hreq, Prog.run_call, Call.perform_get, hget, Call.perform_list, List.headD_nil,
    List.tail_nil, Bool.false_eq_true, if_false, hstaged, Store.list, run_collectProviderRefs _ fun _ => Store.get_of_mem_lattice hkeys,
    deployedRefs, hfc]

/-- `deploy_model` rejects iff the last reference to a staged repository among the other deployed
manifests has another version. -/
theorem deploy_model_rejects_iff_last_ref_differs (w : World) (hkeys : (w.store.rows.map (·.key)).Nodup)
    (accountId : Option String) (latticeId name : String) (payload : Payload VersionRequest)
    (req : VersionRequest) (hreq : payload.orDefault ⟨none⟩ = .ok req)
    (manifests : StoredManifest) (currentRevision : Nat)
    (hget : w.store.get ⟨accountId, latticeId, name⟩ = some (manifests, currentRevision))
    (staged : Manifest) (hstaged : ∀ k, resolveStaged name manifests req.version k = k staged) :
    (∃ imageName oldManifestName, ((deployModel accountId latticeId name payload).run [] w).2 =
        .done (providerConflict imageName oldManifestName)) ↔
      ∃ r v, (r, v) ∈ imageRefs staged.components ∧
        ∃ v', lastVersion (deployedRefs w.store accountId latticeId name) r = some v' ∧ v' ≠ v := by
  rw [run_deployModel hkeys hreq hget hstaged, ← findConflict_empty_insertAll_isSome_iff]
  rcases findConflict _ staged.components with _ | ⟨i, o⟩
  · simp only [Option.isSome_none, Bool.false_eq_true, iff_false, not_exists]
    intro i o h
    rcases (deployAndNotify_always accountId latticeId name req.version manifests currentRevision
      w).run [] with h' | ⟨d, h'⟩ <;> rw [h'] at h <;> cases h
  · simp
/-- A lattice where `a` deploys provider `r:1`, `b` deploys `r:2`, and `app`, not deployed,
uses `r:2`. -/
def splitProviderLattice : Store :=
  ⟨[⟨⟨none, "default", "a"⟩,
      ⟨[⟨⟨"a", [], []⟩, "v1", [⟨"p", .capability none "r:1", none⟩]⟩], some "v1"⟩, 1⟩,
    ⟨⟨none, "default", "b"⟩,
      ⟨[⟨⟨"b", [], []⟩, "v1", [⟨"p", .capability none "r:2", none⟩]⟩], some "v1"⟩, 2⟩,
    ⟨⟨none, "default", "app"⟩,
      ⟨[⟨⟨"app", [], []⟩, "v1", [⟨"p", .capability none "r:2", none⟩]⟩], none⟩, 3⟩], 3⟩

/-- Deploying `app` in that lattice: the last reference to `r` is `b`'s, at the staged version. -/
theorem deploy_model_rejects_iff_last_ref_differs_split :
    (splitProviderLattice.rows.map (·.key)).Nodup ∧
      (Payload.empty : Payload VersionRequest).orDefault ⟨none⟩ = .ok ⟨none⟩ ∧
      splitProviderLattice.get ⟨none, "default", "app"⟩ =
        some (⟨[⟨⟨"app", [], []⟩, "v1", [⟨"p", .capability none "r:2", none⟩]⟩], none⟩, 3) ∧
      (∀ k, resolveStaged "app"
        ⟨[⟨⟨"app", [], []⟩, "v1", [⟨"p", .capability none "r:2", none⟩]⟩], none⟩ none k =
          k ⟨⟨"app", [], []⟩, "v1", [⟨"p", .capability none "r:2", none⟩]⟩) ∧
      ((∃ imageName oldManifestName, ((deployModel none "default" "app" .empty).run []
          ⟨splitProviderLattice, [], fun _ => none⟩).2 =
            .done (providerConflict imageName oldManifestName)) ↔
        ∃ r v, (r, v) ∈ imageRefs [⟨"p", .capability none "r:2", none⟩] ∧
          ∃ v', lastVersion (deployedRefs splitProviderLattice none "default" "app") r = some v' ∧
            v' ≠ v) :=
  have hkeys : (splitProviderLattice.rows.map (·.key)).Nodup := by decide
  have hget : splitProviderLattice.get ⟨none, "default", "app"⟩ =
      some (⟨[⟨⟨"app", [], []⟩, "v1", [⟨"p", .capability none "r:2", none⟩]⟩], none⟩, 3) := by
    decide
  ⟨hkeys, rfl, hget, fun _ => rfl,
    deploy_model_rejects_iff_last_ref_differs ⟨splitProviderLattice, [], fun _ => none⟩ hkeys none
      "default" "app" .empty ⟨none⟩ rfl _ 3 hget _ fun _ => rfl⟩

/-- In that lattice `a` deploys `r` at another version than the staged one, yet the request is
admitted and deployed: `b`'s insert replaced `a`'s entry in `existing_provider_refs`. -/
theorem deploy_model_admits_replaced_conflict :
    (("r", "2") ∈ imageRefs [⟨"p", .capability none "r:2", none⟩] ∧
        ("r", "1", "a") ∈ deployedRefs splitProviderLattice none "default" "app") ∧
      ((deployModel none "default" "app" .empty).run [] ⟨splitProviderLattice, [], fun _ => none⟩).2 =
        .done (.deploy ⟨.acknowledged, "Successfully deployed model app v1"⟩) := by
  decide

/-! ## An admitted deploy -/

/-- Storing a model again under its own name leaves the references of the other models of the
lattice as they were. -/
theorem deployedRefs_write_self {s : Store} (hs : s.Keyed) {a : Option String} {l n : String}
    {sm sm' : StoredManifest} {rev : Nat} (hget : s.get ⟨a, l, n⟩ = some (sm, rev))
    (hname : sm'.name = n) :
    deployedRefs (s.write ⟨a, l, n⟩ sm') a l n = deployedRefs s a l n := by
  have hany : s.rows.any (·.key == ⟨a, l, n⟩) = true :=
    List.any_eq_true.mpr ⟨_, Store.mem_of_get hget, beq_self_eq_true _⟩
  simp only [deployedRefs, Store.write, hany, if_true, List.filter_map, List.flatMap_map]
  have hlattice : (Row.inLattice a l ∘
      fun r : Row => if r.key == ⟨a, l, n⟩ then ⟨⟨a, l, n⟩, sm', s.seq + 1⟩ else r) =
        Row.inLattice a l := by
    funext r
    by_cases hk : r.key = ⟨a, l, n⟩ <;> simp [hk, Row.inLattice]
  rw [hlattice]
  refine List.flatMap_congr fun r hr => ?_
  by_cases hk : r.key = ⟨a, l, n⟩
  · have hr : r.model.name = n := by simpa [hk] using hs.named r (List.mem_filter.mp hr).1
    simp [hk, Row.providerRefs, hname, hr]
  · simp [hk]

/-- What `deploy_model` computes from the store `s` for a deploy of `version` that passes its
admission check, with the facts the handler checked on the way. -/
structure DeployPlan (s : Store) (accountId : Option String) (latticeId name : String)
    (version : Option String) where
  manifests : StoredManifest
  currentRevision : Nat
  staged : Manifest
  target : String
  manifest : Manifest
  get_eq : s.get ⟨accountId, latticeId, name⟩ = some (manifests, currentRevision)
  resolves : ∀ k, resolveStaged name manifests version k = k staged
  admitted : findConflict (ProviderRefs.empty.insertAll (deployedRefs s accountId latticeId name))
    staged.components = none
  target_eq : manifests.deployTarget version = some target
  target_mem : target ∈ manifests.allVersions
  manifest_eq : manifests.getVersion target = some manifest

namespace DeployPlan

variable {s : Store} {a : Option String} {l n : String} {version : Option String}

/-- The model the plan stores: pointed at its target. -/
def deployed (p : DeployPlan s a l n version) : StoredManifest :=
  { p.manifests with deployedVersion := some p.target }

theorem getDeployed_deployed (p : DeployPlan s a l n version) :
    p.deployed.getDeployed = some p.manifest := by
  simp [deployed, getDeployed, p.manifest_eq]

theorem admits (p : DeployPlan s a l n version) : Admits s a l n version :=
  ⟨_, _, _, p.get_eq, p.resolves, p.admitted⟩

theorem deployed_name (hs : s.Keyed) (p : DeployPlan s a l n version) : p.deployed.name = n :=
  hs.get_name _ p.get_eq

/-- Once the plan's model is stored, the same deploy is admitted again. -/
def written (hs : s.Keyed) (p : DeployPlan s a l n version) :
    DeployPlan (s.write ⟨a, l, n⟩ p.deployed) a l n version where
  manifests := p.deployed
  currentRevision := s.seq + 1
  staged := p.staged
  target := p.target
  manifest := p.manifest
  get_eq := Store.get_write_self _ _ _
  resolves := p.resolves
  admitted := by
    rw [deployedRefs_write_self hs p.get_eq (p.deployed_name hs)]
    exact p.admitted
  target_eq := p.target_eq
  target_mem := p.target_mem
  manifest_eq := p.manifest_eq

/-- With every call answered, a deploy carries out its plan: it stores the deployed model,
publishes the deployed manifest and acknowledges. -/
theorem run_eq (w : World) (hw : w.store.Keyed) {payload : Payload VersionRequest}
    {req : VersionRequest} (hreq : payload.orDefault ⟨none⟩ = .ok req)
    (p : DeployPlan w.store a l n req.version) :
    (deployModel a l n payload).run [] w =
      ({ w with
          store := w.store.write ⟨a, l, n⟩ p.deployed
          notes := w.notes ++ [.deployed l p.manifest] },
        .done (.deploy ⟨.acknowledged, s!"Successfully deployed model {n} {p.manifest.version}"⟩)) := by
  obtain ⟨sm, rev, staged, t, man, hget, hst, hc, ht, htm, hg⟩ := p
  have hname : ({ sm with deployedVersion := some t } : StoredManifest).name = n :=
    hw.get_name _ hget
  have hset : w.store.set a l { sm with deployedVersion := some t } (some rev) =
      .ok (w.store.write ⟨a, l, n⟩ { sm with deployedVersion := some t }) := by
    simp [Store.set, hname, Store.revisionMatches, hget]
  rw [run_deployModel hw.nodup hreq hget hst]
  simp [hc, deployAndNotify, deploy_of_target ht htm, hg, storeAndNotify, hset, deployed]

end DeployPlan

/-- `deploy_model` leaves the store as it was without acknowledging, or carries out a plan. -/
theorem deployModel_always_plan {w : World} (hw : w.store.Keyed) {a : Option String} {l n : String}
    {payload : Payload VersionRequest} {req : VersionRequest}
    (hreq : payload.orDefault ⟨none⟩ = .ok req) :
    (deployModel a l n payload).Always (fun w' o =>
      (w'.store = w.store ∧ ∀ msg, o ≠ .done (.deploy ⟨.acknowledged, msg⟩)) ∨
      ∃ p : DeployPlan w.store a l n req.version,
        w' = { w with
          store := w.store.write ⟨a, l, n⟩ p.deployed
          notes := w.notes ++ [.deployed l p.manifest] }) w := by
  simp only [deployModel, hreq]
  refine Prog.always_get (.inl ⟨rfl, nofun⟩) ?_
  rcases hget : w.store.get ⟨a, l, n⟩ with _ | ⟨sm, rev⟩
  · exact .inl ⟨rfl, nofun⟩
  refine Prog.always_list (.inl ⟨rfl, nofun⟩) ?_
  rcases resolveStaged_cases n sm req.version with ⟨staged, hst⟩ | ⟨p, hp, hst⟩
  swap
  · simp only [hst]
    rcases hp with rfl | ⟨⟨_, _⟩, rfl, rfl⟩ <;> exact .inl ⟨rfl, nofun⟩
  simp only [hst, Store.list]
  refine collectProviderRefs_always_insertAll (.inl ⟨rfl, nofun⟩) _
    (fun _ => Store.get_of_mem_lattice hw.nodup) _ ?_
  rcases hc : findConflict (ProviderRefs.empty.insertAll
    ((w.store.rows.filter (Row.inLattice a l)).flatMap (Row.providerRefs n))) staged.components with
    _ | ⟨i, o⟩
  swap
  · exact .inl ⟨rfl, nofun⟩
  simp only [deployAndNotify]
  rcases hd : sm.deploy req.version with ⟨_ | _, sm'⟩
  · exact .inl ⟨rfl, nofun⟩
  obtain ⟨t, ht, htm, rfl⟩ := deploy_eq_true hd
  rcases hg : sm.getVersion t with _ | man
  · simp only [getVersion_with_deployed, hg]
    exact .inl ⟨rfl, nofun⟩
  simp only [getVersion_with_deployed, hg, storeAndNotify]
  refine Prog.always_set (fun _ => Prog.always_deployed fun r => ?_)
    (fun s hset => Prog.always_deployed fun r => ?_)
  · rcases r with _ | ⟨⟩ <;> exact .inl ⟨rfl, nofun⟩
  · obtain rfl := Store.set_eq_ok ⟨a, l, n⟩ hset (hw.get_name _ hget)
    rcases r with _ | ⟨⟩ <;> exact .inr ⟨⟨sm, rev, staged, t, man, hget, hst, hc, ht, htm, hg⟩, rfl⟩

/-! ## The staged manifest is the one deployed -/

/-- Once `staged_model` has resolved and the admission check passes, `deploy` succeeds; whatever
the calls answer, `deploy_model` never panics (the `SAFETY` unwraps succeed) and stores and
publishes `staged_model` if anything; with every call answered it acknowledges. -/
theorem deploy_model_deploys_staged (w : World) (hw : w.store.Keyed) (a : Option String)
    (l n : String) (payload : Payload VersionRequest) (req : VersionRequest)
    (hreq : payload.orDefault ⟨none⟩ = .ok req) (manifests : StoredManifest) (rev : Nat)
    (hget : w.store.get ⟨a, l, n⟩ = some (manifests, rev)) (hwf : manifests.WellFormed)
    (staged : Manifest) (hstaged : ∀ k, resolveStaged n manifests req.version k = k staged)
    (hpass : findConflict (ProviderRefs.empty.insertAll (deployedRefs w.store a l n))
      staged.components = none) :
    manifests.deploy req.version = (true, { manifests with deployedVersion := some staged.version }) ∧
      (deployModel a l n payload).Always (fun w' o => (∀ msg, o ≠ .aborted msg) ∧
        (w'.store = w.store ∨
          w'.store = w.store.write ⟨a, l, n⟩ { manifests with deployedVersion := some staged.version }) ∧
        (w'.notes = w.notes ∨ w'.notes = w.notes ++ [.deployed l staged])) w ∧
      (deployModel a l n payload).run [] w =
        ({ w with
            store := w.store.write ⟨a, l, n⟩ { manifests with deployedVersion := some staged.version }
            notes := w.notes ++ [.deployed l staged] },
          .done (.deploy ⟨.acknowledged, s!"Successfully deployed model {n} {staged.version}"⟩)) := by
  obtain ⟨hd, htail⟩ := deployAndNotify_staged hwf hstaged a l rev
  obtain ⟨ht, hg⟩ := resolveStaged_spec hwf hstaged
  refine ⟨hd, ?_, DeployPlan.run_eq w hw hreq ⟨manifests, rev, staged, staged.version, staged, hget,
    hstaged, hpass, ht, mem_allVersions.mpr ⟨staged, (getVersion_eq_some hg).1, rfl⟩, hg⟩⟩
  simp only [deployModel, hreq]
  refine Prog.always_get ⟨nofun, .inl rfl, .inl rfl⟩ ?_
  simp only [hget]
  refine Prog.always_list ⟨nofun, .inl rfl, .inl rfl⟩ ?_
  simp only [hstaged, Store.list]
  refine collectProviderRefs_always_insertAll ⟨nofun, .inl rfl, .inl rfl⟩ _
    (fun _ => Store.get_of_mem_lattice hw.nodup) _ ?_
  have hc : findConflict (ProviderRefs.empty.insertAll
      ((w.store.rows.filter (Row.inLattice a l)).flatMap (Row.providerRefs n))) staged.components =
      none := hpass
  simp only [hc, htail, storeAndNotify]
  refine Prog.always_set (fun _ => Prog.always_deployed fun r => ?_)
    (fun s hset => Prog.always_deployed fun r => ?_)
  · rcases r with _ | ⟨⟩ <;> exact ⟨nofun, .inl rfl, .inr rfl⟩
  · obtain rfl := Store.set_eq_ok ⟨a, l, n⟩ hset (hw.get_name _ hget)
    rcases r with _ | ⟨⟩ <;> exact ⟨nofun, .inr rfl, .inr rfl⟩

/-- The model `app` with versions `v1` and `v2`, not deployed. -/
def stagedApp : Store :=
  ⟨[⟨⟨none, "default", "app"⟩,
    ⟨[⟨⟨"app", [], []⟩, "v1", []⟩, ⟨⟨"app", [], []⟩, "v2", []⟩], none⟩, 1⟩], 1⟩

/-- Deploying `latest` of `app` deploys, stores and publishes `v2`. -/
theorem deploy_model_deploys_staged_latest :
    stagedApp.Keyed ∧
      stagedApp.get ⟨none, "default", "app"⟩ =
        some (⟨[⟨⟨"app", [], []⟩, "v1", []⟩, ⟨⟨"app", [], []⟩, "v2", []⟩], none⟩, 1) ∧
      StoredManifest.WellFormed ⟨[⟨⟨"app", [], []⟩, "v1", []⟩, ⟨⟨"app", [], []⟩, "v2", []⟩], none⟩ ∧
      findConflict (ProviderRefs.empty.insertAll (deployedRefs stagedApp none "default" "app"))
        (⟨⟨"app", [], []⟩, "v2", []⟩ : Manifest).components = none ∧
      (deployModel none "default" "app" (.json (.ok ⟨some "latest"⟩))).run []
          ⟨stagedApp, [], fun _ => none⟩ =
        (⟨stagedApp.write ⟨none, "default", "app"⟩
            ⟨[⟨⟨"app", [], []⟩, "v1", []⟩, ⟨⟨"app", [], []⟩, "v2", []⟩], some "v2"⟩,
          [.deployed "default" ⟨⟨"app", [], []⟩, "v2", []⟩], fun _ => none⟩,
          .done (.deploy ⟨.acknowledged, "Successfully deployed model app v2"⟩)) :=
  have hk : stagedApp.Keyed := ⟨by decide, by decide⟩
  have hget : stagedApp.get ⟨none, "default", "app"⟩ =
      some (⟨[⟨⟨"app", [], []⟩, "v1", []⟩, ⟨⟨"app", [], []⟩, "v2", []⟩], none⟩, 1) := by decide
  have hwf : StoredManifest.WellFormed
      ⟨[⟨⟨"app", [], []⟩, "v1", []⟩, ⟨⟨"app", [], []⟩, "v2", []⟩], none⟩ :=
    ⟨by simp, by decide, fun _ h => nomatch h⟩
  have hpass : findConflict (ProviderRefs.empty.insertAll (deployedRefs stagedApp none "default" "app"))
      (⟨⟨"app", [], []⟩, "v2", []⟩ : Manifest).components = none := rfl
  ⟨hk, hget, hwf, hpass, (deploy_model_deploys_staged ⟨stagedApp, [], fun _ => none⟩ hk none
    "default" "app" (.json (.ok ⟨some "latest"⟩)) ⟨some "latest"⟩ rfl _ _ hget hwf _ (fun _ => rfl) hpass).2.2⟩

end Wadm
