import Wadm.Provenance
import Wadm.Safety
import Wadm.Refinement
import Wadm.Linearize

/-! # One version of each provider in a lattice

Served one request at a time, the provider check of `deploy_model` keeps every lattice with each
provider repository deployed at one version; two deploys that interleave can both pass it.
-/

namespace Wadm

open StoredManifest

/-! ## What the check is for -/

/-- Two manifests name every provider repository they both reference at one version. -/
def Manifest.AgreeOnProviders (m1 m2 : Manifest) : Prop :=
  ∀ q1 ∈ imageRefs m1.components, ∀ q2 ∈ imageRefs m2.components, q1.1 = q2.1 → q1.2 = q2.2

theorem Manifest.AgreeOnProviders.symm {m1 m2 : Manifest} (h : m1.AgreeOnProviders m2) :
    m2.AgreeOnProviders m1 :=
  fun q2 h2 q1 h1 he => (h q1 h1 q2 h2 he.symm).symm

instance (m1 m2 : Manifest) : Decidable (m1.AgreeOnProviders m2) :=
  inferInstanceAs (Decidable (∀ q1 ∈ imageRefs m1.components, ∀ q2 ∈ imageRefs m2.components,
    q1.1 = q2.1 → q1.2 = q2.2))

/-- In every lattice, any two deployed manifests, a manifest and itself included, agree on the
version of every provider repository. -/
def Store.ProvidersAgree (s : Store) : Prop :=
  ∀ r1 ∈ s.rows, ∀ r2 ∈ s.rows, r1.key.accountId = r2.key.accountId →
    r1.key.latticeId = r2.key.latticeId → ∀ m1 m2, r1.model.getDeployed = some m1 →
      r2.model.getDeployed = some m2 → m1.AgreeOnProviders m2

theorem Store.providersAgree_iff {s : Store} :
    s.ProvidersAgree ↔ ∀ r1 ∈ s.rows, ∀ r2 ∈ s.rows, r1.key.accountId = r2.key.accountId →
      r1.key.latticeId = r2.key.latticeId → ∀ m1 ∈ r1.model.getDeployed,
        ∀ m2 ∈ r2.model.getDeployed, m1.AgreeOnProviders m2 :=
  ⟨fun h r1 h1 r2 h2 ha hl m1 hm1 m2 hm2 => h r1 h1 r2 h2 ha hl m1 m2 hm1 hm2,
    fun h r1 h1 r2 h2 ha hl m1 m2 hm1 hm2 => h r1 h1 r2 h2 ha hl m1 hm1 m2 hm2⟩

instance : DecidablePred Store.ProvidersAgree := fun _ =>
  decidable_of_iff _ Store.providersAgree_iff.symm

/-- Every model of `s'` is deployed at a manifest that the model under its key was deployed at
in `s`, or not deployed. -/
def Store.KeepsDeployed (s s' : Store) : Prop :=
  ∀ r' ∈ s'.rows, ∀ m, r'.model.getDeployed = some m →
    ∃ r ∈ s.rows, r.key = r'.key ∧ r.model.getDeployed = some m

namespace Store

theorem KeepsDeployed.refl (s : Store) : s.KeepsDeployed s := fun r hr _ h => ⟨r, hr, rfl, h⟩

theorem keepsDeployed_delete (s : Store) (k : Key) : s.KeepsDeployed (s.delete k) :=
  fun r hr _ h => ⟨r, mem_delete hr, rfl, h⟩

/-- Writing under `k` a model deployed, if at all, at the manifest the model read there was
deployed at. -/
theorem keepsDeployed_write {s : Store} {k : Key} {sm sm' : StoredManifest} {rev : Nat}
    (hget : s.get k = some (sm, rev))
    (hd : ∀ m, sm'.getDeployed = some m → sm.getDeployed = some m) :
    s.KeepsDeployed (s.write k sm') := fun r hr m h => by
  rcases mem_write hr with hr | rfl
  · exact ⟨r, hr, rfl, h⟩
  · exact ⟨_, mem_of_get hget, rfl, hd m h⟩

/-- A `set` at the revision of a model read under `k`. -/
theorem keepsDeployed_set {s s' : Store} (hs : s.Revisions) {k : Key} {sm : StoredManifest}
    {rev : Nat} (hget : s.get k = some (sm, rev)) {a : Option String} {l : String}
    {sm' : StoredManifest} (hset : s.set a l sm' (some rev) = .ok s')
    (hd : ∀ m, sm'.getDeployed = some m → sm.getDeployed = some m) : s.KeepsDeployed s' := by
  obtain ⟨-, -, rfl⟩ := (hs.stamped_of_get hget).set_eq_ok hset
  exact keepsDeployed_write hget hd

/-- A `set` of a model that is not deployed. -/
theorem keepsDeployed_set_undeployed {s s' : Store} {a : Option String} {l : String}
    {sm' : StoredManifest} {e : Option Nat} (hset : s.set a l sm' e = .ok s')
    (hd : sm'.getDeployed = none) : s.KeepsDeployed s' := by
  obtain rfl := set_eq_ok ⟨a, l, sm'.name⟩ hset rfl
  intro r hr m h
  rcases mem_write hr with hr | rfl
  · exact ⟨r, hr, rfl, h⟩
  · simp [hd] at h

theorem ProvidersAgree.keep {s s' : Store} (h : s.ProvidersAgree) (hk : s.KeepsDeployed s') :
    s'.ProvidersAgree := by
  intro r1 h1 r2 h2 ha hl m1 m2 hd1 hd2
  obtain ⟨q1, hq1, hk1, hd1⟩ := hk r1 h1 m1 hd1
  obtain ⟨q2, hq2, hk2, hd2⟩ := hk r2 h2 m2 hd2
  exact h q1 hq1 q2 hq2 (by rw [hk1, hk2]; exact ha) (by rw [hk1, hk2]; exact hl) m1 m2 hd1 hd2

end Store

/-! ## Every request but a deploy keeps what is deployed -/

section Handlers

variable {w : World}

/-- The pieces that only read or publish leave the store as it was. -/
theorem overlayStatus_store {Q : Store → Prop} (hq : Q w.store) (l : String) :
    ∀ ms data, (overlayStatus l ms data).Always (fun w' _ => Q w'.store) w
  | [], _ => hq
  | _ :: rest, _ => fun _ => by
    simp only [Call.perform_status]
    split <;> exact overlayStatus_store hq l rest _

theorem getModel_store {Q : Store → Prop} (hq : Q w.store) (a : Option String) (l n : String)
    (p : Payload VersionRequest) : (getModel a l n p).Always (fun w' _ => Q w'.store) w := by
  unfold getModel
  split
  · exact hq
  refine Prog.always_get hq ?_
  rcases w.store.get ⟨a, l, n⟩ with _ | ⟨sm, rev⟩
  · exact hq
  dsimp only
  repeat' split
  all_goals exact hq

theorem listModels_store {Q : Store → Prop} (hq : Q w.store) (a : Option String) (l : String) :
    (listModels a l).Always (fun w' _ => Q w'.store) w :=
  Prog.always_list hq (overlayStatus_store hq l _ _)

theorem listVersions_store {Q : Store → Prop} (hq : Q w.store) (a : Option String) (l n : String) :
    (listVersions a l n).Always (fun w' _ => Q w'.store) w :=
  Prog.always_get hq (by rcases w.store.get ⟨a, l, n⟩ with _ | _ <;> exact hq)

theorem modelStatus_store {Q : Store → Prop} (hq : Q w.store) (a : Option String) (l n : String) :
    (modelStatus a l n).Always (fun w' _ => Q w'.store) w := by
  refine Prog.always_get hq ?_
  rcases w.store.get ⟨a, l, n⟩ with _ | ⟨sm, rev⟩
  · exact hq
  dsimp only
  split
  · exact hq
  · exact fun _ => hq

/-- `put_model` writes the model it read with a version appended, or creates an undeployed
one. -/
theorem putModel_keepsDeployed (checks : Checks) (a : Option String) (l : String)
    (parsed : Except String Manifest) (hs : w.store.Revisions) (hw : w.store.WellFormed) :
    (putModel checks a l parsed).Always (fun w' _ => w.store.KeepsDeployed w'.store) w := by
  have hq := Store.KeepsDeployed.refl w.store
  rcases parsed with e | manifest
  · exact hq
  simp only [putModel]
  split
  · exact hq
  split
  · exact hq
  refine Prog.always_get hq ?_
  generalize hget : w.store.get ⟨a, l, trim manifest.metadata.name⟩ = found
  dsimp only
  split
  · exact hq
  rcases hadd : (found.getD (default, 0)).1.addVersion manifest with ⟨_ | _, cm'⟩
  · exact hq
  refine Prog.always_set (fun _ => hq) fun s hset => ?_
  obtain ⟨hv, rfl⟩ := addVersion_eq_true hadd
  rcases found with _ | ⟨sm, rev⟩
  · exact Store.keepsDeployed_set_undeployed hset rfl
  · have hsm := hw _ (Store.mem_of_get hget)
    refine Store.keepsDeployed_set hs hget hset fun m hm => getDeployed_of_sub hsm.nodup ?_ ?_ hm
    · exact fun _ h => h
    intro x hx hd
    rcases List.mem_append.mp hx with hx | hx
    · exact hx
    · obtain rfl := List.mem_singleton.mp hx
      exact absurd (hsm.deployed _ hd) hv

/-- `delete_model` of a version writes what is left of the model it read, or deletes it. -/
theorem deleteVersionOf_keepsDeployed (a : Option String) (l n v : String)
    (hs : w.store.Revisions) (hw : w.store.WellFormed) :
    (deleteVersionOf a l n v).Always (fun w' _ => w.store.KeepsDeployed w'.store) w := by
  have hq := Store.KeepsDeployed.refl w.store
  refine Prog.always_get (deleteNotify_store hq ..) ?_
  rcases hget : w.store.get ⟨a, l, n⟩ with _ | ⟨sm, rev⟩
  · exact deleteNotify_store hq ..
  have hkept : ∀ m, (⟨sm.manifests.filter (·.version != v),
      if sm.deployedVersion = some v then none else sm.deployedVersion⟩ : StoredManifest).getDeployed =
        some m → sm.getDeployed = some m :=
    fun m => getDeployed_of_sub (hw _ (Store.mem_of_get hget)).nodup
      (fun d hd => by split at hd; exacts [(nomatch hd), hd]) fun x hx _ => (List.mem_filter.mp hx).1
  dsimp only
  rw [deleteVersion_undeploy_eq]
  split
  · exact Prog.always_set (fun _ => deleteNotify_store hq ..) fun s hs' =>
      deleteNotify_store (Store.keepsDeployed_set hs hget hs' hkept) ..
  split
  · exact Prog.always_delete (fun _ => deleteNotify_store hq ..)
      (deleteNotify_store (Store.keepsDeployed_delete _ _) ..)
  · exact deleteNotify_store hq ..

theorem deleteModel_keepsDeployed (a : Option String) (l n : String) (p : Payload VersionRequest)
    (hs : w.store.Revisions) (hw : w.store.WellFormed) :
    (deleteModel a l n p).Always (fun w' _ => w.store.KeepsDeployed w'.store) w := by
  have hq := Store.KeepsDeployed.refl w.store
  unfold deleteModel
  split
  · exact hq
  split
  · exact deleteVersionOf_keepsDeployed a l n _ hs hw
  · exact Prog.always_delete (fun _ => deleteNotify_store hq ..)
      (deleteNotify_store (Store.keepsDeployed_delete _ _) ..)

/-- `undeploy_model` writes the model it read, undeployed. -/
theorem undeployModel_keepsDeployed (a : Option String) (l n : String) (p : Payload Unit) :
    (undeployModel a l n p).Always (fun w' _ => w.store.KeepsDeployed w'.store) w := by
  have hq := Store.KeepsDeployed.refl w.store
  unfold undeployModel
  split
  · exact hq
  refine Prog.always_get hq ?_
  rcases w.store.get ⟨a, l, n⟩ with _ | ⟨sm, rev⟩
  · exact hq
  dsimp only
  rcases hu : sm.undeploy with ⟨_ | _, sm'⟩
  · exact undeployNotify_store hq ..
  · obtain rfl : sm.undeploy.2 = sm' := congrArg Prod.snd hu
    exact Prog.always_set (fun _ => undeployNotify_store hq ..) fun s hset =>
      undeployNotify_store (Store.keepsDeployed_set_undeployed hset rfl) ..

end Handlers

/-! ## An admitted deploy keeps the versions agreed -/

/-- When every entry for a repository names the version of one of them, the table keeps that
version. -/
theorem lastVersion_eq_of_mem {entries : List (String × String × String)} {e : String × String × String}
    (h : e ∈ entries) (hall : ∀ e' ∈ entries, e'.1 = e.1 → e'.2.1 = e.2.1) :
    lastVersion entries e.1 = some e.2.1 := by
  rcases hf : entries.reverse.find? (·.1 == e.1) with _ | e'
  · exact absurd (List.find?_eq_none.mp hf e (List.mem_reverse.mpr h)) (by simp)
  · have hk : e'.1 = e.1 := by simpa using List.find?_some hf
    simp [lastVersion, hf, hall e' (List.mem_reverse.mp (List.mem_of_find?_eq_some hf)) hk]

/-- An entry of the table comes from a deployed manifest of a model of the lattice. -/
theorem mem_deployedRefs {s : Store} {a : Option String} {l n : String}
    {e : String × String × String} (h : e ∈ deployedRefs s a l n) :
    ∃ r ∈ s.rows, r.key.accountId = a ∧ r.key.latticeId = l ∧
      ∃ m, r.model.getDeployed = some m ∧ (e.1, e.2.1) ∈ imageRefs m.components := by
  obtain ⟨r, hr, he⟩ := List.mem_flatMap.mp h
  obtain ⟨hr, hl⟩ := List.mem_filter.mp hr
  simp only [Row.inLattice, Bool.and_eq_true, beq_iff_eq] at hl
  simp only [Row.providerRefs] at he
  split at he
  · cases he
  split at he
  · obtain ⟨q, hq, rfl⟩ := List.mem_map.mp he
    exact ⟨r, hr, hl.1, hl.2, _, ‹_›, hq⟩
  · cases he

/-- The references of the deployed manifest of another model of the lattice are in the
table. -/
theorem mem_deployedRefs_of {s : Store} {a : Option String} {l n : String} {r : Row}
    (hr : r ∈ s.rows) (ha : r.key.accountId = a) (hl : r.key.latticeId = l) (hn : r.model.name ≠ n)
    {m : Manifest} (hd : r.model.getDeployed = some m) {q : String × String}
    (hq : q ∈ imageRefs m.components) : (q.1, q.2, r.model.name) ∈ deployedRefs s a l n := by
  refine List.mem_flatMap.mpr ⟨r, List.mem_filter.mpr ⟨hr, by simp [Row.inLattice, ha, hl]⟩, ?_⟩
  simp only [Row.providerRefs, hn, if_false, hd]
  exact List.mem_map_of_mem _ hq

/-- Where the versions agree, the table holds for each repository of another deployed model of
the lattice the version that model names. -/
theorem Store.ProvidersAgree.lastVersion_eq {s : Store} (h : s.ProvidersAgree) {a : Option String}
    {l n : String} {r : Row} (hr : r ∈ s.rows) (ha : r.key.accountId = a) (hl : r.key.latticeId = l)
    (hn : r.model.name ≠ n) {m : Manifest} (hd : r.model.getDeployed = some m)
    {q : String × String} (hq : q ∈ imageRefs m.components) :
    lastVersion (deployedRefs s a l n) q.1 = some q.2 :=
  lastVersion_eq_of_mem (mem_deployedRefs_of hr ha hl hn hd hq) fun e' he' hk => by
    obtain ⟨r3, hr3, ha3, hl3, m3, hd3, hq3⟩ := mem_deployedRefs he'
    exact (h r hr r3 hr3 (ha.trans ha3.symm) (hl.trans hl3.symm) m m3 hd hd3 q hq _ hq3 hk.symm).symm

namespace DeployPlan

variable {s : Store} {a : Option String} {l n : String} {version : Option String}

/-- The manifest the plan deploys is the one the check was made of. -/
theorem manifest_eq_staged (p : DeployPlan s a l n version) (hw : p.manifests.WellFormed) :
    p.manifest = p.staged := by
  obtain ⟨ht, hg⟩ := resolveStaged_spec hw p.resolves
  rw [p.target_eq, Option.some.injEq] at ht
  have hm := p.manifest_eq
  rw [ht] at hm
  exact Option.some.inj (hm.symm.trans hg)

/-- The check passed: no reference of the staged manifest meets a table entry with another
version. -/
theorem lastVersion_eq (p : DeployPlan s a l n version) {q : String × String}
    (hq : q ∈ imageRefs p.staged.components) {v' : String}
    (h : lastVersion (deployedRefs s a l n) q.1 = some v') : v' = q.2 := by
  by_contra hne
  have := (findConflict_empty_insertAll_isSome_iff _ _).mpr ⟨q.1, q.2, hq, v', h, hne⟩
  simp [p.admitted] at this

end DeployPlan

/-- A deploy that passed its check, carried out on a store where the versions agree and every
stored manifest agrees with itself, keeps the versions agreed. -/
theorem DeployPlan.providersAgree {s : Store} {a : Option String} {l n : String}
    {version : Option String} (hs : s.Keyed) (hw : s.WellFormed)
    (hc : ∀ r ∈ s.rows, r.model.All fun m => m.AgreeOnProviders m) (ha : s.ProvidersAgree)
    (p : DeployPlan s a l n version) : (s.write ⟨a, l, n⟩ p.deployed).ProvidersAgree := by
  have hrow := Store.mem_of_get p.get_eq
  have hman := p.manifest_eq_staged (hw _ hrow)
  have hself : p.manifest.AgreeOnProviders p.manifest :=
    hc _ hrow _ (getVersion_eq_some p.manifest_eq).1
  have hdep : p.deployed.getDeployed = some p.manifest := p.manifest_eq
  have hnew : ∀ r ∈ s.rows, r.key ≠ ⟨a, l, n⟩ → r.key.accountId = a → r.key.latticeId = l →
      ∀ m, r.model.getDeployed = some m → p.manifest.AgreeOnProviders m := by
    intro r hr hk hra hrl m hd q1 hq1 q2 hq2 he
    have hn : r.model.name ≠ n := fun hn => hk (by
      rw [← hra, ← hrl, ← hn, hs.named r hr])
    have hlast := ha.lastVersion_eq hr hra hrl hn hd hq2
    rw [← he] at hlast
    exact (p.lastVersion_eq (hman ▸ hq1) hlast).symm
  intro r1 h1 r2 h2 hra hrl m1 m2 hd1 hd2
  rcases Store.mem_write_cases h1 with ⟨h1, hk1⟩ | rfl <;>
    rcases Store.mem_write_cases h2 with ⟨h2, hk2⟩ | rfl
  · exact ha r1 h1 r2 h2 hra hrl m1 m2 hd1 hd2
  · obtain rfl := Option.some.inj (hd2.symm.trans hdep)
    exact (hnew r1 h1 hk1 hra hrl m1 hd1).symm
  · obtain rfl := Option.some.inj (hd1.symm.trans hdep)
    exact hnew r2 h2 hk2 hra.symm hrl.symm m2 hd2
  · obtain rfl := Option.some.inj (hd1.symm.trans hdep)
    obtain rfl := Option.some.inj (hd2.symm.trans hdep)
    exact hself

/-! ## Requests served one at a time -/

/-- Serves the requests one at a time, each to its end; the calls of each fail as its list
says. -/
def serialRun (checks : Checks) : World → List (Request × List Bool) → World
  | w, [] => w
  | w, (r, fails) :: rest => serialRun checks ((r.handle checks).run fails w).1 rest

theorem Prog.run_revisions (p : Prog α) (fails : List Bool) {w : World} (h : w.store.Revisions) :
    (p.run fails w).1.store.Revisions := by
  induction p generalizing w fails with
  | ret | abort => exact h
  | call c next ih => exact ih _ _ (c.perform_revisions _ h)

theorem Prog.Safe.run_wellFormed {p : Prog α} (hp : p.Safe) (fails : List Bool) {w : World}
    (h : w.store.WellFormed) : (p.run fails w).1.store.WellFormed := by
  induction p generalizing w fails with
  | ret => exact h
  | abort => exact absurd hp id
  | call c next ih =>
    exact ih _ (hp.2 _ (c.perform_trusted _ h)) _ (Call.perform_wellFormed _ hp.1 h)

/-- What a request served alone keeps: the invariants of the store, every manifest stored or
published agrees with itself, and the versions agree. -/
structure World.ProviderInv (w : World) : Prop where
  keyed : w.store.Keyed
  revisions : w.store.Revisions
  wellFormed : w.store.WellFormed
  consistent : w.Vouched fun m => m.AgreeOnProviders m
  agree : w.store.ProvidersAgree

theorem World.providerInv_init (log : String → Option StatusInfo) :
    World.ProviderInv ⟨Store.empty, [], log⟩ :=
  ⟨Store.keyed_empty, Store.revisions_empty, Store.wellFormed_empty,
    ⟨fun _ h => (nomatch h), fun _ _ h => (nomatch h)⟩, fun _ h => (nomatch h)⟩

theorem World.ProviderInv.agree_handle {w : World} (h : w.ProviderInv) (checks : Checks)
    (r : Request) (fails : List Bool) : ((r.handle checks).run fails w).1.store.ProvidersAgree := by
  have hkeep : ∀ p : Prog Reply, p.Always (fun w' _ => w.store.KeepsDeployed w'.store) w →
      (p.run fails w).1.store.ProvidersAgree := fun p hp => h.agree.keep (hp.run fails)
  have hq := Store.KeepsDeployed.refl w.store
  cases r with
  | put a l parsed => exact hkeep _ (putModel_keepsDeployed checks a l parsed h.revisions h.wellFormed)
  | get a l n p => exact hkeep _ (getModel_store hq a l n p)
  | list a l => exact hkeep _ (listModels_store hq a l)
  | versions a l n => exact hkeep _ (listVersions_store hq a l n)
  | delete a l n p => exact hkeep _ (deleteModel_keepsDeployed a l n p h.revisions h.wellFormed)
  | undeploy a l n p => exact hkeep _ (undeployModel_keepsDeployed a l n p)
  | status a l n => exact hkeep _ (modelStatus_store hq a l n)
  | deploy a l n payload =>
    show ((deployModel a l n payload).run fails w).1.store.ProvidersAgree
    rcases hreq : payload.orDefault ⟨none⟩ with e | req
    · simp only [deployModel, hreq, Prog.run_ret]
      exact h.agree
    rcases (deployModel_always_plan h.keyed hreq).run fails with ⟨hst, -⟩ | ⟨p, hp⟩
    · exact hst ▸ h.agree
    · rw [hp]
      exact p.providersAgree h.keyed h.wellFormed h.consistent.store h.agree

/-- One request served alone keeps the invariant, once every manifest it may put agrees with
itself. -/
theorem World.ProviderInv.handle {w : World} (h : w.ProviderInv) (checks : Checks) (r : Request)
    (hput : ∀ a l m, r = .put a l (.ok m) → checks.Passes m → m.AgreeOnProviders m)
    (fails : List Bool) : ((r.handle checks).run fails w).1.ProviderInv where
  keyed := Prog.run_keyed _ _ h.keyed
  revisions := Prog.run_revisions _ _ h.revisions
  wellFormed := (r.handle_safe checks).run_wellFormed _ h.wellFormed
  consistent := ((r.handle_vouched checks hput).run h.consistent fails).1
  agree := h.agree_handle checks r fails

theorem World.ProviderInv.serialRun {w : World} (h : w.ProviderInv) (checks : Checks)
    (reqs : List (Request × List Bool))
    (hput : ∀ a l m fails, (.put a l (.ok m), fails) ∈ reqs → checks.Passes m →
      m.AgreeOnProviders m) : (Wadm.serialRun checks w reqs).ProviderInv := by
  induction reqs generalizing w with
  | nil => exact h
  | cons e rest ih =>
    obtain ⟨r, fails⟩ := e
    exact ih (h.handle checks r (fun a l m hr => hput a l m fails (hr ▸ List.mem_cons_self _ _)) fails)
      fun a l m fails' he => hput a l m fails' (List.mem_cons_of_mem _ he)

/-- Served one at a time, requests keep each provider of a lattice deployed at one version. -/
theorem deployed_providers_agree (checks : Checks) (log : String → Option StatusInfo)
    (reqs : List (Request × List Bool))
    (hput : ∀ a l m fails, (.put a l (.ok m), fails) ∈ reqs → checks.Passes m →
      m.AgreeOnProviders m) :
    (serialRun checks ⟨Store.empty, [], log⟩ reqs).store.ProvidersAgree :=
  ((World.providerInv_init log).serialRun checks reqs hput).agree

/-- Two models that name one provider repository at two versions. -/
def providerA : Manifest := ⟨⟨"a", [], []⟩, "v1", [⟨"p", .capability none "prov:0.1", none⟩]⟩

def providerB : Manifest := ⟨⟨"b", [], []⟩, "v1", [⟨"p", .capability none "prov:0.2", none⟩]⟩

/-- `a` is put and deployed, then `b` is put and its deploy turned away by the check. -/
def deployBothProviders : List (Request × List Bool) :=
  [(.put none "default" (.ok providerA), []), (.deploy none "default" "a" .empty, []),
    (.put none "default" (.ok providerB), []), (.deploy none "default" "b" .empty, [])]

theorem deployed_providers_agree_deployBothProviders :
    (∀ a l m fails, (.put a l (.ok m), fails) ∈ deployBothProviders → Checks.acceptAll.Passes m →
      m.AgreeOnProviders m) ∧
      (serialRun Checks.acceptAll ⟨Store.empty, [], fun _ => none⟩ deployBothProviders).store.ProvidersAgree ∧
      ((serialRun Checks.acceptAll ⟨Store.empty, [], fun _ => none⟩ deployBothProviders).store.get
        ⟨none, "default", "b"⟩).map (·.1.deployedVersion) = some none :=
  have h : ∀ a l m fails, (.put a l (.ok m), fails) ∈ deployBothProviders →
      Checks.acceptAll.Passes m → m.AgreeOnProviders m := by
    intro a l m fails hm _
    simp only [deployBothProviders, List.mem_cons, Prod.mk.injEq, Request.put.injEq,
      Except.ok.injEq, reduceCtorEq, false_and, List.mem_singleton, List.not_mem_nil, or_false,
      false_or] at hm
    rcases hm with ⟨⟨-, -, rfl⟩, -⟩ | ⟨⟨-, -, rfl⟩, -⟩ <;> decide
  ⟨h, deployed_providers_agree _ _ _ h, by decide⟩

/-- Both models are put; then both are deployed, each deploy reading the lattice before the
other sets. -/
def racingDeploys : List Event :=
  [.arrive (.put none "default" (.ok providerA)), .advance 0 false, .advance 0 false,
    .arrive (.put none "default" (.ok providerB)), .advance 1 false, .advance 1 false,
    .arrive (.deploy none "default" "a" .empty), .arrive (.deploy none "default" "b" .empty),
    .advance 2 false, .advance 2 false, .advance 3 false, .advance 3 false,
    .advance 2 false, .advance 2 false, .advance 3 false, .advance 3 false]

/-- The requests of `racingDeploys`, each with the reply it gets there. -/
def racingDeployReplies : List (Request × Reply) :=
  [(.put none "default" (.ok providerA),
      .put ⟨.created, 1, "v1", "Successfully put manifest a v1", "a"⟩),
    (.put none "default" (.ok providerB),
      .put ⟨.created, 1, "v1", "Successfully put manifest b v1", "b"⟩),
    (.deploy none "default" "a" .empty, .deploy ⟨.acknowledged, "Successfully deployed model a v1"⟩),
    (.deploy none "default" "b" .empty, .deploy ⟨.acknowledged, "Successfully deployed model b v1"⟩)]

/-- The serial premise of `deployed_providers_agree` is needed: in `racingDeploys` both deploys
pass the check. -/
theorem interleaved_deploys_break_provider_agreement (checks : Checks)
    (haccept : ∀ m ∈ [providerA, providerB],
      checks.versionErrors m.version = [] ∧ checks.schemaErrors m = []) :
    providerA.AgreeOnProviders providerA ∧ providerB.AgreeOnProviders providerB ∧
      ((Sys.init fun _ => none).run checks racingDeploys).tasks.map Prog.reply? =
        racingDeployReplies.map (some ·.2) ∧
      ¬ ((Sys.init fun _ => none).run checks racingDeploys).world.store.ProvidersAgree ∧
      ¬ Linearizable checks ⟨Store.empty, [], fun _ => none⟩ ⟨none, "default", "b"⟩
        racingDeployReplies ((Sys.init fun _ => none).run checks racingDeploys).world.store ∧
      (seqRun checks ⟨Store.empty, [], fun _ => none⟩ (racingDeployReplies.map Prod.fst)).2.getLast? =
        some (.done (.error "Provider prov:0.2 is already deployed with a different version in a.")) := by
  have hputs : (racingDeployReplies.map Prod.fst).filterMap Request.putManifest? ⊆
      [providerA, providerB] := by decide
  have hreq : ∀ r ∈ racingDeployReplies.map Prod.fst, r.handle checks = r.handle Checks.acceptAll :=
    fun r hr => Request.handle_acceptAll fun m hm =>
      haccept m (hputs (List.mem_filterMap.mpr ⟨r, hr, hm⟩))
  rw [Sys.run_acceptAll (by decide) haccept,
    linearizable_congr Checks.acceptAll fun e he => hreq e.1 (List.mem_map_of_mem _ he),
    linearizable_iff, seqRun_congr Checks.acceptAll _ _ hreq]
  decide

end Wadm
