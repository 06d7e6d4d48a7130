import Wadm.Linearize
import Wadm.Admission
import Wadm.Notify
import Wadm.Delete

/-! # Laws of requests run one at a time

The round-trip and idempotence laws of §8, each call succeeding.
-/

namespace Wadm

open StoredManifest

/-- The model under `k`, or the empty one: what `put_model` adds a version to. -/
def Store.modelOrDefault (s : Store) (k : Key) : StoredManifest :=
  ((s.get k).map Prod.fst).getD default

namespace Store

@[simp] theorem getD_get (s : Store) (k : Key) :
    (s.get k).getD (default, 0) = (s.modelOrDefault k, ((s.get k).map Prod.snd).getD 0) := by
  unfold modelOrDefault
  cases s.get k <;> rfl

/-- The revision `put_model` expects is the one the store has. -/
theorem revisionMatches_get (s : Store) (k : Key) :
    s.revisionMatches k (some (((s.get k).map Prod.snd).getD 0)) = true := by
  cases h : s.get k <;> simp [revisionMatches, h]

theorem Keyed.modelOrDefault_name {s : Store} (hs : s.Keyed) (k : Key) :
    (s.modelOrDefault k).manifests ≠ [] → (s.modelOrDefault k).name = k.name := by
  cases h : s.get k with
  | none => simp only [modelOrDefault, h, Option.map_none', Option.getD_none]; exact absurd rfl
  | some p => simpa [modelOrDefault, h] using fun _ => hs.get_name p (by simp [h])

theorem not_mem_modelOrDefault {s : Store} {k : Key} {v : String}
    (h : ∀ p ∈ s.get k, v ∉ p.1.allVersions) : v ∉ (s.modelOrDefault k).allVersions := by
  cases hk : s.get k with
  | none => simp [modelOrDefault, hk, allVersions]
  | some p => simpa [modelOrDefault, hk] using h p hk

end Store

/-- A manifest that `put_model` takes as it is: its version and schema pass the checks, and its
name is valid and already trimmed. -/
structure Accepted (checks : Checks) (m : Manifest) : Prop where
  version : checks.versionErrors m.version = []
  valid : validateManifest checks.schemaErrors m = .ok ()
  name : isValidManifestName m.metadata.name = true
  trimmed : trim m.metadata.name = m.metadata.name

/-! ## `delete_model` of one version -/

/-- Deleting the deployed version leaves the other versions listed in order, none deployed. -/
theorem delete_deployed_then_list_versions (w : World) (a : Option String) (l n : String)
    (sm : StoredManifest) (rev : Nat) (hget : w.store.get ⟨a, l, n⟩ = some (sm, rev))
    (hnames : ∀ m ∈ sm.manifests, m.metadata.name = n) (v : String)
    (hdep : sm.deployedVersion = some v) (hv : v ∈ sm.allVersions)
    (hrest : ∃ m ∈ sm.manifests, m.version ≠ v) :
    ((listVersions a l n).run [] ((deleteModel a l n (.json (.ok ⟨some v⟩))).run [] w).1).2 =
      .done (.versions ⟨.success, s!"Successfully fetched versions for model {n}",
        (sm.allVersions.filter (· != v)).map fun x => ⟨x, false⟩⟩) := by
  obtain ⟨m, hm, hmv⟩ := hrest
  have hne : sm.manifests.filter (·.version != v) ≠ [] :=
    List.ne_nil_of_mem (List.mem_filter.mpr ⟨hm, by simpa using hmv⟩)
  have hname : (sm.deleteVersion v).2.name = n :=
    name_eq_of_forall hne fun m hm => hnames m (List.mem_filter.mp hm).1
  rw [deleteModel_run_kept hget hv hne hname]
  simp [listVersions, Store.get_write_self, allVersions, List.filter_map, Function.comp_def,
    isDeployed, hdep]

theorem delete_deployed_then_list_versions_deployedApp :
    deployedApp.get ⟨none, "default", "app"⟩ =
        some (⟨[⟨⟨"app", [], []⟩, "v1", []⟩, ⟨⟨"app", [], []⟩, "v2", []⟩], some "v1"⟩, 1) ∧
      (∀ m ∈ [(⟨⟨"app", [], []⟩, "v1", []⟩ : Manifest), ⟨⟨"app", [], []⟩, "v2", []⟩],
        m.metadata.name = "app") ∧
      "v1" ∈ allVersions ⟨[⟨⟨"app", [], []⟩, "v1", []⟩, ⟨⟨"app", [], []⟩, "v2", []⟩], some "v1"⟩ ∧
      (∃ m ∈ [(⟨⟨"app", [], []⟩, "v1", []⟩ : Manifest), ⟨⟨"app", [], []⟩, "v2", []⟩],
        m.version ≠ "v1") ∧
      ((listVersions none "default" "app").run []
          ((deleteModel none "default" "app" (.json (.ok ⟨some "v1"⟩))).run []
            ⟨deployedApp, [], fun _ => none⟩).1).2 =
        .done (.versions ⟨.success, "Successfully fetched versions for model app", [⟨"v2", false⟩]⟩) :=
  have hget : deployedApp.get ⟨none, "default", "app"⟩ =
      some (⟨[⟨⟨"app", [], []⟩, "v1", []⟩, ⟨⟨"app", [], []⟩, "v2", []⟩], some "v1"⟩, 1) := by
    decide
  have hnames : ∀ m ∈ [(⟨⟨"app", [], []⟩, "v1", []⟩ : Manifest), ⟨⟨"app", [], []⟩, "v2", []⟩],
      m.metadata.name = "app" := by
    decide
  have hv : "v1" ∈
      allVersions ⟨[⟨⟨"app", [], []⟩, "v1", []⟩, ⟨⟨"app", [], []⟩, "v2", []⟩], some "v1"⟩ := by
    decide
  have hrest : ∃ m ∈ [(⟨⟨"app", [], []⟩, "v1", []⟩ : Manifest), ⟨⟨"app", [], []⟩, "v2", []⟩],
      m.version ≠ "v1" := by
    decide
  ⟨hget, hnames, hv, hrest, delete_deployed_then_list_versions ⟨deployedApp, [], fun _ => none⟩
    none "default" "app" _ 1 hget hnames "v1" rfl hv hrest⟩

/-! ## `put_model` -/

section Put

variable {checks : Checks} {w : World} {a : Option String} {l : String} {m : Manifest}

/-- `put_model` of a new version, with every call succeeding, appends it to the model under
its name. -/
theorem putModel_run_new (hm : Accepted checks m) {cur : StoredManifest}
    (hcur : w.store.modelOrDefault ⟨a, l, m.metadata.name⟩ = cur) (hnew : m.version ∉ cur.allVersions) :
    (putModel checks a l (.ok m)).run [] w =
      ({ w with
          store := w.store.write ⟨a, l, m.metadata.name⟩ ⟨cur.manifests ++ [m], cur.deployedVersion⟩ },
        .done (.put ⟨if cur.manifests.isEmpty then .created else .newVersion,
          cur.manifests.length + 1, m.version,
          s!"Successfully put manifest {m.metadata.name} {m.version}", m.metadata.name⟩)) := by
  obtain ⟨hv, hval, hname, htrim⟩ := hm
  have hset : w.store.set a l ⟨cur.manifests ++ [m], cur.deployedVersion⟩
      (some (((w.store.get ⟨a, l, m.metadata.name⟩).map Prod.snd).getD 0)) =
        .ok (w.store.write ⟨a, l, m.metadata.name⟩ ⟨cur.manifests ++ [m], cur.deployedVersion⟩) := by
    simp only [Store.set, name_append, Store.revisionMatches_get, if_true]
  simp only [putModel, hv, List.isEmpty_nil, Bool.not_true, Bool.false_eq_true, if_false, htrim,
    hname, Prog.run_call, Call.perform_get, List.headD_nil, List.tail_nil, hval, Store.getD_get, hcur,
    addVersion_of_not_mem hnew, Call.perform_set, hset]
  simp [count]

/-- `put(m); get(name, m.version) ≡ m`: on any store, a put of a version the model does not
have, then a get of that version, returns the manifest put. -/
theorem put_model_then_get_model (checks : Checks) (w : World) (a : Option String) (l : String) (m : Manifest) (hm : Accepted checks m)
    (hnew : ∀ p ∈ w.store.get ⟨a, l, m.metadata.name⟩, m.version ∉ p.1.allVersions) :
    ((getModel a l m.metadata.name (.json (.ok ⟨some m.version⟩))).run []
        ((putModel checks a l (.ok m)).run [] w).1).2 =
      .done (.get ⟨.success, s!"Successfully fetched model {m.metadata.name} {m.version}", some m⟩) := by
  have hnew' := Store.not_mem_modelOrDefault hnew
  rw [putModel_run_new hm rfl hnew']
  simp [getModel, Payload.orDefault, Store.get_write_self, getVersion_append_of_not_mem _ hnew']

theorem put_model_then_get_model_empty :
    Accepted Checks.acceptAll ⟨⟨"app", [], []⟩, "v1", []⟩ ∧
      ((getModel none "default" "app" (.json (.ok ⟨some "v1"⟩))).run []
          ((putModel Checks.acceptAll none "default" (.ok ⟨⟨"app", [], []⟩, "v1", []⟩)).run []
            ⟨Store.empty, [], fun _ => none⟩).1).2 =
        .done (.get ⟨.success, "Successfully fetched model app v1", some ⟨⟨"app", [], []⟩, "v1", []⟩⟩) :=
  have hm : Accepted Checks.acceptAll ⟨⟨"app", [], []⟩, "v1", []⟩ := ⟨rfl, rfl, by decide, by decide⟩
  ⟨hm, put_model_then_get_model Checks.acceptAll ⟨Store.empty, [], fun _ => none⟩ none "default" _
    hm fun _ h => by cases h⟩

/-- `put(m); delete(name, m.version); get(name, m.version) ≡ NotFound`, with every call
succeeding, on a store whose keys name their models. -/
theorem put_delete_get_not_found (checks : Checks) (w : World) (hw : w.store.Keyed)
    (a : Option String) (l : String) (m : Manifest) (hm : Accepted checks m)
    (hnew : ∀ p ∈ w.store.get ⟨a, l, m.metadata.name⟩, m.version ∉ p.1.allVersions) :
    ∃ msg, ((getModel a l m.metadata.name (.json (.ok ⟨some m.version⟩))).run []
        ((deleteModel a l m.metadata.name (.json (.ok ⟨some m.version⟩))).run []
          ((putModel checks a l (.ok m)).run [] w).1).1).2 =
      .done (.get ⟨.notFound, msg, none⟩) := by
  have hnew' := Store.not_mem_modelOrDefault hnew
  have hname := hw.modelOrDefault_name ⟨a, l, m.metadata.name⟩
  generalize hcur : w.store.modelOrDefault ⟨a, l, m.metadata.name⟩ = cur at hnew' hname
  rw [putModel_run_new hm hcur hnew']
  have hdel := deleteVersion_append_of_not_mem cur.deployedVersion hnew'
  by_cases hempty : cur.manifests = []
  · simp only [deleteModel, Payload.decode, deleteVersionOf, Prog.run_call, Call.perform_get,
      List.headD_nil, List.tail_nil, Bool.false_eq_true, if_false, Store.get_write_self, hdel,
      Bool.true_and, isEmpty_eq]
    simp [hempty, deleteNotify, publishUndeployed, getModel, Payload.orDefault, Store.get_delete_self]
  · have hv : m.version ∈ allVersions ⟨cur.manifests ++ [m], cur.deployedVersion⟩ := by simp
    set sm : StoredManifest := ⟨cur.manifests ++ [m], cur.deployedVersion⟩
    have hget := Store.get_write_self w.store ⟨a, l, m.metadata.name⟩ sm
    dsimp only
    rw [@deleteModel_run_kept { w with store := w.store.write ⟨a, l, m.metadata.name⟩ sm } a l _ _ _
      hget _ hv (by rw [← deleteVersion_manifests, hdel]; exact hempty) (by rw [hdel]; exact hname hempty)]
    have hf : cur.manifests.find? (fun _ => false) = none :=
      List.find?_eq_none.mpr fun _ _ => Bool.false_ne_true
    simp [getModel, Payload.orDefault, Store.get_write_self, sm, getVersion, hf]

theorem put_delete_get_not_found_empty :
    Accepted Checks.acceptAll ⟨⟨"app", [], []⟩, "v1", []⟩ ∧
      ∃ msg, ((getModel none "default" "app" (.json (.ok ⟨some "v1"⟩))).run []
          ((deleteModel none "default" "app" (.json (.ok ⟨some "v1"⟩))).run []
            ((putModel Checks.acceptAll none "default" (.ok ⟨⟨"app", [], []⟩, "v1", []⟩)).run []
              ⟨Store.empty, [], fun _ => none⟩).1).1).2 =
        .done (.get ⟨.notFound, msg, none⟩) :=
  have hm : Accepted Checks.acceptAll ⟨⟨"app", [], []⟩, "v1", []⟩ := ⟨rfl, rfl, by decide, by decide⟩
  ⟨hm, put_delete_get_not_found Checks.acceptAll ⟨Store.empty, [], fun _ => none⟩ Store.keyed_empty
    none "default" _ hm fun _ h => by cases h⟩

/-- Put is idempotent on `(name, version)`: a put of a version that the model under its trimmed
name has leaves the world as it was and replies with an error, whichever calls fail. -/
theorem put_model_existing_version_unchanged (checks : Checks) (w : World) (a : Option String)
    (l : String) (m : Manifest)
    (hold : ∃ p ∈ w.store.get ⟨a, l, trim m.metadata.name⟩, m.version ∈ p.1.allVersions)
    (fails : List Bool) :
    ((putModel checks a l (.ok m)).run fails w).1 = w ∧
      ∃ msg, ((putModel checks a l (.ok m)).run fails w).2 = .done (.error msg) := by
  obtain ⟨p, hp, hv⟩ := hold
  have h : (putModel checks a l (.ok m)).Always
      (fun w' o => w' = w ∧ ∃ msg, o = .done (.error msg)) w := by
    simp only [putModel]
    split
    · exact ⟨rfl, _, rfl⟩
    split
    · exact ⟨rfl, _, rfl⟩
    refine Prog.always_get ⟨rfl, _, rfl⟩ ?_
    simp only [Option.mem_def.mp hp, Option.getD_some]
    split
    · exact ⟨rfl, _, rfl⟩
    · simp only [addVersion_of_mem hv]
      exact ⟨rfl, _, rfl⟩
  exact h.run fails

/-- Putting `app v1` again into a store that has it. -/
theorem put_model_existing_version_unchanged_deployedApp :
    (∃ p ∈ deployedApp.get ⟨none, "default", trim "app"⟩, "v1" ∈ p.1.allVersions) ∧
      ∀ fails, ((putModel Checks.acceptAll none "default" (.ok ⟨⟨"app", [], []⟩, "v1", []⟩)).run fails
          ⟨deployedApp, [], fun _ => none⟩).1 = ⟨deployedApp, [], fun _ => none⟩ ∧
        ∃ msg, ((putModel Checks.acceptAll none "default" (.ok ⟨⟨"app", [], []⟩, "v1", []⟩)).run fails
          ⟨deployedApp, [], fun _ => none⟩).2 = .done (.error msg) :=
  have hold : ∃ p ∈ deployedApp.get ⟨none, "default", trim "app"⟩, "v1" ∈ p.1.allVersions :=
    ⟨_, rfl, by decide⟩
  ⟨hold, put_model_existing_version_unchanged Checks.acceptAll ⟨deployedApp, [], fun _ => none⟩ none
    "default" _ hold⟩

/-- Puts of new versions run one at a time onto a stored model: each replies `put`, and the
model ends with their manifests appended in order. -/
theorem seqRun_puts {n : String} (ms : List Manifest)
    (hms : ∀ m ∈ ms, Accepted checks m ∧ m.metadata.name = n) {sm : StoredManifest} {rev : Nat} (hget : w.store.get ⟨a, l, n⟩ = some (sm, rev))
    (hnodup : (sm.allVersions ++ ms.map (·.version)).Nodup) :
    (∃ rev', (seqRun checks w (ms.map fun m => .put a l (.ok m))).1.store.get ⟨a, l, n⟩ =
        some (⟨sm.manifests ++ ms, sm.deployedVersion⟩, rev')) ∧
      ∀ o ∈ (seqRun checks w (ms.map fun m => .put a l (.ok m))).2, ∃ r, o = .done (.put r) := by
  induction ms generalizing w sm rev with
  | nil => exact ⟨⟨rev, by simpa using hget⟩, by simp [seqRun]⟩
  | cons m ms ih =>
    obtain ⟨hm, rfl⟩ := hms m (List.mem_cons_self _ _)
    have hnew : m.version ∉ sm.allVersions := fun h =>
      (List.nodup_append.mp hnodup).2.2 h (List.mem_cons_self _ _)
    have hcur : w.store.modelOrDefault ⟨a, l, m.metadata.name⟩ = sm := by
      simp [Store.modelOrDefault, hget]
    have hrun := putModel_run_new hm hcur hnew
    have hget2 : ({ w with store := (w.store.write ⟨a, l, m.metadata.name⟩
        ⟨sm.manifests ++ [m], sm.deployedVersion⟩) } : World).store.get ⟨a, l, m.metadata.name⟩ =
          some (⟨sm.manifests ++ [m], sm.deployedVersion⟩, w.store.seq + 1) :=
      Store.get_write_self _ _ _
    obtain ⟨⟨rev', hget'⟩, hreplies⟩ := ih (fun m' h' => hms m' (List.mem_cons_of_mem _ h'))
      hget2 (by simpa using hnodup)
    simp only [List.map_cons, seqRun, Request.handle, hrun, List.forall_mem_cons, List.append_assoc,
      List.singleton_append] at hget' ⊢
    exact ⟨⟨rev', hget'⟩, ⟨_, rfl⟩, hreplies⟩

/-- `list_versions` lists the versions of new puts in the order they were put. -/
theorem list_versions_after_puts (checks : Checks) (w : World) (a : Option String) (l n : String) (habsent : w.store.get ⟨a, l, n⟩ = none) (ms : List Manifest)
    (hne : ms ≠ []) (hms : ∀ m ∈ ms, Accepted checks m ∧ m.metadata.name = n)
    (hnodup : (ms.map (·.version)).Nodup) :
    (∀ o ∈ (seqRun checks w (ms.map fun m => .put a l (.ok m))).2, ∃ r, o = .done (.put r)) ∧
      ((listVersions a l n).run [] (seqRun checks w (ms.map fun m => .put a l (.ok m))).1).2 =
        .done (.versions ⟨.success, s!"Successfully fetched versions for model {n}",
          ms.map fun m => ⟨m.version, false⟩⟩) := by
  obtain ⟨m, ms, rfl⟩ := List.exists_cons_of_ne_nil hne
  obtain ⟨hm, rfl⟩ := hms m (List.mem_cons_self _ _)
  have hcur : w.store.modelOrDefault ⟨a, l, m.metadata.name⟩ = default := by
    simp [Store.modelOrDefault, habsent]
  have hrun := putModel_run_new hm hcur (by simp [allVersions])
  have hget2 : ({ w with store := (w.store.write ⟨a, l, m.metadata.name⟩
      ⟨(default : StoredManifest).manifests ++ [m], (default : StoredManifest).deployedVersion⟩) } :
        World).store.get ⟨a, l, m.metadata.name⟩ =
          some (⟨(default : StoredManifest).manifests ++ [m],
            (default : StoredManifest).deployedVersion⟩, w.store.seq + 1) :=
    Store.get_write_self _ _ _
  obtain ⟨⟨rev', hget'⟩, hreplies⟩ := seqRun_puts ms (fun m' h' => hms m' (List.mem_cons_of_mem _ h'))
    hget2 (by simpa only [allVersions_mk, List.map_cons] using hnodup)
  simp only [List.map_cons, seqRun, Request.handle, hrun, default_manifests, default_deployedVersion,
    List.nil_append, List.singleton_append] at hget' hreplies ⊢
  refine ⟨List.forall_mem_cons.mpr ⟨⟨_, rfl⟩, hreplies⟩, ?_⟩
  simp [listVersions, hget', allVersions, isDeployed]

/-- Putting `app v1` and then `app v2` into an empty store. -/
theorem list_versions_after_puts_empty :
    (∀ m ∈ [(⟨⟨"app", [], []⟩, "v1", []⟩ : Manifest), ⟨⟨"app", [], []⟩, "v2", []⟩],
        Accepted Checks.acceptAll m ∧ m.metadata.name = "app") ∧
      ((listVersions none "default" "app").run []
          (seqRun Checks.acceptAll ⟨Store.empty, [], fun _ => none⟩
            [.put none "default" (.ok ⟨⟨"app", [], []⟩, "v1", []⟩),
              .put none "default" (.ok ⟨⟨"app", [], []⟩, "v2", []⟩)]).1).2 =
        .done (.versions ⟨.success, "Successfully fetched versions for model app",
          [⟨"v1", false⟩, ⟨"v2", false⟩]⟩) :=
  have hms : ∀ m ∈ [(⟨⟨"app", [], []⟩, "v1", []⟩ : Manifest), ⟨⟨"app", [], []⟩, "v2", []⟩],
      Accepted Checks.acceptAll m ∧ m.metadata.name = "app" :=
    List.forall_mem_cons.mpr ⟨⟨⟨rfl, rfl, by decide, by decide⟩, rfl⟩,
      List.forall_mem_singleton.mpr ⟨⟨rfl, rfl, by decide, by decide⟩, rfl⟩⟩
  ⟨hms, (list_versions_after_puts Checks.acceptAll ⟨Store.empty, [], fun _ => none⟩ none "default"
    "app" rfl _ (List.cons_ne_nil _ _) hms (by decide)).2⟩

end Put

/-! ## `deploy_model` and `undeploy_model` -/

/-- `deploy(v); deploy(v)` is one deploy. -/
theorem deploy_model_twice (w : World) (hw : w.store.Keyed) (a : Option String) (l n : String)
    (payload : Payload VersionRequest) (req : VersionRequest)
    (hreq : payload.orDefault ⟨none⟩ = .ok req) (msg : String)
    (hack : ((deployModel a l n payload).run [] w).2 = .done (.deploy ⟨.acknowledged, msg⟩)) :
    ((deployModel a l n payload).run [] ((deployModel a l n payload).run [] w).1).2 =
        .done (.deploy ⟨.acknowledged, msg⟩) ∧
      (((deployModel a l n payload).run [] ((deployModel a l n payload).run [] w).1).1.store.get
          ⟨a, l, n⟩).map Prod.fst =
        (((deployModel a l n payload).run [] w).1.store.get ⟨a, l, n⟩).map Prod.fst := by
  rcases (deployModel_always_plan hw hreq).run [] with ⟨-, hne⟩ | ⟨p, -⟩
  · exact absurd hack (hne msg)
  rw [p.run_eq w hw hreq] at hack ⊢
  rw [(p.written hw).run_eq _ (hw.write (p.deployed_name hw)) hreq]
  exact ⟨hack, Store.model_write_of_get (Store.get_write_self _ _ _) _⟩

/-- Deploying `v2` of `app` twice, where `v1` is deployed. -/
theorem deploy_model_twice_deployedApp :
    ((deployModel none "default" "app" (.json (.ok ⟨some "v2"⟩))).run []
        ⟨deployedApp, [], fun _ => none⟩).2 =
        .done (.deploy ⟨.acknowledged, "Successfully deployed model app v2"⟩) ∧
      ((deployModel none "default" "app" (.json (.ok ⟨some "v2"⟩))).run []
        ((deployModel none "default" "app" (.json (.ok ⟨some "v2"⟩))).run []
          ⟨deployedApp, [], fun _ => none⟩).1).2 =
        .done (.deploy ⟨.acknowledged, "Successfully deployed model app v2"⟩) :=
  have hack : ((deployModel none "default" "app" (.json (.ok ⟨some "v2"⟩))).run []
      ⟨deployedApp, [], fun _ => none⟩).2 =
        .done (.deploy ⟨.acknowledged, "Successfully deployed model app v2"⟩) := by
    decide
  ⟨hack, (deploy_model_twice ⟨deployedApp, [], fun _ => none⟩ keyed_deployedApp none "default" "app"
    (.json (.ok ⟨some "v2"⟩)) ⟨some "v2"⟩ rfl _ hack).1⟩

/-- A deploy repeated after any first deploy that changed the store (§7's resend) is admitted again,
leaves the store as it was and publishes the same manifest. -/
theorem deploy_model_repeated (w : World) (hw : w.store.Keyed) (a : Option String) (l n : String)
    (payload : Payload VersionRequest) (req : VersionRequest)
    (hreq : payload.orDefault ⟨none⟩ = .ok req) (fails : List Bool)
    (hset : ((deployModel a l n payload).run fails w).1.store ≠ w.store) :
    let first := ((deployModel a l n payload).run fails w).1
    let second := (deployModel a l n payload).run [] first
    ∃ man : Manifest, first.notes = w.notes ++ [.deployed l man] ∧
      Admits first.store a l n req.version ∧
      (∀ k, (second.1.store.get k).map Prod.fst = (first.store.get k).map Prod.fst) ∧
      second.2 = .done (.deploy ⟨.acknowledged, s!"Successfully deployed model {n} {man.version}"⟩) ∧
      second.1.notes = first.notes ++ [.deployed l man] := by
  rcases (deployModel_always_plan hw hreq).run fails with ⟨h, -⟩ | ⟨p, hp⟩
  · exact absurd h hset
  dsimp only
  rw [hp, (p.written hw).run_eq _ (hw.write (p.deployed_name hw)) hreq]
  exact ⟨p.manifest, rfl, (p.written hw).admits,
    Store.model_write_of_get (Store.get_write_self _ _ _), rfl, rfl⟩

/-- Deploying `v2` of `app`, deployed at `v1`, when the publish of the first deploy fails after
its `set`: the first replies the error that asks for a retry, and the retry acknowledges. -/
theorem deploy_model_repeated_deployedApp :
    ((deployModel none "default" "app" (.json (.ok ⟨some "v2"⟩))).run
        [false, false, false, false, true] ⟨deployedApp, [], fun _ => none⟩).1.store ≠ deployedApp ∧
      ((deployModel none "default" "app" (.json (.ok ⟨some "v2"⟩))).run
        [false, false, false, false, true] ⟨deployedApp, [], fun _ => none⟩).2 =
        .done (.deploy ⟨.error, "Error notifying processors of newly deployed manifest. " ++
          "This is likely a transient error, so please retry the request"⟩) ∧
      ((deployModel none "default" "app" (.json (.ok ⟨some "v2"⟩))).run []
        ((deployModel none "default" "app" (.json (.ok ⟨some "v2"⟩))).run
          [false, false, false, false, true] ⟨deployedApp, [], fun _ => none⟩).1).2 =
        .done (.deploy ⟨.acknowledged, "Successfully deployed model app v2"⟩) := by
  have hset : ((deployModel none "default" "app" (.json (.ok ⟨some "v2"⟩))).run
      [false, false, false, false, true] ⟨deployedApp, [], fun _ => none⟩).1.store ≠ deployedApp := by
    decide
  obtain ⟨man, hnotes, -, -, hack, -⟩ := deploy_model_repeated ⟨deployedApp, [], fun _ => none⟩
    keyed_deployedApp none "default" "app" (.json (.ok ⟨some "v2"⟩)) ⟨some "v2"⟩ rfl _ hset
  have hfirst : ((deployModel none "default" "app" (.json (.ok ⟨some "v2"⟩))).run
      [false, false, false, false, true] ⟨deployedApp, [], fun _ => none⟩).1.notes =
        [.deployed "default" ⟨⟨"app", [], []⟩, "v2", []⟩] := by
    decide
  rw [hfirst] at hnotes
  obtain rfl : ⟨⟨"app", [], []⟩, "v2", []⟩ = man := by simpa using hnotes
  exact ⟨hset, by decide, hack⟩

/-- Deploy of an absent version is a no-op on state: whichever calls fail, a deploy of a
version that the model does not have leaves the world as it was, and never acknowledges. -/
theorem deploy_model_absent_version_unchanged (w : World) (a : Option String) (l n : String)
    (payload : Payload VersionRequest) (v : String) (hp : payload.orDefault ⟨none⟩ = .ok ⟨some v⟩)
    (hv : v ≠ latestVersion) (habsent : ∀ p ∈ w.store.get ⟨a, l, n⟩, v ∉ p.1.allVersions)
    (fails : List Bool) :
    ((deployModel a l n payload).run fails w).1 = w ∧
      ∀ r, ((deployModel a l n payload).run fails w).2 = .done (.deploy r) →
        r.result ≠ .acknowledged := by
  have h : (deployModel a l n payload).Always
      (fun w' o => w' = w ∧ ∀ r, o = .done (.deploy r) → r.result ≠ .acknowledged) w := by
    simp only [deployModel, hp]
    refine Prog.always_get ⟨rfl, by rintro r ⟨⟩⟩ ?_
    cases hget : w.store.get ⟨a, l, n⟩ with
    | none => exact ⟨rfl, by rintro r ⟨⟩; nofun⟩
    | some p =>
      obtain ⟨sm, rev⟩ := p
      have hnone : sm.getVersion v = none := getVersion_eq_none.mpr (habsent _ hget)
      refine Prog.always_list ⟨rfl, by rintro r ⟨⟩⟩ ?_
      simp only [resolveStaged, hv, if_false, hnone]
      exact ⟨rfl, by rintro r ⟨⟩; nofun⟩
  exact h.run fails

/-- Deploying `v3` of `app`, which has only `v1` and `v2`. -/
theorem deploy_model_absent_version_unchanged_deployedApp :
    (∀ p ∈ deployedApp.get ⟨none, "default", "app"⟩, "v3" ∉ p.1.allVersions) ∧
      ∀ fails, ((deployModel none "default" "app" (.json (.ok ⟨some "v3"⟩))).run fails
          ⟨deployedApp, [], fun _ => none⟩).1 = ⟨deployedApp, [], fun _ => none⟩ :=
  have habsent : ∀ p ∈ deployedApp.get ⟨none, "default", "app"⟩, "v3" ∉ p.1.allVersions := by
    decide
  ⟨habsent, fun fails => (deploy_model_absent_version_unchanged ⟨deployedApp, [], fun _ => none⟩ none
    "default" "app" (.json (.ok ⟨some "v3"⟩)) "v3" rfl (by decide) habsent fails).1⟩

section Undeploy

variable {w : World} {a : Option String} {l n : String} {sm : StoredManifest} {rev : Nat}

/-- `undeploy_model` with every call succeeding: it clears the deployed version, storing the
model only if one was set, publishes `undeployed` either way, and acknowledges. -/
theorem undeployModel_run (hw : w.store.Keyed) (hget : w.store.get ⟨a, l, n⟩ = some (sm, rev))
    {payload : Payload Unit} (hp : payload.orDefault () = .ok ()) :
    (undeployModel a l n payload).run [] w =
      ({ w with
          store := if sm.deployedVersion.isSome then w.store.write ⟨a, l, n⟩ sm.undeploy.2 else w.store
          notes := w.notes ++ [.undeployed l n] },
        .done (.deploy ⟨.acknowledged, if sm.deployedVersion.isSome
          then s!"Successfully undeployed model {n}" else s!"Model {n} was already undeployed"⟩)) := by
  have hname : (⟨sm.manifests, none⟩ : StoredManifest).name = n := hw.get_name (sm, rev) hget
  have hset : w.store.set a l ⟨sm.manifests, none⟩ (some rev) =
      .ok (w.store.write ⟨a, l, n⟩ ⟨sm.manifests, none⟩) := by
    simp [Store.set, hname, Store.revisionMatches, hget]
  cases hd : sm.deployedVersion <;>
    simp [undeployModel, hp, hget, undeploy, hd, undeployNotify, publishUndeployed, hset]

end Undeploy

/-- `undeploy; undeploy` is one undeploy, leaving no deployed version. -/
theorem undeploy_model_twice (w : World) (hw : w.store.Keyed) (a : Option String) (l n : String)
    (sm : StoredManifest) (rev : Nat) (hget : w.store.get ⟨a, l, n⟩ = some (sm, rev))
    (p q : Payload Unit) (hp : p.orDefault () = .ok ()) (hq : q.orDefault () = .ok ()) :
    (∃ msg, ((undeployModel a l n p).run [] w).2 = .done (.deploy ⟨.acknowledged, msg⟩)) ∧
      (((undeployModel a l n p).run [] w).1.store.get ⟨a, l, n⟩).map (·.1) = some sm.undeploy.2 ∧
      ((undeployModel a l n q).run [] ((undeployModel a l n p).run [] w).1).2 =
        .done (.deploy ⟨.acknowledged, s!"Model {n} was already undeployed"⟩) ∧
      ((undeployModel a l n q).run [] ((undeployModel a l n p).run [] w).1).1 =
        { ((undeployModel a l n p).run [] w).1 with
          notes := w.notes ++ [.undeployed l n, .undeployed l n] } := by
  rw [undeployModel_run hw hget hp]
  cases hd : sm.deployedVersion with
  | none =>
    have hsm : sm.undeploy.2 = sm := by
      obtain ⟨ms, d⟩ := sm
      simp only at hd
      simp [undeploy, hd]
    have h2 := @undeployModel_run { w with notes := w.notes ++ [.undeployed l n] } a l n sm rev hw hget
      q hq
    simp [hd, hsm, hget, h2]
  | some v =>
    have hname : sm.undeploy.2.name = n := hw.get_name (sm, rev) hget
    have h2 := @undeployModel_run
      { w with store := w.store.write ⟨a, l, n⟩ sm.undeploy.2, notes := w.notes ++ [.undeployed l n] }
      a l n sm.undeploy.2 (w.store.seq + 1) (hw.write hname) (Store.get_write_self _ _ _) q hq
    simp [hd, h2, Store.get_write_self]

/-- Undeploying `app`, where `v1` is deployed, twice. -/
theorem undeploy_model_twice_deployedApp :
    ((undeployModel none "default" "app" .empty).run []
        ((undeployModel none "default" "app" .empty).run [] ⟨deployedApp, [], fun _ => none⟩).1).2 =
      .done (.deploy ⟨.acknowledged, "Model app was already undeployed"⟩) :=
  (undeploy_model_twice ⟨deployedApp, [], fun _ => none⟩ keyed_deployedApp none "default" "app" _ 1 rfl
    .empty .empty rfl rfl).2.2.1

end Wadm
