import Wadm.Admission
import Wadm.System

/-! # Notifications against the store

Each notification of `deploy_model`, `undeploy_model` and `delete_model` is checked against the
store the request leaves behind, and each change of a model's deployed state against the
notifications published.
-/

namespace Wadm

open StoredManifest

/-- What a notification says of the model under `k` in the store `s`. -/
def Note.Agrees (k : Key) (s : Store) : Note → Prop
  | .deployed l m => l = k.latticeId ∧ (s.get k).map (·.1.deployedVersion) = some (some m.version)
  | .undeployed l n => l = k.latticeId ∧ n = k.name ∧ ∀ p ∈ s.get k, p.1.deployedVersion = none

def NotesAgree (k : Key) (w : World) : Prop :=
  ∀ note ∈ w.notes, note.Agrees k w.store

/-- The deployed version of the model under `k`; `none` when it is absent or not deployed. -/
def Store.deployedAt (s : Store) (k : Key) : Option String :=
  (s.get k).bind (·.1.deployedVersion)

/-- The notifications published tell the deployed state of the model under `k`: the manifest it
is deployed at, or an undeploy. -/
def Notified (k : Key) (w : World) : Prop :=
  (∀ v, w.store.deployedAt k = some v →
    ∃ m, (w.store.get k).bind (·.1.getDeployed) = some m ∧ .deployed k.latticeId m ∈ w.notes) ∧
  (w.store.deployedAt k = none → .undeployed k.latticeId k.name ∈ w.notes)

/-- What a request that began at store `s` and left `w` publishes: notifications that agree with
the store it leaves, telling of any change of the deployed state under `k`. -/
structure Reports (k : Key) (s : Store) (w : World) : Prop where
  agree : NotesAgree k w
  told : s.deployedAt k ≠ w.store.deployedAt k → Notified k w

/-- A `delete_model` of a version that the stored model does not have. -/
def DeletesMissingVersion (s : Store) (k : Key) (payload : Payload VersionRequest) : Prop :=
  ∃ v, payload.decode = .ok ⟨some v⟩ ∧ ∃ p ∈ s.get k, v ∉ p.1.allVersions

/-- Every version of the model under `k` carries the key's name. -/
def NamedAt (s : Store) (k : Key) : Prop :=
  ∀ p ∈ s.get k, ∀ m ∈ p.1.manifests, m.metadata.name = k.name

theorem notesAgree_nil (k : Key) (s : Store) (log : String → Option StatusInfo) :
    NotesAgree k ⟨s, [], log⟩ := fun _ h => nomatch h

theorem notesAgree_append {k : Key} {w : World} {note : Note} :
    NotesAgree k { w with notes := w.notes ++ [note] } ↔ NotesAgree k w ∧ note.Agrees k w.store := by
  simp [NotesAgree, or_imp, forall_and]

theorem deployedAt_eq_none {s : Store} {k : Key} :
    s.deployedAt k = none ↔ ∀ p ∈ s.get k, p.1.deployedVersion = none := by
  rcases h : s.get k with _ | p <;> simp [Store.deployedAt, h]

theorem deployedAt_of_get {s : Store} {k : Key} {sm : StoredManifest} {rev : Nat}
    (h : s.get k = some (sm, rev)) : s.deployedAt k = sm.deployedVersion := by
  simp [Store.deployedAt, h]

/-- With the deployed state as it was, the notifications need only agree with the store. -/
theorem reports_of_deployedAt {k : Key} {s : Store} {w : World} (hw : NotesAgree k w)
    (h : s.deployedAt k = w.store.deployedAt k) : Reports k s w :=
  ⟨hw, fun hne => absurd h hne⟩

/-- An undeploy published over a store where the model is absent or not deployed. -/
theorem reports_append_undeployed {a : Option String} {l n : String} {s : Store} {w : World}
    (hw : NotesAgree ⟨a, l, n⟩ w) (h : ∀ p ∈ w.store.get ⟨a, l, n⟩, p.1.deployedVersion = none) :
    Reports ⟨a, l, n⟩ s { w with notes := w.notes ++ [.undeployed l n] } := by
  have hnone := deployedAt_eq_none.mpr h
  exact ⟨notesAgree_append.mpr ⟨hw, rfl, rfl, h⟩,
    fun _ => ⟨fun v hv => absurd (hnone.symm.trans hv) nofun, fun _ => by simp⟩⟩

/-- A deploy that stored `sm` under its key and published the manifest it is deployed at. -/
theorem reports_write_deployed {a : Option String} {l n : String} {s : Store}
    {log : String → Option StatusInfo} {sm : StoredManifest} {m : Manifest}
    (hm : sm.getDeployed = some m) :
    Reports ⟨a, l, n⟩ s ⟨s.write ⟨a, l, n⟩ sm, [.deployed l m], log⟩ := by
  have hd := deployedVersion_of_getDeployed hm
  have hget := Store.get_write_self s ⟨a, l, n⟩ sm
  refine ⟨fun note hn => ?_, fun _ => ⟨fun _ _ => ⟨m, by simp [hget, hm], by simp⟩, fun h => ?_⟩⟩
  · obtain rfl := List.mem_singleton.mp hn
    exact ⟨rfl, by simp [hget, hd]⟩
  · simp [Store.deployedAt, hget, hd] at h

/-! ## The tails that publish an undeploy -/

theorem publishUndeployed_reports {a : Option String} {l n : String} {s : Store} {w : World}
    (hw : NotesAgree ⟨a, l, n⟩ w) (h : ∀ p ∈ w.store.get ⟨a, l, n⟩, p.1.deployedVersion = none)
    (failure reply : Reply) :
    (publishUndeployed l n failure reply).Always (fun w _ => Reports ⟨a, l, n⟩ s w) w :=
  Prog.always_undeployed fun r => by
    rcases r with _ | ⟨⟩ <;> exact reports_append_undeployed hw h

/-- The end of `delete_model` publishes an undeploy exactly when its reply asks for one or is a
noop. -/
theorem deleteNotify_reports {a : Option String} {l n : String} {s : Store} {w : World}
    (hw : NotesAgree ⟨a, l, n⟩ w) {r : DeleteModelResponse}
    (hpub : (r.undeploy || r.result == .noop) = true →
      ∀ p ∈ w.store.get ⟨a, l, n⟩, p.1.deployedVersion = none)
    (hquiet : (r.undeploy || r.result == .noop) = false →
      s.deployedAt ⟨a, l, n⟩ = w.store.deployedAt ⟨a, l, n⟩) :
    (deleteNotify l n r).Always (fun w _ => Reports ⟨a, l, n⟩ s w) w := by
  unfold deleteNotify
  split
  · exact publishUndeployed_reports hw (hpub ‹_›) _ _
  · exact reports_of_deployedAt hw (hquiet (Bool.eq_false_iff.mpr ‹_›))

/-- A delete that removed the model. -/
theorem deleteNotify_reports_deleted {a : Option String} {l n : String} {s : Store}
    {log : String → Option StatusInfo} (msg : String) :
    (deleteNotify l n ⟨.deleted, msg, true⟩).Always (fun w _ => Reports ⟨a, l, n⟩ s w)
      ⟨s.delete ⟨a, l, n⟩, [], log⟩ :=
  deleteNotify_reports (notesAgree_nil _ _ _) (fun _ => by simp [Store.get_delete_self]) (by nofun)

/-! ## Each handler -/

/-- Whichever calls fail, the notifications of `deploy_model` report the store it leaves, or its
`set` did not take: the store is as it was and the request is not acknowledged. -/
theorem deployModel_reports {s : Store} (hs : s.Keyed) (log : String → Option StatusInfo)
    (a : Option String) (l n : String) (payload : Payload VersionRequest) :
    (deployModel a l n payload).Always (fun w o => Reports ⟨a, l, n⟩ s w ∨
      w.store = s ∧ ∀ msg, o ≠ .done (.deploy ⟨.acknowledged, msg⟩)) ⟨s, [], log⟩ := by
  rcases hreq : payload.orDefault ⟨none⟩ with e | req
  · simp only [deployModel, hreq]
    exact .inr ⟨rfl, nofun⟩
  refine (@deployModel_always_plan ⟨s, [], log⟩ hs a l n payload req hreq).imp fun w o h => ?_
  rcases h with h | ⟨p, rfl⟩
  · exact .inr h
  · exact .inl (reports_write_deployed p.getDeployed_deployed)

theorem undeployModel_reports {s : Store} (hs : s.Keyed) (log : String → Option StatusInfo)
    (a : Option String) (l n : String) (payload : Payload Unit) :
    (undeployModel a l n payload).Always (fun w _ => Reports ⟨a, l, n⟩ s w) ⟨s, [], log⟩ := by
  have hq : Reports ⟨a, l, n⟩ s ⟨s, [], log⟩ := reports_of_deployedAt (notesAgree_nil _ _ _) rfl
  unfold undeployModel
  split
  · exact hq
  refine Prog.always_get hq ?_
  rcases hget : s.get ⟨a, l, n⟩ with _ | ⟨sm, rev⟩
  · exact hq
  dsimp only
  rcases hu : sm.undeploy with ⟨_ | _, sm'⟩
  · have hd : sm.deployedVersion = none := by simpa [undeploy] using congrArg Prod.fst hu
    simp only [undeployNotify, beq_self_eq_true, if_true]
    exact publishUndeployed_reports (notesAgree_nil _ _ _) (by simp [hget, hd]) _ _
  · have hsm : sm' = { sm with deployedVersion := none } := (congrArg Prod.snd hu).symm
    subst hsm
    refine Prog.always_set (fun _ => ?_) (fun s' hset => ?_)
    · simp [undeployNotify, hq]
    · obtain rfl := Store.set_eq_ok ⟨a, l, n⟩ hset (hs.get_name _ hget)
      simp only [undeployNotify, beq_self_eq_true, if_true]
      exact publishUndeployed_reports (notesAgree_nil _ _ _) (by simp [Store.get_write_self]) _ _

/-- Whichever calls fail, the notifications of `delete_model` report the store it leaves, or it
was asked for a version the model lacks: a noop that leaves the store as it was. -/
theorem deleteModel_reports {s : Store} (log : String → Option StatusInfo) {a : Option String}
    {l n : String} (hnamed : NamedAt s ⟨a, l, n⟩) (payload : Payload VersionRequest) :
    (deleteModel a l n payload).Always (fun w _ => Reports ⟨a, l, n⟩ s w ∨
      DeletesMissingVersion s ⟨a, l, n⟩ payload ∧ w.store = s) ⟨s, [], log⟩ := by
  have hnil := notesAgree_nil ⟨a, l, n⟩ s log
  have hquiet : Prog.Always (fun w _ => Reports ⟨a, l, n⟩ s w ∨
      DeletesMissingVersion s ⟨a, l, n⟩ payload ∧ w.store = s) ⟨s, [], log⟩
        (deleteNotify l n ⟨.error, storageError, false⟩) :=
    (deleteNotify_reports hnil (by nofun) fun _ => rfl).imp fun _ _ => .inl
  unfold deleteModel
  split
  · exact .inl (reports_of_deployedAt hnil rfl)
  rename_i req hreq
  split
  · rename_i v hv
    unfold deleteVersionOf
    refine Prog.always_get hquiet ?_
    rcases hget : s.get ⟨a, l, n⟩ with _ | ⟨sm, rev⟩
    · exact (deleteNotify_reports hnil (fun _ => by simp [hget]) (by nofun)).imp fun _ _ => .inl
    dsimp only
    by_cases hv' : v ∈ sm.allVersions
    swap
    · have hdel : (sm.deleteVersion v).1 = false :=
        Bool.eq_false_iff.mpr (mt deleteVersion_fst.mp hv')
      simp only [hdel, Bool.false_and, Bool.false_eq_true, if_false]
      exact (@deleteNotify_store ⟨s, [], log⟩ (· = s) rfl l n _).imp fun _ _ h =>
        .inr ⟨⟨v, by rw [hreq, ← hv], _, hget, hv'⟩, h⟩
    rw [deleteVersion_undeploy_eq]
    simp only [deleteVersion_fst.mpr hv', Bool.true_and]
    split
    · rename_i hkeep
      have hne : sm.manifests.filter (·.version != v) ≠ [] := by
        simpa [List.isEmpty_iff] using hkeep
      refine Prog.always_set (fun _ => hquiet) fun s' hset => ?_
      obtain rfl := Store.set_eq_ok ⟨a, l, n⟩ hset
        (name_eq_of_forall hne fun m hm => hnamed _ hget m (List.mem_filter.mp hm).1)
      refine (deleteNotify_reports (notesAgree_nil _ _ _) (fun h => ?_) fun h => ?_).imp
        fun _ _ => .inl
      · have hd : sm.deployedVersion = some v := by simpa using h
        simp [Store.get_write_self, hd]
      · have hd : sm.deployedVersion ≠ some v := by simpa using h
        simp [deployedAt_of_get hget, deployedAt_of_get (Store.get_write_self ..), hd]
    split
    · exact Prog.always_delete (fun _ =>
        (deleteNotify_reports hnil (by nofun) fun _ => rfl).imp fun _ _ => .inl)
        ((deleteNotify_reports_deleted _).imp fun _ _ => .inl)
    · rename_i hkeep hlast
      exact absurd (by simpa using hkeep) hlast
  · exact Prog.always_delete (fun _ => hquiet) ((deleteNotify_reports_deleted _).imp fun _ _ => .inl)

/-! ## Every notification agrees with the store -/

/-- The notifications of `deploy_model`, `undeploy_model` and `delete_model` agree with the store
they leave, but a deploy's after a failed `set` and a delete's of a missing version. -/
theorem notifications_agree_with_store (a : Option String) (l n : String) (s : Store)
    (log : String → Option StatusInfo) (hs : s.Keyed) (hnamed : NamedAt s ⟨a, l, n⟩)
    (fails : List Bool) :
    (∀ payload, NotesAgree ⟨a, l, n⟩ ((deployModel a l n payload).run fails ⟨s, [], log⟩).1 ∨
        ((deployModel a l n payload).run fails ⟨s, [], log⟩).1.store = s ∧
          ∀ msg, ((deployModel a l n payload).run fails ⟨s, [], log⟩).2 ≠
            .done (.deploy ⟨.acknowledged, msg⟩)) ∧
      (∀ payload,
        NotesAgree ⟨a, l, n⟩ ((undeployModel a l n payload).run fails ⟨s, [], log⟩).1) ∧
      ∀ payload, ¬ DeletesMissingVersion s ⟨a, l, n⟩ payload →
        NotesAgree ⟨a, l, n⟩ ((deleteModel a l n payload).run fails ⟨s, [], log⟩).1 :=
  ⟨fun p => ((deployModel_reports hs log a l n p).run fails).imp_left Reports.agree,
    fun p => ((undeployModel_reports hs log a l n p).run fails).agree,
    fun p hm => (((deleteModel_reports log hnamed p).run fails).resolve_right
      fun h => hm h.1).agree⟩

/-- The model `app` with versions `v1` and `v2`, deployed at `v1`. -/
def deployedApp : Store :=
  ⟨[⟨⟨none, "default", "app"⟩,
    ⟨[⟨⟨"app", [], []⟩, "v1", []⟩, ⟨⟨"app", [], []⟩, "v2", []⟩], some "v1"⟩, 1⟩], 1⟩

theorem keyed_deployedApp : deployedApp.Keyed := ⟨by decide, by decide⟩

theorem namedAt_deployedApp : NamedAt deployedApp ⟨none, "default", "app"⟩ := by
  simp only [NamedAt]
  decide

theorem notifications_agree_with_store_deployedApp :
    deployedApp.Keyed ∧ NamedAt deployedApp ⟨none, "default", "app"⟩ ∧
      (∀ payload,
        NotesAgree ⟨none, "default", "app"⟩
            ((deployModel none "default" "app" payload).run [] ⟨deployedApp, [], fun _ => none⟩).1 ∨
          ((deployModel none "default" "app" payload).run [] ⟨deployedApp, [], fun _ => none⟩).1.store =
              deployedApp ∧
            ∀ msg, ((deployModel none "default" "app" payload).run []
              ⟨deployedApp, [], fun _ => none⟩).2 ≠ .done (.deploy ⟨.acknowledged, msg⟩)) ∧
      (∀ payload, NotesAgree ⟨none, "default", "app"⟩
        ((undeployModel none "default" "app" payload).run [] ⟨deployedApp, [], fun _ => none⟩).1) ∧
      ∀ payload, ¬ DeletesMissingVersion deployedApp ⟨none, "default", "app"⟩ payload →
        NotesAgree ⟨none, "default", "app"⟩
          ((deleteModel none "default" "app" payload).run [] ⟨deployedApp, [], fun _ => none⟩).1 :=
  ⟨keyed_deployedApp, namedAt_deployedApp, notifications_agree_with_store none "default" "app"
    deployedApp (fun _ => none) keyed_deployedApp namedAt_deployedApp []⟩

/-- Two versions of `app`. -/
def appV1 : Manifest := ⟨⟨"app", [], []⟩, "v1", []⟩

def appV2 : Manifest := ⟨⟨"app", [], []⟩, "v2", []⟩

/-- Both versions are put; then `app` is deployed at each, the two deploys reading the model
before either sets it, and the deploy of `v1` setting first. No call fails. -/
def racingDeploysOfOneModel : List Event :=
  [.arrive (.put none "default" (.ok appV1)), .advance 0 false, .advance 0 false,
    .arrive (.put none "default" (.ok appV2)), .advance 1 false, .advance 1 false,
    .arrive (.deploy none "default" "app" (.json (.ok ⟨some "v1"⟩))),
    .arrive (.deploy none "default" "app" (.json (.ok ⟨some "v2"⟩))),
    .advance 2 false, .advance 3 false, .advance 2 false, .advance 3 false,
    .advance 2 false, .advance 2 false, .advance 3 false, .advance 3 false]

/-- A deploy that loses its `set` to a concurrent deploy still publishes its manifest. -/
theorem deploy_notifies_after_lost_set (checks : Checks)
    (haccept : ∀ m ∈ [appV1, appV2],
      checks.versionErrors m.version = [] ∧ checks.schemaErrors m = []) :
    (∀ j fail, Event.advance j fail ∈ racingDeploysOfOneModel → fail = false) ∧
      ((Sys.init fun _ => none).run checks racingDeploysOfOneModel).tasks.map Prog.reply? =
        [some (.put ⟨.created, 1, "v1", "Successfully put manifest app v1", "app"⟩),
          some (.put ⟨.newVersion, 2, "v2", "Successfully put manifest app v2", "app"⟩),
          some (.deploy ⟨.acknowledged, "Successfully deployed model app v1"⟩),
          some (.deploy ⟨.error, storageError⟩)] ∧
      ((Sys.init fun _ => none).run checks racingDeploysOfOneModel).world.notes.getLast? =
        some (.deployed "default" appV2) ∧
      (((Sys.init fun _ => none).run checks racingDeploysOfOneModel).world.store.get
        ⟨none, "default", "app"⟩).map (·.1.deployedVersion) = some (some "v1") := by
  rw [Sys.run_acceptAll (by decide) haccept]
  refine ⟨fun j fail h => ?_, by decide⟩
  have hall := List.all_eq_true.mp (by decide : racingDeploysOfOneModel.all
    (fun | .advance _ f => !f | .arrive _ => true) = true) _ h
  simpa using hall

theorem deploy_notifies_after_lost_set_acceptAll :
    (∀ m ∈ [appV1, appV2],
      Checks.acceptAll.versionErrors m.version = [] ∧ Checks.acceptAll.schemaErrors m = []) ∧
      (∀ j fail, Event.advance j fail ∈ racingDeploysOfOneModel → fail = false) ∧
      ((Sys.init fun _ => none).run Checks.acceptAll racingDeploysOfOneModel).tasks.map
          Prog.reply? =
        [some (.put ⟨.created, 1, "v1", "Successfully put manifest app v1", "app"⟩),
          some (.put ⟨.newVersion, 2, "v2", "Successfully put manifest app v2", "app"⟩),
          some (.deploy ⟨.acknowledged, "Successfully deployed model app v1"⟩),
          some (.deploy ⟨.error, storageError⟩)] ∧
      ((Sys.init fun _ => none).run Checks.acceptAll racingDeploysOfOneModel).world.notes.getLast? =
        some (.deployed "default" appV2) ∧
      (((Sys.init fun _ => none).run Checks.acceptAll racingDeploysOfOneModel).world.store.get
        ⟨none, "default", "app"⟩).map (·.1.deployedVersion) = some (some "v1") :=
  have h : ∀ m ∈ [appV1, appV2],
      Checks.acceptAll.versionErrors m.version = [] ∧ Checks.acceptAll.schemaErrors m = [] :=
    fun _ _ => ⟨rfl, rfl⟩
  ⟨h, deploy_notifies_after_lost_set _ h⟩

/-! ## Every change of the deployed state is notified -/

/-- `delete_model` of one stored version of a model that keeps others, every call succeeding. -/
theorem deleteModel_run_kept {w : World} {a : Option String} {l n : String} {sm : StoredManifest}
    {rev : Nat} (hget : w.store.get ⟨a, l, n⟩ = some (sm, rev)) {v : String}
    (hv : v ∈ sm.allVersions) (hrest : sm.manifests.filter (·.version != v) ≠ [])
    (hname : (sm.deleteVersion v).2.name = n) :
    (deleteModel a l n (.json (.ok ⟨some v⟩))).run [] w =
      ({ w with
          store := w.store.write ⟨a, l, n⟩ ⟨sm.manifests.filter (·.version != v),
            if sm.deployedVersion = some v then none else sm.deployedVersion⟩
          notes := if sm.deployedVersion = some v then w.notes ++ [.undeployed l n] else w.notes },
        .done (.delete ⟨.deleted, s!"Successfully deleted version {v} of model {n}",
          sm.deployedVersion == some v⟩)) := by
  have hkeep : (!(sm.deleteVersion v).2.isEmpty) = true := by simpa [List.isEmpty_iff] using hrest
  have hname' : (⟨sm.manifests.filter (·.version != v),
      if sm.deployedVersion = some v then none else sm.deployedVersion⟩ : StoredManifest).name = n :=
    hname
  have hset : w.store.set a l ⟨sm.manifests.filter (·.version != v),
      if sm.deployedVersion = some v then none else sm.deployedVersion⟩ (some rev) =
        .ok (w.store.write ⟨a, l, n⟩ ⟨sm.manifests.filter (·.version != v),
          if sm.deployedVersion = some v then none else sm.deployedVersion⟩) := by
    simp [Store.set, hname', Store.revisionMatches, hget]
  simp only [deleteModel, Payload.decode, deleteVersionOf, Prog.run_call, Call.perform_get,
    List.headD_nil, List.tail_nil, Bool.false_eq_true, if_false, hget, deleteVersion_fst.mpr hv,
    Bool.true_and, hkeep, if_true]
  rw [deleteVersion_undeploy_eq]
  by_cases hd : sm.deployedVersion = some v
  · simp only [hd, if_true] at hset
    simp [hset, hd, deleteNotify, publishUndeployed]
  · simp only [hd, if_false] at hset
    simp [hset, hd, deleteNotify]

/-- Every change of the deployed state is notified; deleting the deployed version undeploys. -/
theorem deployed_state_changes_notified (a : Option String) (l n : String) (s : Store)
    (log : String → Option StatusInfo) (hs : s.Keyed) (hnamed : NamedAt s ⟨a, l, n⟩) :
    (∀ fails pd pv pu,
      ∀ p ∈ [deleteModel a l n pd, deployModel a l n pv, undeployModel a l n pu],
        s.deployedAt ⟨a, l, n⟩ ≠ (p.run fails ⟨s, [], log⟩).1.store.deployedAt ⟨a, l, n⟩ →
          Notified ⟨a, l, n⟩ (p.run fails ⟨s, [], log⟩).1) ∧
      ∀ sm rev v, s.get ⟨a, l, n⟩ = some (sm, rev) → sm.deployedVersion = some v →
        v ∈ sm.allVersions → (∃ m ∈ sm.manifests, m.version ≠ v) →
        (deleteModel a l n (.json (.ok ⟨some v⟩))).run [] ⟨s, [], log⟩ =
          (⟨s.write ⟨a, l, n⟩ ⟨sm.manifests.filter (·.version != v), none⟩, [.undeployed l n], log⟩,
            .done (.delete ⟨.deleted, s!"Successfully deleted version {v} of model {n}", true⟩)) := by
  refine ⟨fun fails pd pv pu p hp hne => ?_, fun sm rev v hget hd hv ⟨m, hm, hmv⟩ => ?_⟩
  · simp only [List.mem_cons, List.mem_singleton, List.not_mem_nil, or_false] at hp
    rcases hp with rfl | rfl | rfl
    · rcases (deleteModel_reports log hnamed pd).run fails with h | ⟨-, h⟩
      exacts [h.told hne, absurd (by rw [h]) hne]
    · rcases (deployModel_reports hs log a l n pv).run fails with h | ⟨h, -⟩
      exacts [h.told hne, absurd (by rw [h]) hne]
    · exact ((undeployModel_reports hs log a l n pu).run fails).told hne
  · have hrest : sm.manifests.filter (·.version != v) ≠ [] :=
      List.ne_nil_of_mem (List.mem_filter.mpr ⟨hm, by simpa using hmv⟩)
    have hname : (sm.deleteVersion v).2.name = n :=
      name_eq_of_forall hrest fun m hm => hnamed _ hget m (List.mem_filter.mp hm).1
    rw [deleteModel_run_kept hget hv hrest hname]
    simp [hd]

theorem deployed_state_changes_notified_deployedApp :
    deployedApp.Keyed ∧ NamedAt deployedApp ⟨none, "default", "app"⟩ ∧
      deployedApp.get ⟨none, "default", "app"⟩ =
        some (⟨[appV1, appV2], some "v1"⟩, 1) ∧
      (deleteModel none "default" "app" (.json (.ok ⟨some "v1"⟩))).run []
          ⟨deployedApp, [], fun _ => none⟩ =
        (⟨deployedApp.write ⟨none, "default", "app"⟩ ⟨[appV2], none⟩,
            [.undeployed "default" "app"], fun _ => none⟩,
          .done (.delete ⟨.deleted, "Successfully deleted version v1 of model app", true⟩)) :=
  have hget : deployedApp.get ⟨none, "default", "app"⟩ = some (⟨[appV1, appV2], some "v1"⟩, 1) := by
    decide
  ⟨keyed_deployedApp, namedAt_deployedApp, hget,
    (deployed_state_changes_notified none "default" "app" deployedApp (fun _ => none)
      keyed_deployedApp namedAt_deployedApp).2 _ 1 "v1" hget rfl (by decide)
      ⟨appV2, by simp [appV2], by decide⟩⟩

end Wadm
