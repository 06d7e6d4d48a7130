import Wadm.System

/-! # Stored models keep their invariants

No handler writes a malformed model or panics, in every run from an empty store.
-/

namespace Wadm

/-- Every row of the store holds a well-formed model. -/
def Store.WellFormed (s : Store) : Prop := ∀ r ∈ s.rows, r.model.WellFormed

/-- The call writes only a well-formed model. -/
def Call.Sound : Call → Prop
  | .set _ _ sm _ => sm.WellFormed
  | _ => True

/-- An answer that a store of well-formed models can give. -/
def Call.Trusted : (c : Call) → c.Answer → Prop
  | .get _, a => ∀ sm rev,
      (a : Except StoreError (Option (StoredManifest × Nat))) = .ok (some (sm, rev)) →
        sm.WellFormed
  | _, _ => True

/-- Fed trusted answers, the task makes only sound calls and never panics. -/
def Prog.Safe : Prog α → Prop
  | .ret _ => True
  | .abort _ => False
  | .call c next => c.Sound ∧ ∀ a, c.Trusted a → (next a).Safe

@[simp] theorem Prog.safe_ret (a : α) : (Prog.ret a).Safe := trivial

@[simp] theorem Prog.safe_abort (msg : String) : ¬ (Prog.abort msg : Prog α).Safe := id

theorem Prog.safe_call {c : Call} {next : c.Answer → Prog α} :
    (Prog.call c next).Safe ↔ c.Sound ∧ ∀ a, c.Trusted a → (next a).Safe := Iff.rfl

/-- A call that writes nothing is safe when every trusted answer leads to a safe task. -/
theorem Prog.safe_call_of {c : Call} {next : c.Answer → Prog α} (hc : c.Sound)
    (h : ∀ a, c.Trusted a → (next a).Safe) : (Prog.call c next).Safe := ⟨hc, h⟩

/-! ## One call keeps the store well formed and answers what it may -/

theorem Store.wellFormed_empty : Store.empty.WellFormed := fun _ h => by cases h

theorem Call.perform_wellFormed {c : Call} {w : World} (fail : Bool) (hc : c.Sound)
    (hs : w.store.WellFormed) : (c.perform fail w).1.store.WellFormed := by
  cases c with
  | set a l sm e =>
    simp only [perform]
    split
    · exact hs
    · split
      · rename_i s' hset
        simp only [Store.set] at hset
        split at hset
        · cases hset
          intro r hr
          rcases Store.mem_write hr with hr | rfl
          · exact hs r hr
          · exact hc
        · cases hset
      · exact hs
  | delete k =>
    simp only [perform]
    split
    · exact hs
    · exact fun r hr => hs r (Store.mem_delete hr)
  | get | list | status | deployed | undeployed => exact hs

theorem Call.perform_trusted (c : Call) {w : World} (fail : Bool) (hs : w.store.WellFormed) :
    c.Trusted (c.perform fail w).2 := by
  cases c with
  | get k =>
    intro sm rev h
    simp only [perform] at h
    split at h
    · cases h
    · rcases h' : w.store.get k with _ | p
      · rw [h'] at h
        cases h
      · rw [h'] at h
        cases h
        exact hs _ (Store.mem_of_get h')
  | set | delete | list | status | deployed | undeployed => trivial

theorem Prog.advance_safe {p : Prog α} {w : World} (fail : Bool) (hp : p.Safe)
    (hs : w.store.WellFormed) :
    (p.advance fail w).1.store.WellFormed ∧ (p.advance fail w).2.Safe := by
  cases p with
  | ret a => exact ⟨hs, trivial⟩
  | abort msg => exact absurd hp id
  | call c next =>
    exact ⟨Call.perform_wellFormed fail hp.1 hs, hp.2 _ (c.perform_trusted fail hs)⟩

/-! ## Each handler is safe -/

section Handlers

open StoredManifest

theorem publishUndeployed_safe (l n : String) (failure reply : Reply) :
    (publishUndeployed l n failure reply).Safe :=
  ⟨trivial, fun a _ => by rcases a with _ | _ <;> trivial⟩

theorem getManifestStatus_safe {l n : String} {k : Option StatusInfo → Prog α}
    (hk : ∀ i, (k i).Safe) : (getManifestStatus l n k).Safe :=
  ⟨trivial, fun i _ => hk i⟩

theorem deleteNotify_safe (l n : String) (r : DeleteModelResponse) : (deleteNotify l n r).Safe := by
  unfold deleteNotify
  split
  · exact publishUndeployed_safe ..
  · trivial

theorem undeployNotify_safe (l n : String) (r : DeployModelResponse) :
    (undeployNotify l n r).Safe := by
  unfold undeployNotify
  split
  · exact publishUndeployed_safe ..
  · trivial

theorem overlayStatus_safe (l : String) (ms data : List ModelSummary) :
    (overlayStatus l ms data).Safe := by
  induction ms generalizing data with
  | nil => trivial
  | cons m ms ih => exact getManifestStatus_safe fun i => by rcases i with _ | i <;> exact ih _

theorem getModel_safe (a : Option String) (l n : String) (p : Payload VersionRequest) :
    (getModel a l n p).Safe := by
  unfold getModel
  split
  · trivial
  refine ⟨trivial, fun ans hans => ?_⟩
  rcases ans with _ | _ | ⟨sm, rev⟩
  · trivial
  · trivial
  have hw := hans sm rev rfl
  dsimp only
  split
  · split <;> trivial
  · obtain ⟨m, hm⟩ := Option.isSome_iff_exists.mp hw.getCurrent_isSome
    simp [hm]

theorem modelStatus_safe (a : Option String) (l n : String) : (modelStatus a l n).Safe := by
  refine ⟨trivial, fun ans hans => ?_⟩
  rcases ans with _ | _ | ⟨sm, rev⟩
  · trivial
  · trivial
  have hw := hans sm rev rfl
  obtain ⟨m, hm⟩ := Option.isSome_iff_exists.mp hw.getCurrent_isSome
  simp only [hm]
  exact getManifestStatus_safe fun _ => trivial

theorem listModels_safe (a : Option String) (l : String) : (listModels a l).Safe := by
  refine ⟨trivial, fun ans _ => ?_⟩
  rcases ans with _ | ms
  · trivial
  · exact overlayStatus_safe ..

theorem listVersions_safe (a : Option String) (l n : String) : (listVersions a l n).Safe :=
  ⟨trivial, fun ans _ => by rcases ans with _ | _ | _ <;> trivial⟩

/-- What `get` answers is a well-formed model or nothing, so what `put_model` adds to keeps
distinct versions and a stored deployed version. -/
theorem putModel_safe (checks : Checks) (a : Option String) (l : String)
    (parsed : Except String Manifest) : (putModel checks a l parsed).Safe := by
  rcases parsed with e | manifest
  · trivial
  simp only [putModel]
  split
  · trivial
  split
  · trivial
  refine ⟨trivial, fun ans hans => ?_⟩
  rcases ans with _ | found
  · trivial
  have hbase : (found.getD (default, 0)).1.allVersions.Nodup ∧
      (found.getD (default, 0)).1.DeployedStored := by
    rcases found with _ | ⟨sm, rev⟩
    · exact ⟨default_nodup, default_deployedStored⟩
    · exact (hans sm rev rfl).deployedStored_nodup
  dsimp only
  split
  · trivial
  rcases hadd : (found.getD (default, 0)).1.addVersion manifest with ⟨_ | _, cm'⟩
  · trivial
  · exact ⟨addVersion_wellFormed hbase.1 hbase.2 hadd, fun res _ => by rcases res with _ | _ <;> trivial⟩

theorem deleteVersionOf_safe (a : Option String) (l n v : String) :
    (deleteVersionOf a l n v).Safe := by
  refine ⟨trivial, fun ans hans => ?_⟩
  rcases ans with _ | _ | ⟨sm, rev⟩
  · exact deleteNotify_safe ..
  · exact deleteNotify_safe ..
  have hw := hans sm rev rfl
  dsimp only
  rw [deleteVersion_undeploy_eq]
  split
  · rename_i h1
    simp only [Bool.and_eq_true, Bool.not_eq_true', isEmpty_eq, List.isEmpty_eq_false] at h1
    exact ⟨deleteVersion_undeploy_wellFormed hw h1.2,
      fun r _ => by rcases r with _ | _ <;> exact deleteNotify_safe ..⟩
  split
  · exact ⟨trivial, fun r _ => by rcases r with _ | _ <;> exact deleteNotify_safe ..⟩
  · exact deleteNotify_safe ..

theorem deleteModel_safe (a : Option String) (l n : String) (p : Payload VersionRequest) :
    (deleteModel a l n p).Safe := by
  unfold deleteModel
  split
  · trivial
  split
  · exact deleteVersionOf_safe ..
  · exact ⟨trivial, fun r _ => by rcases r with _ | _ <;> exact deleteNotify_safe ..⟩

theorem undeployModel_safe (a : Option String) (l n : String) (p : Payload Unit) :
    (undeployModel a l n p).Safe := by
  unfold undeployModel
  split
  · trivial
  refine ⟨trivial, fun ans hans => ?_⟩
  rcases ans with _ | _ | ⟨sm, rev⟩
  · trivial
  · trivial
  have hw := hans sm rev rfl
  dsimp only
  rcases hu : sm.undeploy with ⟨_ | _, sm'⟩
  · exact undeployNotify_safe ..
  · have hw' : sm'.WellFormed := by simpa [hu] using undeploy_wellFormed hw
    exact ⟨hw', fun r _ => by rcases r with _ | _ <;> exact undeployNotify_safe ..⟩

theorem resolveStaged_safe {name : String} {manifests : StoredManifest} {v : Option String}
    {k : Manifest → Prog Reply} (hw : manifests.WellFormed) (hk : ∀ m, (k m).Safe) :
    (resolveStaged name manifests v k).Safe := by
  obtain ⟨m, hm⟩ := Option.isSome_iff_exists.mp hw.getCurrent_isSome
  unfold resolveStaged
  simp only [hm]
  split
  · split
    · exact hk m
    · split
      · exact hk _
      · trivial
  · exact hk m

theorem collectProviderRefs_safe (a : Option String) (l n : String) (ms : List ModelSummary)
    (refs : ProviderRefs) {k : ProviderRefs → Prog Reply} (hk : ∀ r, (k r).Safe) :
    (collectProviderRefs a l n ms refs k).Safe := by
  induction ms generalizing refs with
  | nil => exact hk refs
  | cons m ms ih =>
    unfold collectProviderRefs
    split
    · refine ⟨trivial, fun r _ => ?_⟩
      rcases r with _ | _
      · trivial
      · exact ih _
    · exact ih refs

theorem deployAndNotify_safe (a : Option String) (l n : String) (v : Option String)
    {manifests : StoredManifest} (rev : Nat) (hw : manifests.WellFormed) :
    (deployAndNotify a l n v manifests rev).Safe := by
  unfold deployAndNotify
  rcases h : manifests.deploy v with ⟨_ | _, m'⟩
  · trivial
  have hw' : m'.WellFormed := by simpa [h] using deploy_wellFormed v hw
  obtain ⟨t, -, ht, rfl⟩ := deploy_eq_true h
  obtain ⟨m, hm⟩ := Option.isSome_iff_exists.mp (getVersion_isSome ht)
  have hm' : ({ manifests with deployedVersion := some t } : StoredManifest).getVersion t = some m :=
    hm
  simp only [hm']
  exact ⟨hw', fun _ _ => ⟨trivial, fun r _ => by rcases r with _ | _ <;> trivial⟩⟩

theorem deployModel_safe (a : Option String) (l n : String) (p : Payload VersionRequest) :
    (deployModel a l n p).Safe := by
  unfold deployModel
  split
  · trivial
  refine ⟨trivial, fun ans hans => ?_⟩
  rcases ans with _ | _ | ⟨sm, rev⟩
  · trivial
  · trivial
  have hw := hans sm rev rfl
  refine ⟨trivial, fun ls _ => ?_⟩
  rcases ls with _ | ls
  · trivial
  refine resolveStaged_safe hw fun staged => collectProviderRefs_safe _ _ _ _ _ fun refs => ?_
  dsimp only
  split
  · trivial
  · exact deployAndNotify_safe _ _ _ _ _ hw

theorem Request.handle_safe (checks : Checks) (r : Request) : (r.handle checks).Safe := by
  cases r with
  | put => exact putModel_safe ..
  | get => exact getModel_safe ..
  | list => exact listModels_safe ..
  | versions => exact listVersions_safe ..
  | delete => exact deleteModel_safe ..
  | deploy => exact deployModel_safe ..
  | undeploy => exact undeployModel_safe ..
  | status => exact modelStatus_safe ..

end Handlers

/-! ## Every run keeps the invariant -/

namespace Sys

/-- The store holds well-formed models and every task is safe. -/
def Inv (s : Sys) : Prop := s.world.store.WellFormed ∧ ∀ p ∈ s.tasks, p.Safe

theorem inv_init (log : String → Option StatusInfo) : (init log).Inv :=
  ⟨Store.wellFormed_empty, fun _ h => by cases h⟩

theorem inv_step (checks : Checks) {s : Sys} (e : Event) (h : s.Inv) : (s.step checks e).Inv := by
  cases e with
  | arrive r =>
    refine ⟨h.1, fun p hp => ?_⟩
    rcases List.mem_append.mp hp with hp | hp
    · exact h.2 p hp
    · rw [List.mem_singleton.mp hp]
      exact r.handle_safe checks
  | advance i fail =>
    simp only [step]
    split
    · rename_i p hp
      obtain ⟨hs, hsafe⟩ := Prog.advance_safe fail (h.2 p (List.get?_mem hp)) h.1
      refine ⟨hs, fun q hq => ?_⟩
      rcases List.mem_or_eq_of_mem_set hq with hq | rfl
      · exact h.2 q hq
      · exact hsafe
    · exact h

theorem inv_run (checks : Checks) {s : Sys} (events : List Event) (h : s.Inv) :
    (s.run checks events).Inv := by
  induction events generalizing s with
  | nil => exact h
  | cons e events ih => exact ih (inv_step checks e h)

end Sys

end Wadm
