import Wadm.System
import Wadm.Admission

/-! # Where the manifests come from

Every manifest stored, published or returned came, unchanged, with a `put_model` that checked it.
-/

namespace Wadm

/-- The checks `put_model` makes of a manifest before it stores it. -/
structure Checks.Passes (checks : Checks) (m : Manifest) : Prop where
  version : checks.versionErrors m.version = []
  name : isValidManifestName (trim m.metadata.name) = true
  schema : validateManifest checks.schemaErrors m = .ok ()

/-- Every manifest of the model satisfies `P`. -/
def StoredManifest.All (P : Manifest → Prop) (sm : StoredManifest) : Prop := ∀ m ∈ sm.manifests, P m

/-- Every stored manifest and every manifest a `deployed` notification carries satisfies `P`. -/
structure World.Vouched (P : Manifest → Prop) (w : World) : Prop where
  store : ∀ r ∈ w.store.rows, r.model.All P
  notes : ∀ l m, Note.deployed l m ∈ w.notes → P m

/-- What the call hands on satisfies `P`: the model a `set` writes, the manifest a `deployed`
notification carries. -/
def Call.Vouched (P : Manifest → Prop) : Call → Prop
  | .set _ _ sm _ => sm.All P
  | .deployed _ m => P m
  | _ => True

/-- An answer that a store whose manifests satisfy `P` can give. -/
def Call.Fed (P : Manifest → Prop) : (c : Call) → c.Answer → Prop
  | .get _, a => ∀ sm rev,
      (a : Except StoreError (Option (StoredManifest × Nat))) = .ok (some (sm, rev)) → sm.All P
  | _, _ => True

/-- The manifest the reply returns, if any, satisfies `P`. -/
def Reply.Vouched (P : Manifest → Prop) : Reply → Prop
  | .get ⟨_, _, some m⟩ => P m
  | _ => True

/-- Fed answers from such a store, the task hands on and returns only manifests that satisfy
`P`. -/
def Prog.Vouched (P : Manifest → Prop) : Prog Reply → Prop
  | .ret r => r.Vouched P
  | .abort _ => True
  | .call c next => c.Vouched P ∧ ∀ a, c.Fed P a → (next a).Vouched P

section Calls

variable {P : Manifest → Prop}

theorem World.vouched_publish {w : World} (hw : w.Vouched P) {n : Note}
    (hn : ∀ l m, n = .deployed l m → P m) : { w with notes := w.notes ++ [n] }.Vouched P :=
  ⟨hw.store, fun l m h => (List.mem_append.mp h).elim (hw.notes l m)
    fun h => hn l m (List.mem_singleton.mp h).symm⟩

/-! ## One call keeps the world vouched for and answers what it may -/

theorem Call.perform_vouched {c : Call} {w : World} (fail : Bool) (hc : c.Vouched P)
    (hw : w.Vouched P) : (c.perform fail w).1.Vouched P ∧ c.Fed P (c.perform fail w).2 := by
  cases c with
  | get k =>
    refine ⟨hw, fun sm rev h => ?_⟩
    cases fail
    · exact hw.store _ (Store.mem_of_get (Except.ok.inj h : w.store.get k = some (sm, rev)))
    · cases h
  | set a l sm e =>
    refine ⟨?_, trivial⟩
    simp only [Call.perform_set]
    split
    · exact hw
    split
    · rename_i s' hset
      obtain rfl := Store.set_eq_ok ⟨a, l, sm.name⟩ hset rfl
      refine ⟨fun r hr => ?_, hw.notes⟩
      rcases Store.mem_write hr with hr | rfl
      · exact hw.store r hr
      · exact hc
    · exact hw
  | delete k =>
    refine ⟨?_, trivial⟩
    simp only [Call.perform_delete]
    split
    · exact hw
    · exact ⟨fun r hr => hw.store r (Store.mem_delete hr), hw.notes⟩
  | deployed l m => exact ⟨World.vouched_publish hw fun _ _ h => (by cases h; exact hc), trivial⟩
  | undeployed l n => exact ⟨World.vouched_publish hw fun _ _ h => (nomatch h), trivial⟩
  | list | status => exact ⟨hw, trivial⟩

theorem Prog.advance_vouched {p : Prog Reply} {w : World} (fail : Bool) (hp : p.Vouched P)
    (hw : w.Vouched P) : (p.advance fail w).1.Vouched P ∧ (p.advance fail w).2.Vouched P := by
  cases p with
  | call c next =>
    have h := Call.perform_vouched fail hp.1 hw
    exact ⟨h.1, hp.2 _ h.2⟩
  | ret | abort => exact ⟨hw, hp⟩

/-- A task run alone to its end: the world stays vouched for, and a returned manifest satisfies
`P`. -/
theorem Prog.Vouched.run {p : Prog Reply} {w : World} (hp : p.Vouched P) (hw : w.Vouched P)
    (fails : List Bool) :
    (p.run fails w).1.Vouched P ∧ ∀ r, (p.run fails w).2 = .done r → r.Vouched P := by
  induction p generalizing w fails with
  | ret r => exact ⟨hw, fun _ h => by cases h; exact hp⟩
  | abort => exact ⟨hw, fun _ h => nomatch h⟩
  | call c next ih =>
    have h := Call.perform_vouched (fails.headD false) hp.1 hw
    exact ih _ (hp.2 _ h.2) h.1 _

end Calls

/-! ## Each handler hands on only what it read or what passed the checks -/

section Handlers

open StoredManifest

variable {P : Manifest → Prop}

theorem publishUndeployed_vouched (l n : String) {failure reply : Reply} (hf : failure.Vouched P)
    (hr : reply.Vouched P) : (publishUndeployed l n failure reply).Vouched P :=
  ⟨trivial, fun a _ => by rcases a with _ | _; exacts [hf, hr]⟩

theorem deleteNotify_vouched (l n : String) (r : DeleteModelResponse) :
    (deleteNotify l n r).Vouched P := by
  unfold deleteNotify
  split
  · exact publishUndeployed_vouched _ _ trivial trivial
  · trivial

theorem undeployNotify_vouched (l n : String) (r : DeployModelResponse) :
    (undeployNotify l n r).Vouched P := by
  unfold undeployNotify
  split
  · exact publishUndeployed_vouched _ _ trivial trivial
  · trivial

theorem getManifestStatus_vouched {l n : String} {k : Option StatusInfo → Prog Reply}
    (hk : ∀ i, (k i).Vouched P) : (getManifestStatus l n k).Vouched P :=
  ⟨trivial, fun i _ => hk i⟩

theorem overlayStatus_vouched (l : String) (ms data : List ModelSummary) :
    (overlayStatus l ms data).Vouched P := by
  induction ms generalizing data with
  | nil => trivial
  | cons m ms ih => exact getManifestStatus_vouched fun i => by rcases i with _ | i <;> exact ih _

/-- `get_model` returns a version of the model it read. -/
theorem getModel_vouched (a : Option String) (l n : String) (p : Payload VersionRequest) :
    (getModel a l n p).Vouched P := by
  unfold getModel
  split
  · trivial
  refine ⟨trivial, fun ans hans => ?_⟩
  rcases ans with _ | _ | ⟨sm, rev⟩
  · trivial
  · trivial
  have hm := hans sm rev rfl
  dsimp only
  split
  · split
    · exact hm _ (getVersion_eq_some ‹_›).1
    · trivial
  · split
    · exact hm _ (mem_of_getCurrent ‹_›)
    · trivial

theorem listModels_vouched (a : Option String) (l : String) : (listModels a l).Vouched P :=
  ⟨trivial, fun ans _ => by rcases ans with _ | ms; exacts [trivial, overlayStatus_vouched ..]⟩

theorem listVersions_vouched (a : Option String) (l n : String) :
    (listVersions a l n).Vouched P :=
  ⟨trivial, fun ans _ => by rcases ans with _ | _ | _ <;> trivial⟩

theorem modelStatus_vouched (a : Option String) (l n : String) : (modelStatus a l n).Vouched P := by
  refine ⟨trivial, fun ans _ => ?_⟩
  rcases ans with _ | _ | ⟨sm, rev⟩
  · trivial
  · trivial
  dsimp only
  split
  · trivial
  · exact getManifestStatus_vouched fun _ => trivial

/-- `put_model` writes the model it read with one manifest added, and only a manifest that
passed the checks. -/
theorem putModel_vouched (checks : Checks) (a : Option String) (l : String)
    (parsed : Except String Manifest) (hput : ∀ m, parsed = .ok m → checks.Passes m → P m) :
    (putModel checks a l parsed).Vouched P := by
  rcases parsed with e | manifest
  · trivial
  simp only [putModel]
  split
  · trivial
  rename_i hv
  split
  · trivial
  rename_i hn
  refine ⟨trivial, fun ans hans => ?_⟩
  rcases ans with _ | found
  · trivial
  have hbase : (found.getD (default, 0)).1.All P := by
    rcases found with _ | ⟨sm, rev⟩
    · exact fun _ h => nomatch h
    · exact hans sm rev rfl
  dsimp only
  split
  · trivial
  rename_i hs
  rcases hadd : (found.getD (default, 0)).1.addVersion manifest with ⟨_ | _, cm'⟩
  · trivial
  obtain ⟨-, rfl⟩ := addVersion_eq_true hadd
  have hpass : checks.Passes manifest :=
    ⟨by simpa using hv, by simpa using hn, hs⟩
  refine ⟨fun m hm => ?_, fun res _ => by rcases res with _ | _ <;> trivial⟩
  rcases List.mem_append.mp hm with hm | hm
  · exact hbase m hm
  · exact List.mem_singleton.mp hm ▸ hput manifest rfl hpass

/-- `delete_model` of a version writes what is left of the model it read. -/
theorem deleteVersionOf_vouched (a : Option String) (l n v : String) :
    (deleteVersionOf a l n v).Vouched P := by
  refine ⟨trivial, fun ans hans => ?_⟩
  rcases ans with _ | _ | ⟨sm, rev⟩
  · exact deleteNotify_vouched ..
  · exact deleteNotify_vouched ..
  have hm : (sm.deleteVersion v).2.All P := fun m h =>
    hans sm rev rfl m (List.mem_filter.mp h).1
  dsimp only
  split_ifs
  · exact ⟨by split <;> exact hm, fun r _ => by rcases r with _ | _ <;> exact deleteNotify_vouched ..⟩
  · exact ⟨by split <;> exact hm, fun r _ => by rcases r with _ | _ <;> exact deleteNotify_vouched ..⟩
  · exact ⟨trivial, fun r _ => by rcases r with _ | _ <;> exact deleteNotify_vouched ..⟩
  · exact deleteNotify_vouched ..

theorem deleteModel_vouched (a : Option String) (l n : String) (p : Payload VersionRequest) :
    (deleteModel a l n p).Vouched P := by
  unfold deleteModel
  split
  · trivial
  split
  · exact deleteVersionOf_vouched ..
  · exact ⟨trivial, fun r _ => by rcases r with _ | _ <;> exact deleteNotify_vouched ..⟩

theorem undeployModel_vouched (a : Option String) (l n : String) (p : Payload Unit) :
    (undeployModel a l n p).Vouched P := by
  unfold undeployModel
  split
  · trivial
  refine ⟨trivial, fun ans hans => ?_⟩
  rcases ans with _ | _ | ⟨sm, rev⟩
  · trivial
  · trivial
  dsimp only
  rcases hu : sm.undeploy with ⟨_ | _, sm'⟩
  · exact undeployNotify_vouched ..
  · obtain rfl : sm.undeploy.2 = sm' := congrArg Prod.snd hu
    exact ⟨hans sm rev rfl, fun r _ => by rcases r with _ | _ <;> exact undeployNotify_vouched ..⟩

theorem resolveStaged_vouched {name : String} {manifests : StoredManifest} {v : Option String}
    {k : Manifest → Prog Reply} (hk : ∀ m, (k m).Vouched P) :
    (resolveStaged name manifests v k).Vouched P := by
  rcases resolveStaged_cases name manifests v with ⟨staged, h⟩ | ⟨p, hp | ⟨d, hp, -⟩, h⟩
  · exact h k ▸ hk staged
  · rw [h, hp]; trivial
  · rw [h, hp]; trivial

theorem collectProviderRefs_vouched (a : Option String) (l n : String) (ms : List ModelSummary)
    (refs : ProviderRefs) {k : ProviderRefs → Prog Reply} (hk : ∀ r, (k r).Vouched P) :
    (collectProviderRefs a l n ms refs k).Vouched P := by
  induction ms generalizing refs with
  | nil => exact hk refs
  | cons m ms ih =>
    unfold collectProviderRefs
    split
    · exact ⟨trivial, fun r _ => by rcases r with _ | _; exacts [trivial, ih _]⟩
    · exact ih refs

/-- `deploy_model` writes the model it read, pointed at a version, and publishes that version. -/
theorem deployAndNotify_vouched (a : Option String) (l n : String) (v : Option String)
    {manifests : StoredManifest} (rev : Nat) (hm : manifests.All P) :
    (deployAndNotify a l n v manifests rev).Vouched P := by
  unfold deployAndNotify
  rcases h : manifests.deploy v with ⟨_ | _, m'⟩
  · trivial
  obtain ⟨t, -, -, rfl⟩ := deploy_eq_true h
  dsimp only
  split
  · trivial
  · exact ⟨hm, fun _ _ => ⟨hm _ (getVersion_eq_some ‹_›).1,
      fun r _ => by rcases r with _ | _ <;> trivial⟩⟩

theorem deployModel_vouched (a : Option String) (l n : String) (p : Payload VersionRequest) :
    (deployModel a l n p).Vouched P := by
  unfold deployModel
  split
  · trivial
  refine ⟨trivial, fun ans hans => ?_⟩
  rcases ans with _ | _ | ⟨sm, rev⟩
  · trivial
  · trivial
  refine ⟨trivial, fun ls _ => ?_⟩
  rcases ls with _ | ls
  · trivial
  refine resolveStaged_vouched fun staged => collectProviderRefs_vouched _ _ _ _ _ fun refs => ?_
  dsimp only
  split
  · trivial
  · exact deployAndNotify_vouched _ _ _ _ _ (hans sm rev rfl)

theorem Request.handle_vouched (checks : Checks) (r : Request)
    (hput : ∀ a l m, r = .put a l (.ok m) → checks.Passes m → P m) :
    (r.handle checks).Vouched P := by
  cases r with
  | put a l parsed => exact putModel_vouched checks a l parsed fun m h => hput a l m (h ▸ rfl)
  | get => exact getModel_vouched ..
  | list => exact listModels_vouched ..
  | versions => exact listVersions_vouched ..
  | delete => exact deleteModel_vouched ..
  | deploy => exact deployModel_vouched ..
  | undeploy => exact undeployModel_vouched ..
  | status => exact modelStatus_vouched ..

end Handlers

/-! ## Every run keeps the world vouched for -/

namespace Sys

variable {P : Manifest → Prop}

/-- The world is vouched for and so is every task. -/
def Vouched (P : Manifest → Prop) (s : Sys) : Prop := s.world.Vouched P ∧ ∀ p ∈ s.tasks, p.Vouched P

theorem vouched_init (log : String → Option StatusInfo) : (init log).Vouched P :=
  ⟨⟨fun _ h => (nomatch h), fun _ _ h => (nomatch h)⟩, fun _ h => (nomatch h)⟩

theorem vouched_step (checks : Checks) {s : Sys} {e : Event}
    (hput : ∀ a l m, e = .arrive (.put a l (.ok m)) → checks.Passes m → P m) (h : s.Vouched P) :
    (s.step checks e).Vouched P := by
  cases e with
  | arrive r =>
    refine ⟨h.1, fun p hp => ?_⟩
    rcases List.mem_append.mp hp with hp | hp
    · exact h.2 p hp
    · rw [List.mem_singleton.mp hp]
      exact r.handle_vouched checks fun a l m hr => hput a l m (hr ▸ rfl)
  | advance i fail =>
    simp only [step]
    split
    · rename_i p hp
      obtain ⟨hw, hq⟩ := Prog.advance_vouched fail (h.2 p (List.get?_mem hp)) h.1
      refine ⟨hw, fun q hq' => ?_⟩
      rcases List.mem_or_eq_of_mem_set hq' with hq' | rfl
      · exact h.2 q hq'
      · exact hq
    · exact h

theorem vouched_run (checks : Checks) {s : Sys} {events : List Event}
    (hput : ∀ a l m, Event.arrive (.put a l (.ok m)) ∈ events → checks.Passes m → P m)
    (h : s.Vouched P) : (s.run checks events).Vouched P := by
  induction events generalizing s with
  | nil => exact h
  | cons e events ih =>
    exact ih (fun a l m he => hput a l m (List.mem_cons_of_mem _ he))
      (vouched_step checks (fun a l m he => hput a l m (he ▸ List.mem_cons_self _ _)) h)

end Sys

/-- Every manifest stored, published or returned came, unchanged, with a checked `put_model`. -/
theorem manifests_come_from_puts (checks : Checks) (log : String → Option StatusInfo)
    (events : List Event) :
    let s := (Sys.init log).run checks events
    let Put := fun m => checks.Passes m ∧ ∃ a l, Event.arrive (.put a l (.ok m)) ∈ events
    (∀ r ∈ s.world.store.rows, ∀ m ∈ r.model.manifests, Put m) ∧
      (∀ l m, Note.deployed l m ∈ s.world.notes → Put m) ∧
      ∀ p ∈ s.tasks, ∀ res msg m, p = .ret (.get ⟨res, msg, some m⟩) → Put m := by
  intro s Put
  have h : s.Vouched Put :=
    Sys.vouched_run checks (fun a l m he hm => ⟨hm, a, l, he⟩) (Sys.vouched_init log)
  refine ⟨h.1.store, h.1.notes, fun p hp res msg m he => ?_⟩
  have := h.2 p hp
  rw [he] at this
  exact this

end Wadm
