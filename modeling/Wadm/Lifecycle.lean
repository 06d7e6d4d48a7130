import Wadm.Handler

/-! # The lifecycle of a model

The lifecycle of §3 (`Transition`), its moves labelled by verb as in §4.7 (`Moves`), and the
phases of that table (`Phase`).
-/

namespace Wadm

open StoredManifest

/-! ## The machine -/

/-- What the lifecycle sees of a model: its versions in insertion order and its deployed
version. -/
def StoredManifest.life (sm : StoredManifest) : List String × Option String :=
  (sm.allVersions, sm.deployedVersion)

/-- What the lifecycle sees of a key: nothing, or the model stored under it. -/
def Store.lifecycle (s : Store) (k : Key) : Option (List String × Option String) :=
  (s.get k).map fun p => p.1.life

/-- The lifecycle of §3 at one key, and staying put. -/
inductive Transition : Option (List String × Option String) →
    Option (List String × Option String) → Prop
  | stay (x : Option (List String × Option String)) : Transition x x
  | create (v : String) : Transition none (some ([v], none))
  | putVersion (vs : List String) (d : Option String) (v : String) (h : v ∉ vs) :
      Transition (some (vs, d)) (some (vs ++ [v], d))
  | deploy (vs : List String) (d : Option String) (t : String) (h : t ∈ vs) :
      Transition (some (vs, d)) (some (vs, some t))
  | undeploy (vs : List String) (d : Option String) : Transition (some (vs, d)) (some (vs, none))
  | deleteVersion (vs : List String) (d : Option String) (v : String) (h : v ∈ vs)
      (hrest : vs.filter (· != v) ≠ []) :
      Transition (some (vs, d)) (some (vs.filter (· != v), if d = some v then none else d))
  | remove (x : List String × Option String) : Transition (some x) none

/-! ## Which verb takes which transition -/

/-- What a request may write, with the version it names: the verbs of the table of §4.7, and
`read` for the requests that write nothing. -/
inductive Verb where
  | put (version : String)
  | deploy (version : Option String)
  | undeploy
  | delete (version : Option String)
  | read
deriving DecidableEq

/-- The verb of a request whose payload decodes; one that does not decode writes nothing. -/
def Request.verb : Request → Verb
  | .put _ _ (.ok m) => .put m.version
  | .deploy _ _ _ p =>
    match p.orDefault ⟨none⟩ with
    | .ok req => .deploy req.version
    | .error _ => .read
  | .undeploy .. => .undeploy
  | .delete _ _ _ p =>
    match p.decode with
    | .ok req => .delete req.version
    | .error _ => .read
  | _ => .read

/-- The keys a request may write: its model's, and for a put also the untrimmed name of its
manifest, under which `set` files a model it creates. -/
def Request.keys : Request → List Key
  | .put a l (.ok m) => [⟨a, l, trim m.metadata.name⟩, ⟨a, l, m.metadata.name⟩]
  | .deploy a l n _ | .undeploy a l n _ | .delete a l n _ => [⟨a, l, n⟩]
  | _ => []

/-- The version a deploy aims at, read off the versions: the requested one, or the last one for
no version or `latest`. -/
def deployTargetOf (vs : List String) : Option String → Option String
  | some v => if v = latestVersion then vs.getLast? else some v
  | none => vs.getLast?

theorem deployTarget_eq (sm : StoredManifest) (version : Option String) :
    sm.deployTarget version = deployTargetOf sm.allVersions version := by
  cases version <;> simp [deployTarget, deployTargetOf, getCurrent, allVersions]

/-- The lifecycle with each transition labelled by the verb that takes it. -/
inductive Moves : Verb → Option (List String × Option String) →
    Option (List String × Option String) → Prop
  | stay (vb : Verb) (x : Option (List String × Option String)) : Moves vb x x
  | create (v : String) : Moves (.put v) none (some ([v], none))
  | putVersion (vs : List String) (d : Option String) (v : String) (h : v ∉ vs) :
      Moves (.put v) (some (vs, d)) (some (vs ++ [v], d))
  | deploy (version : Option String) (vs : List String) (d : Option String) (t : String)
      (ht : deployTargetOf vs version = some t) (h : t ∈ vs) :
      Moves (.deploy version) (some (vs, d)) (some (vs, some t))
  | undeploy (vs : List String) (d : Option String) :
      Moves .undeploy (some (vs, d)) (some (vs, none))
  | deleteVersion (vs : List String) (d : Option String) (v : String) (h : v ∈ vs)
      (hrest : vs.filter (· != v) ≠ []) :
      Moves (.delete (some v)) (some (vs, d))
        (some (vs.filter (· != v), if d = some v then none else d))
  | remove (version : Option String) (x : List String × Option String) :
      Moves (.delete version) (some x) none

/-- Forgetting the verb. -/
theorem Moves.transition {vb : Verb} {x y : Option (List String × Option String)}
    (h : Moves vb x y) : Transition x y := by
  cases h with
  | stay => exact .stay _
  | create v => exact .create v
  | putVersion vs d v h => exact .putVersion vs d v h
  | deploy _ vs d t _ h => exact .deploy vs d t h
  | undeploy vs d => exact .undeploy vs d
  | deleteVersion vs d v h hrest => exact .deleteVersion vs d v h hrest
  | remove _ x => exact .remove x

/-- Every verb but delete keeps the versions of a model as a prefix of its versions after. -/
theorem Moves.keeps_versions {vb : Verb} {x y : Option (List String × Option String)}
    (h : Moves vb x y) (hvb : ∀ version, vb ≠ .delete version) :
    ∀ p ∈ x, ∃ q ∈ y, p.1 <+: q.1 := by
  cases h with
  | stay => exact fun p hp => ⟨p, hp, List.prefix_refl _⟩
  | create => exact fun _ h => nomatch h
  | putVersion vs d v => exact fun p hp => ⟨_, rfl, by cases hp; exact List.prefix_append _ _⟩
  | deploy | undeploy => exact fun p hp => ⟨_, rfl, by cases hp; exact List.prefix_refl _⟩
  | deleteVersion | remove => exact absurd rfl (hvb _)

/-! ## Each operation of a stored model is a move -/

theorem Moves.of_addVersion {sm sm' : StoredManifest} {m : Manifest}
    (h : sm.addVersion m = (true, sm')) : Moves (.put m.version) (some sm.life) (some sm'.life) := by
  obtain ⟨hv, rfl⟩ := addVersion_eq_true h
  have hlife : (⟨sm.manifests ++ [m], sm.deployedVersion⟩ : StoredManifest).life =
      (sm.allVersions ++ [m.version], sm.deployedVersion) := by
    simp [life, allVersions]
  rw [hlife]
  exact .putVersion _ _ _ hv

/-- Put of a name with nothing stored creates an undeployed model. -/
theorem Moves.create_of_addVersion {sm' : StoredManifest} {m : Manifest}
    (h : (default : StoredManifest).addVersion m = (true, sm')) :
    Moves (.put m.version) none (some sm'.life) := by
  obtain ⟨-, rfl⟩ := addVersion_eq_true h
  exact .create m.version

theorem Moves.of_deploy {sm sm' : StoredManifest} {version : Option String}
    (h : sm.deploy version = (true, sm')) :
    Moves (.deploy version) (some sm.life) (some sm'.life) := by
  obtain ⟨t, ht, htm, rfl⟩ := deploy_eq_true h
  exact .deploy version _ _ t (deployTarget_eq sm version ▸ ht) htm

theorem Moves.of_undeploy (sm : StoredManifest) :
    Moves .undeploy (some sm.life) (some sm.undeploy.2.life) :=
  .undeploy _ _

/-- What `delete_model` stores after deleting a version of a model that keeps others. -/
theorem Moves.of_deleteVersion {sm : StoredManifest} {v : String} (h : v ∈ sm.allVersions)
    (hne : sm.manifests.filter (·.version != v) ≠ []) :
    Moves (.delete (some v)) (some sm.life) (some (⟨sm.manifests.filter (·.version != v),
      if sm.deployedVersion = some v then none else sm.deployedVersion⟩ : StoredManifest).life) := by
  have hvs : (sm.manifests.filter (·.version != v)).map (·.version) = sm.allVersions.filter (· != v) := by
    simp [allVersions, List.filter_map, Function.comp_def]
  simp only [life, allVersions_mk, hvs]
  exact .deleteVersion _ _ _ h (hvs ▸ mt List.map_eq_nil_iff.mp hne)

/-! ## The table of §4.7 -/

/-- The states of the table at the end of §4.7. -/
inductive Phase where
  | absent
  | undeployed
  | deployed
deriving DecidableEq

def Phase.of : Option (List String × Option String) → Phase
  | none => .absent
  | some (_, none) => .undeployed
  | some (_, some _) => .deployed

/-- The rows of the table that change the state. -/
inductive Phase.Edge : Phase → Phase → Prop
  | put : Edge .absent .undeployed
  | deploy : Edge .undeployed .deployed
  /-- Undeploy, or delete of the deployed version when others are left. -/
  | undeploy : Edge .deployed .undeployed
  /-- Delete of the whole model, or of its last version. -/
  | remove (p : Phase) (h : p ≠ .absent) : Edge p .absent

/-- Every transition keeps the state of the table or follows one of its rows. -/
theorem Transition.phase {x y : Option (List String × Option String)} (h : Transition x y) :
    Phase.of x = Phase.of y ∨ Phase.Edge (Phase.of x) (Phase.of y) := by
  cases h with
  | stay => exact .inl rfl
  | create => exact .inr .put
  | putVersion _ d => exact .inl (by cases d <;> rfl)
  | deploy _ d => exact by cases d; exacts [.inr .deploy, .inl rfl]
  | undeploy _ d => exact by cases d; exacts [.inl rfl, .inr .undeploy]
  | deleteVersion _ d v =>
    by_cases hd : d = some v
    · subst hd
      simp only [if_true]
      exact .inr .undeploy
    · rw [if_neg hd]
      exact .inl (by cases d <;> rfl)
  | remove x =>
    obtain ⟨_, _ | _⟩ := x
    exacts [.inr (.remove _ nofun), .inr (.remove _ nofun)]

end Wadm
