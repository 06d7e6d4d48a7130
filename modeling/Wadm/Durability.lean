import Wadm.Refinement

/-! # Acknowledged puts are kept

In every run from an empty store, the version of an acknowledged `put_model` stays stored under
one of the put's keys for as long as no `delete_model` of the model arrives.
-/

namespace Wadm

open StoredManifest

/-- Version `v` is stored under one of `ks`. -/
def Store.StoresVersion (s : Store) (v : String) (ks : List Key) : Prop :=
  ∃ k ∈ ks, ∃ x ∈ s.lifecycle k, v ∈ x.1

/-- The call stored a model holding version `v` under one of `ks`: a `set` that succeeded. -/
def Call.Stores (v : String) (ks : List Key) : (c : Call) → c.Answer → Prop
  | .set a l sm _, .ok () => v ∈ sm.allVersions ∧ ⟨a, l, sm.name⟩ ∈ ks
  | _, _ => False

/-- The task acknowledges a put only right after a call that stored version `v` under one of
`ks`. -/
def Prog.AcksStored (v : String) (ks : List Key) : Prog Reply → Prop
  | .ret r => ∀ resp, r ≠ .put resp
  | .abort _ => True
  | .call c next => ∀ a, (next a).AcksStored v ks ∨ c.Stores v ks a

/-! ## One call -/

theorem Call.perform_stores {c : Call} {fail : Bool} {w : World} {v : String} {ks : List Key}
    (h : c.Stores v ks (c.perform fail w).2) : (c.perform fail w).1.store.StoresVersion v ks := by
  cases c with
  | set a l sm e =>
    cases fail
    · rcases hset : w.store.set a l sm e with err | s
      · simp only [Call.perform_set, hset, Bool.false_eq_true, if_false] at h
        exact h.elim
      · simp only [Call.perform_set, hset, Bool.false_eq_true, if_false] at h ⊢
        obtain rfl := Store.set_eq_ok ⟨a, l, sm.name⟩ hset rfl
        exact ⟨_, h.2, sm.life, by simp, h.1⟩
    · exact h.elim
  | get | delete | list | status | deployed | undeployed => exact h.elim

/-- A step of a task that has not acknowledged: it still has not, or it has just stored the
version. -/
theorem Prog.AcksStored.advance {p : Prog Reply} {v : String} {ks : List Key}
    (hp : p.AcksStored v ks) (fail : Bool) (w : World) :
    (p.advance fail w).2.AcksStored v ks ∨ (p.advance fail w).1.store.StoresVersion v ks := by
  cases p with
  | call c next => exact (hp _).imp id Call.perform_stores
  | ret | abort => exact .inl hp

/-- `put_model` writes the model with its version appended, which is named by the manifest. -/
theorem putModel_acksStored (checks : Checks) (a : Option String) (l : String) (m : Manifest) :
    (putModel checks a l (.ok m)).AcksStored m.version (Request.put a l (.ok m)).keys := by
  simp only [putModel]
  split
  · exact nofun
  split
  · exact nofun
  intro ans
  left
  rcases ans with _ | found
  · exact nofun
  dsimp only
  split
  · exact nofun
  rcases hadd : (found.getD (default, 0)).1.addVersion m with ⟨_ | _, cm'⟩
  · exact nofun
  intro res
  rcases res with _ | ⟨⟩
  · exact .inl nofun
  obtain ⟨-, rfl⟩ := addVersion_eq_true hadd
  exact .inr ⟨by simp [allVersions], by simp [Request.keys]⟩

/-! ## Every run -/

namespace Sys

variable {checks : Checks} {i : Nat} {a : Option String} {l : String} {m : Manifest}

/-- Task `i`, once it serves the put of `m`, acknowledges only after storing its version, or the
version is stored under one of the put's keys. -/
def KeepsPut (i : Nat) (a : Option String) (l : String) (m : Manifest) (s : Sys)
    (rs : List Request) : Prop :=
  s.Lawful rs ∧ ∀ p, s.tasks[i]? = some p → rs[i]? = some (.put a l (.ok m)) →
    p.AcksStored m.version (Request.put a l (.ok m)).keys ∨
      s.world.store.StoresVersion m.version (Request.put a l (.ok m)).keys

theorem keepsPut_init (log : String → Option StatusInfo) : (init log).KeepsPut i a l m [] :=
  ⟨lawful_init log, fun _ hp => by simp [init] at hp⟩

/-- A step of a task whose request is not a delete of the model keeps a stored version. -/
theorem storesVersion_step {s : Sys} {rs : List Request} (h : s.Lawful rs) {v : String}
    {ks : List Key} (j : Nat) (fail : Bool)
    (hdel : ∀ r, rs[j]? = some r → ∀ version, r.verb = .delete version → ∀ k ∈ ks, k ∉ r.keys)
    (hs : s.world.store.StoresVersion v ks) :
    (s.step checks (.advance j fail)).world.store.StoresVersion v ks := by
  obtain ⟨k, hk, x, hx, hv⟩ := hs
  refine ⟨k, hk, ?_⟩
  rcases hr : rs[j]? with _ | r
  · have hj : s.tasks[j]? = none := by
      rw [List.getElem?_eq_none_iff, ← h.2.1]
      exact List.getElem?_eq_none_iff.mp hr
    rw [step_advance_of_none fail hj]
    exact ⟨x, hx, hv⟩
  by_cases hd : ∃ version, r.verb = .delete version
  · obtain ⟨version, hd⟩ := hd
    rw [step_frame checks h j fail hr (hdel r hr version hd k hk)]
    exact ⟨x, hx, hv⟩
  · obtain ⟨y, hy, hpre⟩ :=
      (step_moves checks h j fail hr k).keeps_versions (fun version he => hd ⟨version, he⟩) x hx
    exact ⟨y, hy, hpre.subset hv⟩

theorem keepsPut_arrive {s : Sys} {rs : List Request} (r : Request) (h : s.KeepsPut i a l m rs) :
    (s.step checks (.arrive r)).KeepsPut i a l m (rs ++ [r]) := by
  refine ⟨lawful_arrive checks r h.1, fun p hp hr => ?_⟩
  rcases getElem?_append_singleton_eq_some hp with hp | ⟨hi, rfl⟩
  · have hi : i < rs.length := h.1.2.1 ▸ (List.getElem?_eq_some_iff.mp hp).1
    rw [List.getElem?_append_left hi] at hr
    exact h.2 p hp hr
  · rw [hi, ← h.1.2.1, List.getElem?_concat_length, Option.some.injEq] at hr
    subst hr
    exact .inl (putModel_acksStored checks a l m)

theorem keepsPut_advance {s : Sys} {rs : List Request} (j : Nat) (fail : Bool)
    (h : s.KeepsPut i a l m rs)
    (hdel : ∀ r, rs[j]? = some r → ∀ version, r.verb = .delete version →
      ∀ k ∈ (Request.put a l (.ok m)).keys, k ∉ r.keys) :
    (s.step checks (.advance j fail)).KeepsPut i a l m rs := by
  have hl := lawful_advance checks j fail h.1
  have hs : s.world.store.StoresVersion m.version (Request.put a l (.ok m)).keys →
      (s.step checks (.advance j fail)).world.store.StoresVersion m.version
        (Request.put a l (.ok m)).keys :=
    storesVersion_step h.1 j fail hdel
  rcases hj : s.tasks[j]? with _ | pj
  · rw [step_advance_of_none fail hj]
    exact h
  rw [step_advance_of_some fail hj] at hl hs ⊢
  refine ⟨hl, fun p hp hr => ?_⟩
  by_cases hij : j = i
  · subst hij
    rw [List.getElem?_set_self (List.getElem?_eq_some_iff.mp hj).1, Option.some.injEq] at hp
    subst hp
    rcases h.2 pj hj hr with hacks | hstored
    · exact hacks.advance fail s.world
    · exact .inr (hs hstored)
  · rw [List.getElem?_set_ne hij] at hp
    exact (h.2 p hp hr).imp_right hs

theorem keepsPut_run {s : Sys} {rs : List Request} (events : List Event)
    (h : s.KeepsPut i a l m rs)
    (hdel : ∀ r ∈ rs ++ arrivals events, ∀ version, r.verb = .delete version →
      ∀ k ∈ (Request.put a l (.ok m)).keys, k ∉ r.keys) :
    (s.run checks events).KeepsPut i a l m (rs ++ arrivals events) := by
  induction events generalizing s rs with
  | nil => simpa [arrivals] using h
  | cons e events ih =>
    cases e with
    | arrive r =>
      simpa [arrivals] using ih (keepsPut_arrive r h) (by simpa [arrivals] using hdel)
    | advance j fail =>
      exact ih (keepsPut_advance j fail h fun r hr =>
        hdel r (List.mem_append_left _ (List.getElem?_mem hr))) hdel

end Sys

/-- An acknowledged put's version stays stored under one of its keys until a delete of one arrives. -/
theorem acknowledged_put_kept (checks : Checks) (log : String → Option StatusInfo)
    (events : List Event) (i : Nat) (a : Option String) (l : String) (m : Manifest)
    (hr : (arrivals events)[i]? = some (.put a l (.ok m)))
    (hdel : ∀ r ∈ arrivals events, ∀ version, r.verb = .delete version →
      ∀ k ∈ (Request.put a l (.ok m)).keys, k ∉ r.keys)
    (resp : PutModelResponse)
    (hack : (((Sys.init log).run checks events).tasks.map Prog.reply?)[i]? = some (some (.put resp))) :
    ∃ k ∈ (Request.put a l (.ok m)).keys,
      ∃ x ∈ ((Sys.init log).run checks events).world.store.lifecycle k, m.version ∈ x.1 := by
  have h : ((Sys.init log).run checks events).KeepsPut i a l m ([] ++ arrivals events) :=
    Sys.keepsPut_run events (Sys.keepsPut_init log) (by simpa using hdel)
  rw [List.getElem?_map, Option.map_eq_some'] at hack
  obtain ⟨p, hp, hreply⟩ := hack
  cases p with
  | ret r =>
    cases hreply
    exact (h.2 _ hp (by simpa using hr)).resolve_left fun hacks => hacks resp rfl
  | abort | call => cases hreply

/-- A put of `v1` of `app`, run to its end. -/
def ackedPut : List Event :=
  [.arrive (.put none "default" (.ok ⟨⟨"app", [], []⟩, "v1", []⟩)), .advance 0 false,
    .advance 0 false]

theorem acknowledged_put_kept_ackedPut :
    (arrivals ackedPut)[0]? = some (.put none "default" (.ok ⟨⟨"app", [], []⟩, "v1", []⟩)) ∧
      (∀ r ∈ arrivals ackedPut, ∀ version, r.verb = .delete version →
        ∀ k ∈ (Request.put none "default" (.ok ⟨⟨"app", [], []⟩, "v1", []⟩)).keys, k ∉ r.keys) ∧
      (((Sys.init fun _ => none).run Checks.acceptAll ackedPut).tasks.map Prog.reply?)[0]? =
        some (some (.put ⟨.created, 1, "v1", "Successfully put manifest app v1", "app"⟩)) ∧
      ∃ k ∈ (Request.put none "default" (.ok ⟨⟨"app", [], []⟩, "v1", []⟩)).keys,
        ∃ x ∈ ((Sys.init fun _ => none).run Checks.acceptAll ackedPut).world.store.lifecycle k,
          "v1" ∈ x.1 :=
  have hr : (arrivals ackedPut)[0]? =
      some (.put none "default" (.ok ⟨⟨"app", [], []⟩, "v1", []⟩)) := rfl
  have hdel : ∀ r ∈ arrivals ackedPut, ∀ version, r.verb = .delete version →
      ∀ k ∈ (Request.put none "default" (.ok ⟨⟨"app", [], []⟩, "v1", []⟩)).keys, k ∉ r.keys := by
    simp [ackedPut, arrivals, Request.verb]
  have hack : (((Sys.init fun _ => none).run Checks.acceptAll ackedPut).tasks.map Prog.reply?)[0]? =
      some (some (.put ⟨.created, 1, "v1", "Successfully put manifest app v1", "app"⟩)) := by
    decide
  ⟨hr, hdel, hack, acknowledged_put_kept _ _ _ 0 _ _ _ hr hdel _ hack⟩

end Wadm
