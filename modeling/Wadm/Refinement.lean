import Wadm.Lifecycle
import Wadm.System

/-! # The system refines the lifecycle

Each step of a task moves every key only as its request's verb allows, because `set` compares
revisions.
-/

namespace Wadm

open StoredManifest

/-! ## Which writes a task may make -/

/-- The row a `get` answer reads. -/
def Call.reads : (c : Call) → c.Answer → List Row
  | .get k, .ok (some (sm, rev)) => [⟨k, sm, rev⟩]
  | _, _ => []

theorem Call.mem_reads_get {reads : List Row} (k : Key) (sm : StoredManifest) (rev : Nat) :
    (⟨k, sm, rev⟩ : Row) ∈ reads ++ Call.reads (.get k) (.ok (some (sm, rev))) :=
  List.mem_append_right _ (List.mem_singleton_self _)

/-- The writes a task of verb `vb` and keys `ks` may make: a revision-checked `set` that creates a
model or moves a row it read along `vb`, and a `delete` if `vb` is one. -/
def Call.Allowed (vb : Verb) (ks : List Key) (reads : List Row) : Call → Prop
  | .set _ _ _ none => False
  | .set a l sm (some rev) =>
    (rev = 0 ∧ ⟨a, l, sm.name⟩ ∈ ks ∧ Moves vb none (some sm.life)) ∨
      ∃ r ∈ reads, r.revision = rev ∧
        (r.key = ⟨a, l, sm.name⟩ → r.key ∈ ks ∧ Moves vb (some r.model.life) (some sm.life))
  | .delete k => (∃ version, vb = .delete version) ∧ k ∈ ks
  | _ => True

/-- Whatever it is answered, the task makes only the calls its verb and keys allow, given the
rows it has read. -/
def Prog.Good (vb : Verb) (ks : List Key) : List Row → Prog α → Prop
  | _, .ret _ => True
  | _, .abort _ => True
  | reads, .call c next => c.Allowed vb ks reads ∧ ∀ a, Good vb ks (reads ++ c.reads a) (next a)

theorem Call.Allowed.mono {vb : Verb} {ks : List Key} {reads reads' : List Row}
    (hsub : reads ⊆ reads') {c : Call} (h : c.Allowed vb ks reads) : c.Allowed vb ks reads' := by
  cases c with
  | set a l sm e =>
    rcases e with _ | rev
    · exact h.elim
    · rcases h with h | ⟨r, hr, he⟩
      · exact .inl h
      · exact .inr ⟨r, hsub hr, he⟩
  | delete => exact h
  | get | list | status | deployed | undeployed => trivial

/-- A task that has read more may make the same calls. -/
theorem Prog.Good.mono {vb : Verb} {ks : List Key} {reads reads' : List Row}
    (hsub : reads ⊆ reads') {p : Prog α} (h : p.Good vb ks reads) : p.Good vb ks reads' := by
  induction p generalizing reads reads' with
  | ret | abort => trivial
  | call c next ih =>
    exact ⟨h.1.mono hsub, fun a => ih a
      (List.append_subset.mpr ⟨List.subset_append_of_subset_left _ hsub, List.subset_append_right _ _⟩)
      (h.2 a)⟩

/-! ## Each handler is good for its verb -/

section Handlers

variable {vb : Verb} {ks : List Key} {reads : List Row}

theorem publishUndeployed_good (l n : String) (failure reply : Reply) :
    (publishUndeployed l n failure reply).Good vb ks reads :=
  ⟨trivial, fun a => by rcases a with _ | _ <;> trivial⟩

theorem deleteNotify_good (l n : String) (r : DeleteModelResponse) :
    (deleteNotify l n r).Good vb ks reads := by
  unfold deleteNotify
  split
  · exact publishUndeployed_good ..
  · trivial

theorem undeployNotify_good (l n : String) (r : DeployModelResponse) :
    (undeployNotify l n r).Good vb ks reads := by
  unfold undeployNotify
  split
  · exact publishUndeployed_good ..
  · trivial

theorem overlayStatus_good (l : String) (ms data : List ModelSummary) :
    (overlayStatus l ms data).Good vb ks reads := by
  induction ms generalizing data reads with
  | nil => trivial
  | cons m ms ih => exact ⟨trivial, fun i => by rcases i with _ | i <;> exact ih _⟩

theorem getModel_good (a : Option String) (l n : String) (p : Payload VersionRequest) :
    (getModel a l n p).Good vb ks reads := by
  unfold getModel
  split
  · trivial
  refine ⟨trivial, fun ans => ?_⟩
  rcases ans with _ | _ | ⟨sm, rev⟩
  · trivial
  · trivial
  dsimp only
  split <;> split <;> trivial

theorem listModels_good (a : Option String) (l : String) : (listModels a l).Good vb ks reads :=
  ⟨trivial, fun ans => by rcases ans with _ | ms; trivial; exact overlayStatus_good ..⟩

theorem listVersions_good (a : Option String) (l n : String) :
    (listVersions a l n).Good vb ks reads :=
  ⟨trivial, fun ans => by rcases ans with _ | _ | _ <;> trivial⟩

theorem modelStatus_good (a : Option String) (l n : String) : (modelStatus a l n).Good vb ks reads := by
  refine ⟨trivial, fun ans => ?_⟩
  rcases ans with _ | _ | ⟨sm, rev⟩
  · trivial
  · trivial
  dsimp only
  split
  · trivial
  · exact ⟨trivial, fun _ => trivial⟩

/-- `put_model` writes at revision `0` what it adds to an absent model, and otherwise what it
adds to the model it read, at that model's revision. -/
theorem putModel_good (checks : Checks) (a : Option String) (l : String) (manifest : Manifest)
    (htrim : ⟨a, l, trim manifest.metadata.name⟩ ∈ ks) (hname : ⟨a, l, manifest.metadata.name⟩ ∈ ks) :
    (putModel checks a l (.ok manifest)).Good (.put manifest.version) ks reads := by
  simp only [putModel]
  split
  · trivial
  split
  · trivial
  refine ⟨trivial, fun ans => ?_⟩
  rcases ans with _ | _ | ⟨sm, rev⟩
  · trivial
  all_goals
    dsimp only [Option.getD_none, Option.getD_some]
    split
    · trivial
  · rcases hadd : (default : StoredManifest).addVersion manifest with ⟨_ | _, sm'⟩
    · trivial
    · have hkey : ⟨a, l, sm'.name⟩ ∈ ks := by
        obtain ⟨-, rfl⟩ := addVersion_eq_true hadd
        exact hname
      exact ⟨.inl ⟨rfl, hkey, Moves.create_of_addVersion hadd⟩,
        fun res => by rcases res with _ | _ <;> trivial⟩
  · rcases hadd : sm.addVersion manifest with ⟨_ | _, sm'⟩
    · trivial
    · exact ⟨.inr ⟨_, Call.mem_reads_get .., rfl, fun _ => ⟨htrim, Moves.of_addVersion hadd⟩⟩,
        fun res => by rcases res with _ | _ <;> trivial⟩

theorem deleteVersionOf_good {a : Option String} {l n : String} (v : String) (hk : ⟨a, l, n⟩ ∈ ks) :
    (deleteVersionOf a l n v).Good (.delete (some v)) ks reads := by
  refine ⟨trivial, fun ans => ?_⟩
  rcases ans with _ | _ | ⟨sm, rev⟩
  · exact deleteNotify_good ..
  · exact deleteNotify_good ..
  dsimp only
  rw [deleteVersion_undeploy_eq]
  split
  · rename_i h1
    simp only [Bool.and_eq_true, Bool.not_eq_true', isEmpty_eq, List.isEmpty_eq_false] at h1
    exact ⟨.inr ⟨_, Call.mem_reads_get .., rfl, fun _ =>
      ⟨hk, Moves.of_deleteVersion (deleteVersion_fst.mp h1.1) h1.2⟩⟩,
      fun res => by rcases res with _ | _ <;> exact deleteNotify_good ..⟩
  split
  · exact ⟨⟨⟨_, rfl⟩, hk⟩, fun res => by rcases res with _ | _ <;> exact deleteNotify_good ..⟩
  · exact deleteNotify_good ..

theorem deleteModel_good {a : Option String} {l n : String} {p : Payload VersionRequest}
    {req : VersionRequest} (hreq : p.decode = .ok req) (hk : ⟨a, l, n⟩ ∈ ks) :
    (deleteModel a l n p).Good (.delete req.version) ks reads := by
  simp only [deleteModel, hreq]
  rcases req with ⟨_ | v⟩
  · exact ⟨⟨⟨_, rfl⟩, hk⟩, fun res => by rcases res with _ | _ <;> exact deleteNotify_good ..⟩
  · exact deleteVersionOf_good v hk

/-- `undeploy_model` writes the model it read with no deployed version, at its revision. -/
theorem undeployModel_good {a : Option String} {l n : String} (p : Payload Unit)
    (hk : ⟨a, l, n⟩ ∈ ks) : (undeployModel a l n p).Good .undeploy ks reads := by
  unfold undeployModel
  split
  · trivial
  refine ⟨trivial, fun ans => ?_⟩
  rcases ans with _ | _ | ⟨sm, rev⟩
  · trivial
  · trivial
  dsimp only
  rcases hu : sm.undeploy with ⟨_ | _, sm'⟩
  · exact undeployNotify_good ..
  · obtain rfl : sm' = sm.undeploy.2 := by rw [hu]
    exact ⟨.inr ⟨_, Call.mem_reads_get .., rfl, fun _ => ⟨hk, Moves.of_undeploy sm⟩⟩,
      fun res => by rcases res with _ | _ <;> exact undeployNotify_good ..⟩

theorem resolveStaged_good {name : String} {manifests : StoredManifest} {v : Option String}
    {k : Manifest → Prog Reply} (hk : ∀ m, (k m).Good vb ks reads) :
    (resolveStaged name manifests v k).Good vb ks reads := by
  have hcur : (match manifests.getCurrent with
      | some m => k m
      | none => .abort emptyModelPanic).Good vb ks reads := by
    split
    · exact hk _
    · trivial
  unfold resolveStaged
  dsimp only
  split
  · split
    · exact hcur
    · split
      · exact hk _
      · trivial
  · exact hcur

theorem collectProviderRefs_good (a : Option String) (l n : String) (ms : List ModelSummary)
    (refs : ProviderRefs) {k : ProviderRefs → Prog Reply} (hk : ∀ r, (k r).Good vb ks reads) :
    (collectProviderRefs a l n ms refs k).Good vb ks reads := by
  induction ms generalizing refs reads with
  | nil => exact hk refs
  | cons m ms ih =>
    unfold collectProviderRefs
    split
    · refine ⟨trivial, fun ans => ?_⟩
      rcases ans with _ | _
      · trivial
      · exact ih _ fun r => (hk r).mono (List.subset_append_left _ _)
    · exact ih refs hk

/-- `deploy_model` writes the model it read with its deployed version set, at its revision. -/
theorem deployAndNotify_good {a : Option String} {l n : String} (v : Option String)
    {manifests : StoredManifest} {rev : Nat} (hk : ⟨a, l, n⟩ ∈ ks)
    (hr : ⟨⟨a, l, n⟩, manifests, rev⟩ ∈ reads) :
    (deployAndNotify a l n v manifests rev).Good (.deploy v) ks reads := by
  unfold deployAndNotify
  rcases h : manifests.deploy v with ⟨_ | _, m'⟩
  · trivial
  dsimp only
  split
  · trivial
  split
  · trivial
  exact ⟨.inr ⟨_, hr, rfl, fun _ => ⟨hk, Moves.of_deploy h⟩⟩,
    fun _ => ⟨trivial, fun r => by rcases r with _ | _ <;> trivial⟩⟩

theorem deployModel_good {a : Option String} {l n : String} {p : Payload VersionRequest}
    {req : VersionRequest} (hreq : p.orDefault ⟨none⟩ = .ok req) (hk : ⟨a, l, n⟩ ∈ ks) :
    (deployModel a l n p).Good (.deploy req.version) ks reads := by
  simp only [deployModel, hreq]
  refine ⟨trivial, fun ans => ?_⟩
  rcases ans with _ | _ | ⟨sm, rev⟩
  · trivial
  · trivial
  refine ⟨trivial, fun ls => ?_⟩
  rcases ls with _ | ls
  · trivial
  refine resolveStaged_good fun staged => collectProviderRefs_good _ _ _ _ _ fun refs => ?_
  dsimp only
  split
  · trivial
  · exact deployAndNotify_good _ hk (by simp [Call.reads])

theorem Request.handle_good (checks : Checks) (r : Request) :
    (r.handle checks).Good r.verb r.keys reads := by
  cases r with
  | put a l parsed =>
    rcases parsed with e | m
    · trivial
    · exact putModel_good _ _ _ _ (by simp [Request.keys]) (by simp [Request.keys])
  | get => exact getModel_good ..
  | list => exact listModels_good ..
  | versions => exact listVersions_good ..
  | delete a l n p =>
    rcases hp : p.decode with e | req
    · simp only [Request.handle, deleteModel, hp]
      trivial
    · simp only [Request.verb, hp]
      exact deleteModel_good hp (by simp [Request.keys])
  | deploy a l n p =>
    rcases hp : p.orDefault ⟨none⟩ with e | req
    · simp only [Request.handle, deployModel, hp]
      trivial
    · simp only [Request.verb, hp]
      exact deployModel_good hp (by simp [Request.keys])
  | undeploy a l n p => exact undeployModel_good p (by simp [Request.keys])
  | status => exact modelStatus_good ..

end Handlers

/-! ## One call moves every key along its verb's transitions -/

namespace Store

@[simp] theorem lifecycle_write_self (s : Store) (k : Key) (sm : StoredManifest) :
    (s.write k sm).lifecycle k = some sm.life := by
  simp [lifecycle, get_write_self]

theorem lifecycle_write_of_ne (s : Store) {k k' : Key} (sm : StoredManifest) (h : k' ≠ k) :
    (s.write k sm).lifecycle k' = s.lifecycle k' := by
  simp only [lifecycle, get_write_of_ne sm h]

@[simp] theorem lifecycle_delete_self (s : Store) (k : Key) : (s.delete k).lifecycle k = none := by
  simp [lifecycle, get_delete_self]

theorem lifecycle_delete_of_ne (s : Store) {k k' : Key} (h : k' ≠ k) :
    (s.delete k).lifecycle k' = s.lifecycle k' := by
  simp only [lifecycle, get_delete_of_ne h]

/-- An allowed `set` that succeeds moves every key along a transition of its verb: at revision
`0` it creates an absent key, and at the revision of a stamped row it replaces that row. -/
theorem set_moves {s s' : Store} (hs : s.Revisions) {vb : Verb} {ks : List Key}
    {reads : List Row} (hreads : ∀ r ∈ reads, s.Stamped r) {a : Option String} {l : String}
    {sm : StoredManifest} {e : Option Nat} (hc : (Call.set a l sm e).Allowed vb ks reads)
    (hset : s.set a l sm e = .ok s') (k : Key) : Moves vb (s.lifecycle k) (s'.lifecycle k) := by
  rcases e with _ | rev
  · exact hc.elim
  rcases hc with ⟨rfl, -, ht⟩ | ⟨r, hr, rfl, ht⟩
  · obtain ⟨hnone, rfl⟩ := hs.set_zero hset
    by_cases hk : k = ⟨a, l, sm.name⟩
    · subst hk
      rw [lifecycle_write_self]
      simpa only [lifecycle, hnone, Option.map_none'] using ht
    · rw [lifecycle_write_of_ne _ _ hk]
      exact .stay _ _
  · obtain ⟨hkey, hget, rfl⟩ := (hreads r hr).set_eq_ok hset
    by_cases hk : k = r.key
    · subst hk
      rw [lifecycle_write_self]
      simpa only [lifecycle, hget, Option.map_some'] using (ht hkey).2
    · rw [lifecycle_write_of_ne _ _ hk]
      exact .stay _ _

/-- An allowed `set` that succeeds changes no key outside the task's keys. -/
theorem set_frame {s s' : Store} (hs : s.Revisions) {vb : Verb} {ks : List Key}
    {reads : List Row} (hreads : ∀ r ∈ reads, s.Stamped r) {a : Option String} {l : String}
    {sm : StoredManifest} {e : Option Nat} (hc : (Call.set a l sm e).Allowed vb ks reads)
    (hset : s.set a l sm e = .ok s') {k : Key} (hk : k ∉ ks) : s'.lifecycle k = s.lifecycle k := by
  rcases e with _ | rev
  · exact hc.elim
  rcases hc with ⟨rfl, hmem, -⟩ | ⟨r, hr, rfl, ht⟩
  · obtain ⟨-, rfl⟩ := hs.set_zero hset
    exact lifecycle_write_of_ne _ _ fun he => hk (he ▸ hmem)
  · obtain ⟨hkey, -, rfl⟩ := (hreads r hr).set_eq_ok hset
    exact lifecycle_write_of_ne _ _ fun he => hk (he ▸ (ht hkey).1)

theorem delete_moves (s : Store) (version : Option String) (k0 k : Key) :
    Moves (.delete version) (s.lifecycle k) ((s.delete k0).lifecycle k) := by
  by_cases hk : k = k0
  · subst hk
    rw [lifecycle_delete_self]
    rcases s.lifecycle k with _ | x
    · exact .stay _ _
    · exact .remove version x
  · rw [lifecycle_delete_of_ne _ hk]
    exact .stay _ _

end Store

/-- A call leaves the store as it was, writes one key, or deletes one. -/
theorem Call.perform_store (c : Call) (fail : Bool) (w : World) :
    (c.perform fail w).1.store = w.store ∨
      (∃ k sm, (c.perform fail w).1.store = w.store.write k sm) ∨
      ∃ k, (c.perform fail w).1.store = w.store.delete k := by
  cases c with
  | set a l sm e =>
    simp only [Call.perform_set]
    split
    · exact .inl rfl
    · split
      · rename_i s' hset
        simp only [Store.set] at hset
        split at hset
        · cases hset
          exact .inr (.inl ⟨_, _, rfl⟩)
        · cases hset
      · exact .inl rfl
  | delete k =>
    simp only [Call.perform_delete]
    split
    · exact .inl rfl
    · exact .inr (.inr ⟨k, rfl⟩)
  | get | list | status | deployed | undeployed => exact .inl rfl

theorem Call.perform_revisions (c : Call) (fail : Bool) {w : World} (hs : w.store.Revisions) :
    (c.perform fail w).1.store.Revisions := by
  rcases c.perform_store fail w with h | ⟨k, sm, h⟩ | ⟨k, h⟩ <;> rw [h]
  · exact hs
  · exact hs.write k sm
  · exact hs.delete k

theorem Call.perform_stamped (c : Call) (fail : Bool) {w : World} {r : Row}
    (h : w.store.Stamped r) : (c.perform fail w).1.store.Stamped r := by
  rcases c.perform_store fail w with he | ⟨k, sm, he⟩ | ⟨k, he⟩ <;> rw [he]
  · exact h
  · exact h.write k sm
  · exact h.delete k

/-- What a `get` answers is stamped. -/
theorem Call.reads_stamped (c : Call) (fail : Bool) {w : World} (hs : w.store.Revisions) :
    ∀ r ∈ c.reads (c.perform fail w).2, (c.perform fail w).1.store.Stamped r := by
  cases c with
  | get k =>
    cases fail
    · rcases hg : w.store.get k with _ | ⟨sm, rev⟩
      · simp [hg, Call.reads]
      · simpa [hg, Call.reads] using hs.stamped_of_get hg
    · simp [Call.reads]
  | set | delete | list | status | deployed | undeployed => simp [Call.reads]

theorem Call.perform_moves {c : Call} {vb : Verb} {ks : List Key} {reads : List Row}
    (hc : c.Allowed vb ks reads) (fail : Bool) {w : World} (hs : w.store.Revisions)
    (hreads : ∀ r ∈ reads, w.store.Stamped r) (k : Key) :
    Moves vb (w.store.lifecycle k) ((c.perform fail w).1.store.lifecycle k) := by
  cases c with
  | set a l sm e =>
    simp only [Call.perform_set]
    split
    · exact .stay _ _
    · split
      · rename_i s' hset
        exact Store.set_moves hs hreads hc hset k
      · exact .stay _ _
  | delete k0 =>
    obtain ⟨⟨version, rfl⟩, -⟩ := hc
    simp only [Call.perform_delete]
    split
    · exact .stay _ _
    · exact Store.delete_moves _ version k0 k
  | get | list | status | deployed | undeployed => exact .stay _ _

theorem Call.perform_frame {c : Call} {vb : Verb} {ks : List Key} {reads : List Row}
    (hc : c.Allowed vb ks reads) (fail : Bool) {w : World} (hs : w.store.Revisions)
    (hreads : ∀ r ∈ reads, w.store.Stamped r) {k : Key} (hk : k ∉ ks) :
    (c.perform fail w).1.store.lifecycle k = w.store.lifecycle k := by
  cases c with
  | set a l sm e =>
    simp only [Call.perform_set]
    split
    · rfl
    · split
      · rename_i s' hset
        exact Store.set_frame hs hreads hc hset hk
      · rfl
  | delete k0 =>
    simp only [Call.perform_delete]
    split
    · rfl
    · exact Store.lifecycle_delete_of_ne _ fun he => hk (he ▸ hc.2)
  | get | list | status | deployed | undeployed => rfl

/-! ## One step of a task -/

/-- One step of a good task keeps the store's revisions and every stamp, and leaves a good task
whose reads are stamped. -/
theorem Prog.Good.advance {p : Prog α} {vb : Verb} {ks : List Key} {reads : List Row}
    (hp : p.Good vb ks reads)
    (fail : Bool) {w : World} (hs : w.store.Revisions) (hreads : ∀ r ∈ reads, w.store.Stamped r) :
    (p.advance fail w).1.store.Revisions ∧
      (∀ r, w.store.Stamped r → (p.advance fail w).1.store.Stamped r) ∧
      ∃ reads', (∀ r ∈ reads', (p.advance fail w).1.store.Stamped r) ∧
        (p.advance fail w).2.Good vb ks reads' := by
  cases p with
  | ret | abort => exact ⟨hs, fun _ h => h, reads, hreads, hp⟩
  | call c next =>
    refine ⟨c.perform_revisions fail hs, fun r h => c.perform_stamped fail h,
      reads ++ c.reads (c.perform fail w).2, fun r hr => ?_, hp.2 _⟩
    rcases List.mem_append.mp hr with hr | hr
    · exact c.perform_stamped fail (hreads r hr)
    · exact c.reads_stamped fail hs r hr

theorem Prog.Good.advance_moves {p : Prog α} {vb : Verb} {ks : List Key} {reads : List Row}
    (hp : p.Good vb ks reads) (fail : Bool) {w : World} (hs : w.store.Revisions)
    (hreads : ∀ r ∈ reads, w.store.Stamped r) (k : Key) :
    Moves vb (w.store.lifecycle k) ((p.advance fail w).1.store.lifecycle k) := by
  cases p with
  | ret | abort => exact .stay _ _
  | call c next => exact Call.perform_moves hp.1 fail hs hreads k

theorem Prog.Good.advance_frame {p : Prog α} {vb : Verb} {ks : List Key} {reads : List Row}
    (hp : p.Good vb ks reads) (fail : Bool) {w : World} (hs : w.store.Revisions)
    (hreads : ∀ r ∈ reads, w.store.Stamped r) {k : Key} (hk : k ∉ ks) :
    (p.advance fail w).1.store.lifecycle k = w.store.lifecycle k := by
  cases p with
  | ret | abort => rfl
  | call c next => exact Call.perform_frame hp.1 fail hs hreads hk

/-! ## Every run -/

theorem getElem?_append_singleton_eq_some {l : List α} {a x : α} {i : Nat}
    (h : (l ++ [a])[i]? = some x) : l[i]? = some x ∨ (i = l.length ∧ x = a) := by
  rcases Nat.lt_or_ge i l.length with hi | hi
  · rw [List.getElem?_append_left hi] at h
    exact .inl h
  · rw [List.getElem?_append_right hi] at h
    rcases hk : i - l.length with _ | j <;> rw [hk] at h
    · exact .inr ⟨by omega, (Option.some.inj h).symm⟩
    · simp at h

namespace Sys

/-- Every revision names one row, and task `i` makes only the calls its request `rs[i]` allows. -/
def Lawful (s : Sys) (rs : List Request) : Prop :=
  s.world.store.Revisions ∧ rs.length = s.tasks.length ∧
    ∀ (i : Nat) (p : Prog Reply) (r : Request), s.tasks[i]? = some p → rs[i]? = some r →
      ∃ reads, (∀ x ∈ reads, s.world.store.Stamped x) ∧ p.Good r.verb r.keys reads

theorem lawful_init (log : String → Option StatusInfo) : (init log).Lawful [] :=
  ⟨Store.revisions_empty, rfl, fun _ _ _ h => by simp [init] at h⟩

theorem lawful_arrive (checks : Checks) {s : Sys} {rs : List Request} (r : Request)
    (h : s.Lawful rs) : (s.step checks (.arrive r)).Lawful (rs ++ [r]) := by
  refine ⟨h.1, by simp [step, h.2.1], fun i p r' hp hr' => ?_⟩
  rcases getElem?_append_singleton_eq_some hp with hp | ⟨rfl, rfl⟩
  · have hi : i < rs.length := h.2.1 ▸ (List.getElem?_eq_some_iff.mp hp).1
    rw [List.getElem?_append_left hi] at hr'
    exact h.2.2 i p r' hp hr'
  · rw [← h.2.1, List.getElem?_concat_length] at hr'
    cases hr'
    exact ⟨[], fun _ h => (nomatch h), r.handle_good checks⟩

theorem lawful_advance (checks : Checks) {s : Sys} {rs : List Request} (i : Nat) (fail : Bool)
    (h : s.Lawful rs) : (s.step checks (.advance i fail)).Lawful rs := by
  simp only [step, List.get?_eq_getElem?]
  split
  · rename_i p hp
    have hi : i < s.tasks.length := (List.getElem?_eq_some_iff.mp hp).1
    obtain ⟨r, hr⟩ : ∃ r, rs[i]? = some r := Option.isSome_iff_exists.mp (by simp [h.2.1, hi])
    obtain ⟨reads, hreads, hgood⟩ := h.2.2 i p r hp hr
    obtain ⟨hs, hkeep, reads', hreads', hgood'⟩ := hgood.advance fail h.1 hreads
    refine ⟨hs, by simp [h.2.1], fun j q r' hq hr' => ?_⟩
    by_cases hij : i = j
    · subst hij
      rw [List.getElem?_set_self hi] at hq
      cases hq
      rw [hr] at hr'
      cases hr'
      exact ⟨reads', hreads', hgood'⟩
    · rw [List.getElem?_set_ne hij] at hq
      obtain ⟨rq, hrq, hgq⟩ := h.2.2 j q r' hq hr'
      exact ⟨rq, fun x hx => hkeep x (hrq x hx), hgq⟩
  · exact h

theorem lawful_run (checks : Checks) {s : Sys} {rs : List Request} (events : List Event)
    (h : s.Lawful rs) : (s.run checks events).Lawful (rs ++ arrivals events) := by
  induction events generalizing s rs with
  | nil => simpa [arrivals] using h
  | cons e events ih =>
    cases e with
    | arrive r => simpa [arrivals] using ih (lawful_arrive checks r h)
    | advance i fail => exact ih (lawful_advance checks i fail h)

/-- From a lawful state, a step of task `i` moves every key along a transition of its
request's verb. -/
theorem step_moves (checks : Checks) {s : Sys} {rs : List Request} (h : s.Lawful rs) (i : Nat)
    (fail : Bool) {r : Request} (hr : rs[i]? = some r) (k : Key) :
    Moves r.verb (s.world.store.lifecycle k)
      ((s.step checks (.advance i fail)).world.store.lifecycle k) := by
  simp only [step, List.get?_eq_getElem?]
  split
  · rename_i p hp
    obtain ⟨reads, hreads, hgood⟩ := h.2.2 i p r hp hr
    exact hgood.advance_moves fail h.1 hreads k
  · exact .stay _ _

/-- From a lawful state, a step of task `i` changes no key its request does not name. -/
theorem step_frame (checks : Checks) {s : Sys} {rs : List Request} (h : s.Lawful rs) (i : Nat)
    (fail : Bool) {r : Request} (hr : rs[i]? = some r) {k : Key} (hk : k ∉ r.keys) :
    (s.step checks (.advance i fail)).world.store.lifecycle k = s.world.store.lifecycle k := by
  simp only [step, List.get?_eq_getElem?]
  split
  · rename_i p hp
    obtain ⟨reads, hreads, hgood⟩ := h.2.2 i p r hp hr
    exact hgood.advance_frame fail h.1 hreads hk
  · rfl

/-- From a lawful state, every step moves every key along `Transition`. -/
theorem step_transition (checks : Checks) {s : Sys} {rs : List Request} (h : s.Lawful rs)
    (e : Event) (k : Key) :
    Transition (s.world.store.lifecycle k) ((s.step checks e).world.store.lifecycle k) := by
  cases e with
  | arrive r => exact .stay _
  | advance i fail =>
    rcases hr : rs[i]? with _ | r
    · have hnone : s.tasks.get? i = none := by
        rw [List.get?_eq_getElem?, List.getElem?_eq_none_iff, ← h.2.1]
        exact List.getElem?_eq_none_iff.mp hr
      simp only [step, hnone]
      exact .stay _
    · exact (step_moves checks h i fail hr k).transition

end Sys

/-- In every run from an empty store, whatever requests arrive, however their calls interleave
and whichever calls fail, the next step moves every key along the lifecycle of §3. -/
theorem lifecycle_transitions (checks : Checks) (log : String → Option StatusInfo)
    (events : List Event) (e : Event) (k : Key) :
    let s := (Sys.init log).run checks events
    Transition (s.world.store.lifecycle k) ((s.step checks e).world.store.lifecycle k) :=
  Sys.step_transition checks (Sys.lawful_run checks events (Sys.lawful_init log)) e k

/-- In every run, a step of the task of the `i`-th request moves every key only as its verb asks. -/
theorem request_moves (checks : Checks) (log : String → Option StatusInfo) (events : List Event)
    (i : Nat) (r : Request) (hr : (arrivals events)[i]? = some r) (fail : Bool) (k : Key) :
    let s := (Sys.init log).run checks events
    Moves r.verb (s.world.store.lifecycle k)
      ((s.step checks (.advance i fail)).world.store.lifecycle k) :=
  Sys.step_moves checks (Sys.lawful_run checks events (Sys.lawful_init log)) i fail
    (by simpa using hr) k

/-- One put request that has made its `get`: its next step is its `set`. -/
def onePut : List Event :=
  [.arrive (.put none "default" (.ok ⟨⟨"app", [], []⟩, "v1", []⟩)), .advance 0 false]

theorem request_moves_onePut :
    (arrivals onePut)[0]? = some (.put none "default" (.ok ⟨⟨"app", [], []⟩, "v1", []⟩)) ∧
      Moves (.put "v1") (((Sys.init fun _ => none).run Checks.acceptAll onePut).world.store.lifecycle
          ⟨none, "default", "app"⟩)
        ((((Sys.init fun _ => none).run Checks.acceptAll onePut).step Checks.acceptAll
          (.advance 0 false)).world.store.lifecycle ⟨none, "default", "app"⟩) :=
  ⟨rfl, request_moves Checks.acceptAll (fun _ => none) onePut 0 _ rfl false _⟩

/-- In every run, a step of the task of the `i`-th request leaves every key it does not name as it
was. -/
theorem request_frame (checks : Checks) (log : String → Option StatusInfo) (events : List Event)
    (i : Nat) (r : Request) (hr : (arrivals events)[i]? = some r) (fail : Bool) (k : Key)
    (hk : k ∉ r.keys) :
    let s := (Sys.init log).run checks events
    (s.step checks (.advance i fail)).world.store.lifecycle k = s.world.store.lifecycle k :=
  Sys.step_frame checks (Sys.lawful_run checks events (Sys.lawful_init log)) i fail
    (by simpa using hr) hk

theorem request_frame_onePut :
    (arrivals onePut)[0]? = some (.put none "default" (.ok ⟨⟨"app", [], []⟩, "v1", []⟩)) ∧
      (⟨none, "staging", "app"⟩ : Key) ∉
        (Request.put none "default" (.ok ⟨⟨"app", [], []⟩, "v1", []⟩)).keys ∧
      (((Sys.init fun _ => none).run Checks.acceptAll onePut).step Checks.acceptAll
          (.advance 0 false)).world.store.lifecycle ⟨none, "staging", "app"⟩ =
        ((Sys.init fun _ => none).run Checks.acceptAll onePut).world.store.lifecycle
          ⟨none, "staging", "app"⟩ :=
  have hk : (⟨none, "staging", "app"⟩ : Key) ∉
      (Request.put none "default" (.ok ⟨⟨"app", [], []⟩, "v1", []⟩)).keys := by
    simp [Request.keys]
  ⟨rfl, hk, request_frame Checks.acceptAll (fun _ => none) onePut 0 _ rfl false _ hk⟩

/-- In every run from an empty store, every step keeps each key's state in the table of §4.7
or follows one of its rows; in particular no model is deployed in the step that creates it. -/
theorem phase_transitions (checks : Checks) (log : String → Option StatusInfo)
    (events : List Event) (e : Event) (k : Key) :
    let s := (Sys.init log).run checks events
    Phase.of (s.world.store.lifecycle k) = Phase.of ((s.step checks e).world.store.lifecycle k) ∨
      Phase.Edge (Phase.of (s.world.store.lifecycle k))
        (Phase.of ((s.step checks e).world.store.lifecycle k)) :=
  (Sys.step_transition checks (Sys.lawful_run checks events (Sys.lawful_init log)) e k).phase

end Wadm
