import Wadm.System
import Mathlib.Data.List.Permutation

/-! # Requests on one key, one at a time

A run is linearizable when some order of its requests, served one at a time, gives its replies
and its store.
-/

namespace Wadm

/-- Runs the requests one at a time, each to its end with every call succeeding: the world
after them and the outcome of each. -/
def seqRun (checks : Checks) : World → List Request → World × List (Outcome Reply)
  | w, [] => (w, [])
  | w, r :: rs =>
    let first := (r.handle checks).run [] w
    let rest := seqRun checks first.1 rs
    (rest.1, first.2 :: rest.2)

/-- Whether a reply reports a storage error. -/
def Reply.isStorageError : Reply → Bool
  | .error msg => msg == storageError
  | .delete r => r.message == storageError
  | .deploy r => r.message == storageError
  | _ => false

/-- Some order of the requests that did not fail on the store, run one at a time from `w`, gives
the model that the concurrent run left under `k` in `final`, and each request its reply. -/
def Linearizable (checks : Checks) (w : World) (k : Key) (done : List (Request × Reply))
    (final : Store) : Prop :=
  ∃ order : List (Request × Reply), order.Perm (done.filter fun e => !e.2.isStorageError) ∧
    ((seqRun checks w (order.map Prod.fst)).1.store.get k).map Prod.fst =
      (final.get k).map Prod.fst ∧
    (seqRun checks w (order.map Prod.fst)).2 = order.map fun e => .done e.2

/-- One order of the requests that did not fail on the store, run one at a time from `w`, leaves
the world `final`, every key at once, and gives each request its reply. -/
def LinearizableRun (checks : Checks) (w : World) (done : List (Request × Reply)) (final : World) :
    Prop :=
  ∃ order : List (Request × Reply), order.Perm (done.filter fun e => !e.2.isStorageError) ∧
    seqRun checks w (order.map Prod.fst) = (final, order.map fun e => .done e.2)

theorem linearizable_iff {checks : Checks} {w : World} {k : Key} {done : List (Request × Reply)}
    {final : Store} :
    Linearizable checks w k done final ↔
      ∃ order ∈ (done.filter fun e => !e.2.isStorageError).permutations',
        ((seqRun checks w (order.map Prod.fst)).1.store.get k).map Prod.fst =
          (final.get k).map Prod.fst ∧
        (seqRun checks w (order.map Prod.fst)).2 = order.map fun e => .done e.2 := by
  simp only [Linearizable, List.mem_permutations']

/-- A sequential run reads the checks only through the requests it runs. -/
theorem seqRun_congr {c : Checks} (c' : Checks) :
    ∀ (w : World) (rs : List Request), (∀ r ∈ rs, r.handle c = r.handle c') →
      seqRun c w rs = seqRun c' w rs
  | _, [], _ => rfl
  | w, r :: rs, h => by
    simp only [seqRun, h r (List.mem_cons_self _ _),
      seqRun_congr c' _ rs fun r' hr => h r' (List.mem_cons_of_mem _ hr)]

theorem linearizable_congr {c : Checks} (c' : Checks) {w : World} {k : Key}
    {done : List (Request × Reply)} {final : Store} (h : ∀ e ∈ done, e.1.handle c = e.1.handle c') :
    Linearizable c w k done final ↔ Linearizable c' w k done final := by
  have hperm : ∀ order : List (Request × Reply),
      order.Perm (done.filter fun e => !e.2.isStorageError) →
        seqRun c w (order.map Prod.fst) = seqRun c' w (order.map Prod.fst) := fun order hp =>
    seqRun_congr c' w _ fun r hr => by
      obtain ⟨e, he, rfl⟩ := List.mem_map.mp hr
      exact h e (List.mem_of_mem_filter (hp.subset he))
  simp only [Linearizable]
  exact exists_congr fun order => and_congr_right fun hp => by rw [hperm order hp]

/-! ## A put lost to a delete -/

/-- `v1` of `app` is put; then `delete_model` of `v1` reads the model, `v2` is put and
committed, and the delete goes on. -/
def lostPut : List Event :=
  [.arrive (.put none "default" (.ok ⟨⟨"app", [], []⟩, "v1", []⟩)), .advance 0 false,
    .advance 0 false, .arrive (.delete none "default" "app" (.json (.ok ⟨some "v1"⟩))),
    .advance 1 false, .arrive (.put none "default" (.ok ⟨⟨"app", [], []⟩, "v2", []⟩)),
    .advance 2 false, .advance 2 false, .advance 1 false, .advance 1 false]

/-- The requests of `lostPut`, each with the reply it gets there. -/
def lostPutReplies : List (Request × Reply) :=
  [(.put none "default" (.ok ⟨⟨"app", [], []⟩, "v1", []⟩),
      .put ⟨.created, 1, "v1", "Successfully put manifest app v1", "app"⟩),
    (.delete none "default" "app" (.json (.ok ⟨some "v1"⟩)),
      .delete ⟨.deleted, "Successfully deleted last version of model app", true⟩),
    (.put none "default" (.ok ⟨⟨"app", [], []⟩, "v2", []⟩),
      .put ⟨.newVersion, 2, "v2", "Successfully put manifest app v2", "app"⟩)]

/-- In `lostPut` every request succeeds, yet `app` is gone, and no serial order agrees. -/
theorem delete_loses_concurrent_put (checks : Checks)
    (haccept : ∀ m ∈ [(⟨⟨"app", [], []⟩, "v1", []⟩ : Manifest), ⟨⟨"app", [], []⟩, "v2", []⟩],
      checks.versionErrors m.version = [] ∧ checks.schemaErrors m = []) :
    ((Sys.init fun _ => none).run checks lostPut).tasks.map Prog.reply? =
        lostPutReplies.map (some ·.2) ∧
      ((Sys.init fun _ => none).run checks lostPut).world.store.get ⟨none, "default", "app"⟩ =
        none ∧
      ¬ Linearizable checks ⟨Store.empty, [], fun _ => none⟩ ⟨none, "default", "app"⟩ lostPutReplies
        ((Sys.init fun _ => none).run checks lostPut).world.store := by
  have h1 := haccept _ (List.mem_cons_self _ _)
  have h2 := haccept _ (List.mem_cons_of_mem _ (List.mem_singleton_self _))
  have hreq : ∀ e ∈ lostPutReplies, e.1.handle checks = e.1.handle Checks.acceptAll := by
    simp only [lostPutReplies, List.mem_cons, List.mem_singleton, List.not_mem_nil, or_false]
    rintro e (rfl | rfl | rfl) <;> simp only [Request.handle]
    · exact putModel_congr h1.1 h1.2
    · exact putModel_congr h2.1 h2.2
  have hevents : ∀ r, Event.arrive r ∈ lostPut → r.handle checks = r.handle Checks.acceptAll := by
    intro r hr
    simp only [lostPut, List.mem_cons, Event.arrive.injEq, reduceCtorEq, List.mem_singleton,
      List.not_mem_nil, or_false, false_or] at hr
    rcases hr with rfl | rfl | rfl
    · exact hreq _ (List.mem_cons_self _ _)
    · exact hreq _ (List.mem_cons_of_mem _ (List.mem_cons_self _ _))
    · exact hreq _ (List.mem_cons_of_mem _ (List.mem_cons_of_mem _ (List.mem_cons_self _ _)))
  rw [Sys.run_congr Checks.acceptAll hevents, linearizable_congr Checks.acceptAll hreq,
    linearizable_iff]
  decide

theorem delete_loses_concurrent_put_acceptAll :
    (∀ m ∈ [(⟨⟨"app", [], []⟩, "v1", []⟩ : Manifest), ⟨⟨"app", [], []⟩, "v2", []⟩],
      Checks.acceptAll.versionErrors m.version = [] ∧ Checks.acceptAll.schemaErrors m = []) ∧
      ((Sys.init fun _ => none).run Checks.acceptAll lostPut).tasks.map Prog.reply? =
        lostPutReplies.map (some ·.2) ∧
      ((Sys.init fun _ => none).run Checks.acceptAll lostPut).world.store.get
        ⟨none, "default", "app"⟩ = none ∧
      ¬ Linearizable Checks.acceptAll ⟨Store.empty, [], fun _ => none⟩ ⟨none, "default", "app"⟩
        lostPutReplies ((Sys.init fun _ => none).run Checks.acceptAll lostPut).world.store :=
  have h : ∀ m ∈ [(⟨⟨"app", [], []⟩, "v1", []⟩ : Manifest), ⟨⟨"app", [], []⟩, "v2", []⟩],
      Checks.acceptAll.versionErrors m.version = [] ∧ Checks.acceptAll.schemaErrors m = [] :=
    fun _ _ => ⟨rfl, rfl⟩
  ⟨h, delete_loses_concurrent_put _ h⟩

end Wadm
