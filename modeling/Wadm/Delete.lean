import Wadm.Notify

/-! # A failed `delete` answers `Deleted`

Deleting the last version of a model answers `Deleted` even when the store's `delete` failed,
where every other failed write answers `Error`.
-/

namespace Wadm

open StoredManifest

/-- For every store holding a model with the single version `v`, `delete_model` of `v` whose
`delete` fails replies `Deleted` and leaves the world as it was. -/
theorem delete_last_version_failure_replies_deleted (a : Option String) (l n : String) (w : World)
    (sm : StoredManifest) (rev : Nat) (hget : w.store.get ⟨a, l, n⟩ = some (sm, rev)) (v : String)
    (hlast : sm.allVersions = [v]) :
    (deleteModel a l n (.json (.ok ⟨some v⟩))).run [false, true] w =
      (w, .done (.delete ⟨.deleted, storageError, false⟩)) := by
  obtain ⟨ms, d⟩ := sm
  obtain ⟨m, _, rfl, rfl, hnil⟩ := List.map_eq_cons_iff.mp hlast
  obtain rfl := List.map_eq_nil_iff.mp hnil
  have hd : deleteVersion ⟨[m], d⟩ m.version = (true, ⟨[], d⟩) := by
    simp [deleteVersion]
  simp only [deleteModel, Payload.decode, deleteVersionOf, Prog.run_call, Call.perform_get,
    List.headD_cons, List.tail_cons, Bool.false_eq_true, if_false, hget, hd]
  rfl

/-- The model `app` with the single version `v1`. -/
def singleVersionApp : Store :=
  ⟨[⟨⟨none, "default", "app"⟩, ⟨[⟨⟨"app", [], []⟩, "v1", []⟩], none⟩, 1⟩], 1⟩

theorem delete_last_version_failure_replies_deleted_app :
    singleVersionApp.get ⟨none, "default", "app"⟩ =
        some (⟨[⟨⟨"app", [], []⟩, "v1", []⟩], none⟩, 1) ∧
      allVersions ⟨[⟨⟨"app", [], []⟩, "v1", []⟩], none⟩ = ["v1"] ∧
      (deleteModel none "default" "app" (.json (.ok ⟨some "v1"⟩))).run [false, true]
          ⟨singleVersionApp, [], fun _ => none⟩ =
        (⟨singleVersionApp, [], fun _ => none⟩, .done (.delete ⟨.deleted, storageError, false⟩)) :=
  have hget : singleVersionApp.get ⟨none, "default", "app"⟩ =
      some (⟨[⟨⟨"app", [], []⟩, "v1", []⟩], none⟩, 1) := by
    decide
  ⟨hget, rfl, delete_last_version_failure_replies_deleted none "default" "app"
    ⟨singleVersionApp, [], fun _ => none⟩ ⟨[⟨⟨"app", [], []⟩, "v1", []⟩], none⟩ 1 hget "v1" rfl⟩

end Wadm
