import Wadm.Store

/-! # Handler programs

Each handler of `handlers.rs` awaits calls to the store, the status stream and the notifier, and
only computes between them. A `Prog` is a handler in that shape: the next call, and what the
handler does with each answer the call can give. `run` answers the calls of one handler in
turn; `Call.perform` is the one place that says what a call does.
-/

namespace Wadm

/-- `StatusInfo` of `wadm_types`; its default is an undeployed model with no message. -/
structure StatusInfo where
  statusType : StatusType
  message : String
deriving DecidableEq

instance : Inhabited StatusInfo := ⟨⟨.undeployed, ""⟩⟩

/-- A notifier publish that failed. -/
inductive PublishError where
  | failed
deriving DecidableEq

/-- A call a handler awaits. -/
inductive Call where
  | get (key : Key)
  | set (accountId : Option String) (latticeId : String) (model : StoredManifest)
      (expected : Option Nat)
  | delete (key : Key)
  | list (accountId : Option String) (latticeId : String)
  | status (subject : String)
  | deployed (latticeId : String) (manifest : Manifest)
  | undeployed (latticeId name : String)

/-- What a call answers. -/
def Call.Answer : Call → Type
  | .get _ => Except StoreError (Option (StoredManifest × Nat))
  | .set .. => Except StoreError Unit
  | .delete _ => Except StoreError Unit
  | .list .. => Except StoreError (List ModelSummary)
  | .status _ => Option StatusInfo
  | .deployed .. => Except PublishError Unit
  | .undeployed .. => Except PublishError Unit

/-- A handler: done with a result, stopped by a panic, or waiting on a call. -/
inductive Prog (α : Type) where
  | ret (a : α)
  | abort (msg : String)
  | call (c : Call) (next : c.Answer → Prog α)

/-- A notification to the reconcilers. -/
inductive Note where
  | deployed (latticeId : String) (manifest : Manifest)
  | undeployed (latticeId name : String)
deriving DecidableEq

/-- What the handlers see and change: the store, the notifications published so far, and the
last status message on each subject of the status stream (`none` when it is missing or does
not decode). -/
structure World where
  store : Store
  notes : List Note
  statusLog : String → Option StatusInfo

/-- One call against the world. `fail` makes a store or notifier call fail; a publish is
recorded whether or not it fails. -/
def Call.perform (fail : Bool) (w : World) : (c : Call) → World × c.Answer
  | .get k => (w, if fail then .error .storage else .ok (w.store.get k))
  | .set a l sm e =>
    if fail then (w, .error .storage)
    else
      match w.store.set a l sm e with
      | .ok s => ({ w with store := s }, .ok ())
      | .error err => (w, .error err)
  | .delete k =>
    if fail then (w, .error .storage) else ({ w with store := w.store.delete k }, .ok ())
  | .list a l => (w, if fail then .error .storage else .ok (w.store.list a l))
  | .status subject => (w, w.statusLog subject)
  | .deployed l m =>
    ({ w with notes := w.notes ++ [.deployed l m] }, if fail then .error .failed else .ok ())
  | .undeployed l n =>
    ({ w with notes := w.notes ++ [.undeployed l n] }, if fail then .error .failed else .ok ())

/-! ## One lemma per call -/

@[simp] theorem Call.perform_get (fail : Bool) (w : World) (k : Key) :
    (Call.get k).perform fail w = (w, if fail then .error .storage else .ok (w.store.get k)) := rfl

@[simp] theorem Call.perform_set (fail : Bool) (w : World) (a : Option String) (l : String)
    (sm : StoredManifest) (e : Option Nat) :
    (Call.set a l sm e).perform fail w =
      if fail then (w, .error .storage)
      else
        match w.store.set a l sm e with
        | .ok s => ({ w with store := s }, .ok ())
        | .error err => (w, .error err) := rfl

@[simp] theorem Call.perform_delete (fail : Bool) (w : World) (k : Key) :
    (Call.delete k).perform fail w =
      if fail then (w, .error .storage) else ({ w with store := w.store.delete k }, .ok ()) := rfl

@[simp] theorem Call.perform_list (fail : Bool) (w : World) (a : Option String) (l : String) :
    (Call.list a l).perform fail w = (w, if fail then .error .storage else .ok (w.store.list a l)) :=
  rfl

@[simp] theorem Call.perform_status (fail : Bool) (w : World) (subject : String) :
    (Call.status subject).perform fail w = (w, w.statusLog subject) := rfl

@[simp] theorem Call.perform_deployed (fail : Bool) (w : World) (l : String) (m : Manifest) :
    (Call.deployed l m).perform fail w =
      ({ w with notes := w.notes ++ [.deployed l m] }, if fail then .error .failed else .ok ()) := rfl

@[simp] theorem Call.perform_undeployed (fail : Bool) (w : World) (l n : String) :
    (Call.undeployed l n).perform fail w =
      ({ w with notes := w.notes ++ [.undeployed l n] }, if fail then .error .failed else .ok ()) :=
  rfl

/-- How a handler ended. -/
inductive Outcome (α : Type) where
  | done (a : α)
  | aborted (msg : String)
deriving DecidableEq

namespace Prog

/-- Runs a handler alone to its end; its `i`-th call fails iff the `i`-th entry of `fails` is
`true`, and every call past the end of `fails` succeeds. -/
def run : List Bool → World → Prog α → World × Outcome α
  | _, w, .ret a => (w, .done a)
  | _, w, .abort msg => (w, .aborted msg)
  | fails, w, .call c next =>
    let r := c.perform (fails.headD false) w
    run fails.tail r.1 (next r.2)

@[simp] theorem run_ret (fails : List Bool) (w : World) (a : α) :
    run fails w (.ret a) = (w, .done a) := rfl

@[simp] theorem run_abort (fails : List Bool) (w : World) (msg : String) :
    run fails w (.abort msg : Prog α) = (w, .aborted msg) := rfl

@[simp] theorem run_call (fails : List Bool) (w : World) (c : Call) (next : c.Answer → Prog α) :
    run fails w (.call c next) =
      run fails.tail (c.perform (fails.headD false) w).1 (next (c.perform (fails.headD false) w).2) :=
  rfl

/-- Every run of the handler from `w` ends in a world and an outcome that satisfy `Q`, whichever
of its calls fail. -/
def Always (Q : World → Outcome α → Prop) : World → Prog α → Prop
  | w, .ret a => Q w (.done a)
  | w, .abort msg => Q w (.aborted msg)
  | w, .call c next => ∀ fail, Always Q (c.perform fail w).1 (next (c.perform fail w).2)

theorem Always.run {Q : World → Outcome α → Prop} {w : World} {p : Prog α} (h : p.Always Q w)
    (fails : List Bool) : Q (p.run fails w).1 (p.run fails w).2 := by
  induction p generalizing w fails with
  | ret => exact h
  | abort => exact h
  | call c next ih => exact ih _ (h _) _

theorem Always.imp {Q Q' : World → Outcome α → Prop} (hq : ∀ w o, Q w o → Q' w o) {w : World}
    {p : Prog α} (h : p.Always Q w) : p.Always Q' w := by
  induction p generalizing w with
  | ret | abort => exact hq _ _ h
  | call c next ih => exact fun fail => ih _ (h fail)

@[simp] theorem always_ret {Q : World → Outcome α → Prop} {w : World} {a : α} :
    (Prog.ret a).Always Q w ↔ Q w (.done a) := Iff.rfl

@[simp] theorem always_abort {Q : World → Outcome α → Prop} {w : World} {msg : String} :
    (Prog.abort msg).Always Q w ↔ Q w (.aborted msg) := Iff.rfl

@[simp] theorem always_call {Q : World → Outcome α → Prop} {w : World} {c : Call}
    {next : c.Answer → Prog α} :
    (Prog.call c next).Always Q w ↔ ∀ fail, (next (c.perform fail w).2).Always Q (c.perform fail w).1 :=
  Iff.rfl

/-! ## One rule per call -/

section Rules

variable {Q : World → Outcome α → Prop} {w : World}

theorem always_get {k : Key} {next : Except StoreError (Option (StoredManifest × Nat)) → Prog α}
    (herr : (next (.error .storage)).Always Q w) (hok : (next (.ok (w.store.get k))).Always Q w) :
    (Prog.call (.get k) next).Always Q w := by
  intro fail
  cases fail <;> assumption

theorem always_list {a : Option String} {l : String} {next : Except StoreError (List ModelSummary) → Prog α}
    (herr : (next (.error .storage)).Always Q w) (hok : (next (.ok (w.store.list a l))).Always Q w) :
    (Prog.call (.list a l) next).Always Q w := by
  intro fail
  cases fail <;> assumption

theorem always_set {a : Option String} {l : String} {sm : StoredManifest} {e : Option Nat}
    {next : Except StoreError Unit → Prog α} (herr : ∀ err, (next (.error err)).Always Q w)
    (hok : ∀ s, w.store.set a l sm e = .ok s → (next (.ok ())).Always Q { w with store := s }) :
    (Prog.call (.set a l sm e) next).Always Q w := by
  intro fail
  cases fail
  · simp only [Call.perform_set, Bool.false_eq_true, if_false]
    split
    · exact hok _ ‹_›
    · exact herr _
  · exact herr _

theorem always_delete {k : Key} {next : Except StoreError Unit → Prog α}
    (herr : ∀ err, (next (.error err)).Always Q w)
    (hok : (next (.ok ())).Always Q { w with store := w.store.delete k }) :
    (Prog.call (.delete k) next).Always Q w := by
  intro fail
  cases fail
  · exact hok
  · exact herr _

theorem always_deployed {l : String} {m : Manifest} {next : Except PublishError Unit → Prog α}
    (h : ∀ a, (next a).Always Q { w with notes := w.notes ++ [.deployed l m] }) :
    (Prog.call (.deployed l m) next).Always Q w := fun _ => h _

theorem always_undeployed {l n : String} {next : Except PublishError Unit → Prog α}
    (h : ∀ a, (next a).Always Q { w with notes := w.notes ++ [.undeployed l n] }) :
    (Prog.call (.undeployed l n) next).Always Q w := fun _ => h _

end Rules

end Prog

end Wadm
