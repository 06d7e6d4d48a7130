import Wadm.Handler

/-! # Requests running side by side

Each request is a task, and tasks interleave at their awaited calls; a call is atomic on the
store. A system state is the world and the task of every request that has arrived, in arrival
order. A step is a new request, or the next call of one task, which may fail.
-/

namespace Wadm

structure Sys where
  world : World
  tasks : List (Prog Reply)

/-- What can happen next. -/
inductive Event where
  | arrive (r : Request)
  | advance (i : Nat) (fail : Bool)

/-- One call of a task; a task that has replied or panicked stays as it is. -/
def Prog.advance (fail : Bool) (w : World) : Prog α → World × Prog α
  | .call c next =>
    let r := c.perform fail w
    (r.1, next r.2)
  | p => (w, p)

namespace Sys

/-- Nothing stored and nothing running. -/
def init (statusLog : String → Option StatusInfo) : Sys := ⟨⟨Store.empty, [], statusLog⟩, []⟩

def step (checks : Checks) (s : Sys) : Event → Sys
  | .arrive r => { s with tasks := s.tasks ++ [r.handle checks] }
  | .advance i fail =>
    match s.tasks.get? i with
    | some p =>
      let r := p.advance fail s.world
      { world := r.1, tasks := s.tasks.set i r.2 }
    | none => s

def run (checks : Checks) (s : Sys) (events : List Event) : Sys := events.foldl (step checks) s

@[simp] theorem run_nil (checks : Checks) (s : Sys) : run checks s [] = s := rfl

@[simp] theorem run_cons (checks : Checks) (s : Sys) (e : Event) (events : List Event) :
    run checks s (e :: events) = run checks (step checks s e) events := rfl

/-- A step of task `j`: nothing if it has not arrived, else one call of it. -/
theorem step_advance_of_none {checks : Checks} {s : Sys} {j : Nat} (fail : Bool)
    (h : s.tasks[j]? = none) : s.step checks (.advance j fail) = s := by
  simp [step, h]

theorem step_advance_of_some {checks : Checks} {s : Sys} {j : Nat} (fail : Bool) {p : Prog Reply}
    (h : s.tasks[j]? = some p) :
    s.step checks (.advance j fail) =
      ⟨(p.advance fail s.world).1, s.tasks.set j (p.advance fail s.world).2⟩ := by
  simp [step, h]

/-- A run reads the checks only through the requests that arrive. -/
theorem run_congr {c : Checks} (c' : Checks) {events : List Event}
    (h : ∀ r, Event.arrive r ∈ events → r.handle c = r.handle c') (s : Sys) :
    s.run c events = s.run c' events := by
  induction events generalizing s with
  | nil => rfl
  | cons e events ih =>
    have hstep : s.step c e = s.step c' e := by
      cases e with
      | arrive r =>
        exact congrArg (fun p => { s with tasks := s.tasks ++ [p] }) (h r (List.mem_cons_self _ _))
      | advance i fail => simp only [step]
    rw [run_cons, run_cons, hstep]
    exact ih (fun r hr => h r (List.mem_cons_of_mem _ hr)) _

end Sys

/-- Checks that accept every manifest. -/
def Checks.acceptAll : Checks := ⟨fun _ => [], fun _ => []⟩

/-- The reply of a task that has replied. -/
def Prog.reply? : Prog α → Option α
  | .ret a => some a
  | _ => none

/-- The requests that have arrived, in order: task `i` serves the `i`-th. -/
def arrivals : List Event → List Request
  | [] => []
  | .arrive r :: events => r :: arrivals events
  | .advance .. :: events => arrivals events

/-- The manifest of a put whose body parsed. -/
def Request.putManifest? : Request → Option Manifest
  | .put _ _ (.ok m) => some m
  | _ => none

/-- The checks matter to a request only through a put's manifest. -/
theorem Request.handle_acceptAll {checks : Checks} {r : Request}
    (h : ∀ m ∈ r.putManifest?, checks.versionErrors m.version = [] ∧ checks.schemaErrors m = []) :
    r.handle checks = r.handle Checks.acceptAll := by
  cases r with
  | put a l parsed =>
    rcases parsed with e | m
    · rfl
    · obtain ⟨hv, hs⟩ := h m rfl
      exact (putModel_congr hv hs :
        putModel checks a l (.ok m) = putModel Checks.acceptAll a l (.ok m))
  | _ => rfl

theorem mem_arrivals {r : Request} {events : List Event} (h : Event.arrive r ∈ events) :
    r ∈ arrivals events := by
  induction events with
  | nil => cases h
  | cons e events ih =>
    rcases List.mem_cons.mp h with rfl | h'
    · exact List.mem_cons_self _ _
    · cases e <;> simp [arrivals, ih h']

/-- A run reads the checks only through the manifests of the puts that arrive. -/
theorem Sys.run_acceptAll {checks : Checks} {events : List Event} {ms : List Manifest}
    (hputs : (arrivals events).filterMap Request.putManifest? ⊆ ms)
    (haccept : ∀ m ∈ ms, checks.versionErrors m.version = [] ∧ checks.schemaErrors m = [])
    (s : Sys) : s.run checks events = s.run Checks.acceptAll events :=
  Sys.run_congr Checks.acceptAll (fun r hr => Request.handle_acceptAll fun m hm =>
    haccept m (hputs (List.mem_filterMap.mpr ⟨r, mem_arrivals hr, hm⟩))) s

/-! ## The keys of the store -/

/-- Every call keeps the keys of the store distinct and naming their models. -/
theorem Call.perform_keyed (c : Call) (fail : Bool) {w : World} (h : w.store.Keyed) :
    (c.perform fail w).1.store.Keyed := by
  cases c with
  | set a l sm e =>
    simp only [Call.perform_set]
    split
    · exact h
    · split
      · exact h.set ‹_›
      · exact h
  | delete k =>
    simp only [Call.perform_delete]
    split
    · exact h
    · exact h.delete k
  | get | list | status | deployed | undeployed => exact h

theorem Prog.run_keyed (p : Prog α) (fails : List Bool) {w : World} (h : w.store.Keyed) :
    (p.run fails w).1.store.Keyed := by
  induction p generalizing w fails with
  | ret | abort => exact h
  | call c next ih => exact ih _ _ (c.perform_keyed _ h)

end Wadm
