import Wadm.Linearize
import Wadm.Refinement

/-! # Concurrent puts and reads are linearizable

A put commits only at a `set` whose revision check passes, and a read decides at its one store
call; served one at a time in the order they decided, the requests give the same run.
-/

namespace Wadm

open StoredManifest

/-- The requests whose tasks have replied, with their replies, in arrival order. -/
def Sys.answered (s : Sys) (rs : List Request) : List (Request × Reply) :=
  (List.range rs.length).filterMap fun i =>
    rs[i]?.bind fun r => (s.tasks[i]?.bind Prog.reply?).map (r, ·)

/-- A request whose handler reads and never writes. -/
def Request.IsRead : Request → Prop
  | .get .. | .list .. | .versions .. | .status .. => True
  | _ => False

/-- A put whose manifest, if it parses, has a name without surrounding whitespace, or a read. -/
def Request.PutOrRead : Request → Prop
  | .put _ _ (.ok m) => trim m.metadata.name = m.metadata.name
  | .put _ _ (.error _) => True
  | r => r.IsRead

/-- A `set` at the revision of `found` succeeds only while the key holds `found`. -/
structure Store.StillRead (s : Store) (k : Key) (found : Option (StoredManifest × Nat)) : Prop where
  pos : ∀ p ∈ found, 0 < p.2
  le : (found.getD (default, 0)).2 ≤ s.seq
  current : s.revisionMatches k (some (found.getD (default, 0)).2) = true → s.get k = found

namespace Store

theorem stillRead_get {s : Store} (hs : s.Revisions) (k : Key) : s.StillRead k (s.get k) := by
  refine ⟨fun p hp => (hs.bounded _ (mem_of_get (Option.mem_def.mp hp))).1, ?_, fun _ => rfl⟩
  rcases hg : s.get k with _ | ⟨sm, rev⟩
  · exact Nat.zero_le _
  · exact (hs.bounded _ (mem_of_get hg)).2

theorem StillRead.write {s : Store} {k : Key} {found : Option (StoredManifest × Nat)}
    (h : s.StillRead k found) (k' : Key) (sm : StoredManifest) : (s.write k' sm).StillRead k found := by
  refine ⟨h.pos, by simp only [write_seq]; exact Nat.le_succ_of_le h.le, fun hm => ?_⟩
  by_cases hk : k = k'
  · subst hk
    have := h.le
    simp only [revisionMatches, get_write_self, beq_iff_eq] at hm
    omega
  · simp only [revisionMatches, get_write_of_ne sm hk] at hm ⊢
    exact h.current hm

theorem StillRead.delete {s : Store} {k : Key} {found : Option (StoredManifest × Nat)}
    (h : s.StillRead k found) (k' : Key) : (s.delete k').StillRead k found := by
  refine ⟨h.pos, h.le, fun hm => ?_⟩
  by_cases hk : k = k'
  · subst hk
    simp only [revisionMatches, get_delete_self, beq_iff_eq] at hm ⊢
    rcases found with _ | p
    · rfl
    · exact absurd hm (Nat.pos_iff_ne_zero.mp (h.pos p rfl))
  · simp only [revisionMatches, get_delete_of_ne hk] at hm ⊢
    exact h.current hm

/-- A `set` that succeeds passed its revision check and wrote the model under its name. -/
theorem revisionMatches_of_set {s s' : Store} {a : Option String} {l : String}
    {sm : StoredManifest} {e : Option Nat} (h : s.set a l sm e = .ok s') :
    s.revisionMatches ⟨a, l, sm.name⟩ e = true ∧ s' = s.write ⟨a, l, sm.name⟩ sm := by
  simp only [Store.set] at h
  split at h
  · cases h
    exact ⟨‹_›, rfl⟩
  · cases h

end Store

theorem Prog.advance_stillRead {p : Prog α} (fail : Bool) {w : World} {k : Key}
    {found : Option (StoredManifest × Nat)} (h : w.store.StillRead k found) :
    (p.advance fail w).1.store.StillRead k found := by
  cases p with
  | call c next =>
    rcases c.perform_store fail w with he | ⟨k', sm, he⟩ | ⟨k', he⟩ <;> simp only [advance, he]
    · exact h
    · exact h.write k' sm
    · exact h.delete k'
  | ret | abort => exact h

theorem Prog.advance_revisions {p : Prog α} (fail : Bool) {w : World} (h : w.store.Revisions) :
    (p.advance fail w).1.store.Revisions := by
  cases p with
  | call c next => exact c.perform_revisions fail h
  | ret | abort => exact h

theorem Call.perform_statusLog (c : Call) (fail : Bool) (w : World) :
    (c.perform fail w).1.statusLog = w.statusLog := by
  cases c <;> simp only [Call.perform] <;> (repeat' split) <;> rfl

theorem Prog.advance_statusLog (p : Prog α) (fail : Bool) (w : World) :
    (p.advance fail w).1.statusLog = w.statusLog := by
  cases p with
  | call c next => exact c.perform_statusLog fail w
  | ret | abort => rfl

/-! ## What is left of a read once it has read -/

/-- Questions to the status log `log`, and then the reply `reply`. -/
inductive StatusTail (log : String → Option StatusInfo) (reply : Reply) : Prog Reply → Prop
  | ret : StatusTail log reply (.ret reply)
  | status (subject : String) (next : Option StatusInfo → Prog Reply)
      (h : StatusTail log reply (next (log subject))) :
      StatusTail log reply (.call (.status subject) next)

theorem StatusTail.run {w : World} {reply : Reply} {q : Prog Reply}
    (h : StatusTail w.statusLog reply q) : q.run [] w = (w, .done reply) := by
  induction h with
  | ret => rfl
  | status subject next _ ih => exact ih

theorem StatusTail.advance {w : World} {reply : Reply} {q : Prog Reply}
    (h : StatusTail w.statusLog reply q) (fail : Bool) :
    (q.advance fail w).1 = w ∧ StatusTail w.statusLog reply (q.advance fail w).2 := by
  cases h with
  | ret => exact ⟨rfl, .ret⟩
  | status subject next h => exact ⟨rfl, h⟩

theorem StatusTail.reply? {log : String → Option StatusInfo} {reply x : Reply} {q : Prog Reply}
    (h : StatusTail log reply q) (hx : q.reply? = some x) : x = reply := by
  cases h with
  | ret => exact (Option.some.inj hx).symm
  | status => cases hx

theorem statusTail_call {log : String → Option StatusInfo} {P : Reply → Prop} {subject : String}
    {next : Option StatusInfo → Prog Reply}
    (h : ∃ reply, StatusTail log reply (next (log subject)) ∧ P reply) :
    ∃ reply, StatusTail log reply (.call (.status subject) next) ∧ P reply :=
  let ⟨reply, ht, hp⟩ := h
  ⟨reply, .status subject next ht, hp⟩

/-- After its read, a handler replies a storage error if the read failed; otherwise it stops, or
it asks the status log and replies, not a storage error. -/
def RepliesAfterRead {β : Type} (next : Except StoreError β → Prog Reply) : Prop :=
  (∀ e, next (.error e) = .ret (.error storageError)) ∧
    ∀ log b, (∃ reply, StatusTail log reply (next (.ok b)) ∧ reply.isStorageError = false) ∨
      ∃ msg, next (.ok b) = .abort msg

theorem RepliesAfterRead.run_keeps {β : Type} {next : Except StoreError β → Prog Reply}
    (h : RepliesAfterRead next) (w : World) (b : β) : ((next (.ok b)).run [] w).1 = w := by
  rcases h.2 w.statusLog b with ⟨reply, ht, -⟩ | ⟨msg, hab⟩
  · rw [ht.run]
  · rw [hab]
    rfl

/-! ## The shape of the handlers -/

/-- `put_model` replies at once, or first reads the model under the trimmed name. -/
theorem putModel_shape (checks : Checks) (a : Option String) (l : String)
    (parsed : Except String Manifest) :
    (∃ reply, putModel checks a l parsed = .ret reply) ∨
      ∃ m next, parsed = .ok m ∧
        putModel checks a l parsed = .call (.get ⟨a, l, trim m.metadata.name⟩) next := by
  rcases parsed with e | m
  · exact .inl ⟨_, rfl⟩
  simp only [putModel]
  split
  · exact .inl ⟨_, rfl⟩
  split
  · exact .inl ⟨_, rfl⟩
  · exact .inr ⟨m, _, rfl, rfl⟩

/-- After its read, `put_model` replies, or sets the model read with the version appended at the
revision read. -/
theorem putModel_next {checks : Checks} {a : Option String} {l : String} {m : Manifest} {k : Key}
    {next : Except StoreError (Option (StoredManifest × Nat)) → Prog Reply}
    (h : putModel checks a l (.ok m) = .call (.get k) next) :
    (∀ e, next (.error e) = .ret (.error storageError)) ∧
      ∀ found, (∃ reply, next (.ok found) = .ret reply) ∨
        ∃ cm' cont, (found.getD (default, 0)).1.addVersion m = (true, cm') ∧
          next (.ok found) = .call (.set a l cm' (some (found.getD (default, 0)).2)) cont ∧
          (∃ resp, cont (.ok ()) = .ret (.put resp)) ∧
          ∀ e, cont (.error e) = .ret (.error storageError) := by
  simp only [putModel] at h
  split at h
  · cases h
  split at h
  · cases h
  obtain ⟨hc, hn⟩ := Prog.call.inj h
  cases hc
  cases hn
  refine ⟨fun _ => rfl, fun found => ?_⟩
  dsimp only
  split
  · exact .inl ⟨_, rfl⟩
  rcases hadd : (found.getD (default, 0)).1.addVersion m with ⟨_ | _, cm'⟩
  · exact .inl ⟨_, rfl⟩
  · exact .inr ⟨cm', _, rfl, rfl, ⟨_, rfl⟩, fun _ => rfl⟩

/-- `get_model` replies at once, or reads the model and then replies or stops. -/
theorem getModel_shape (a : Option String) (l n : String) (payload : Payload VersionRequest) :
    (∃ reply, getModel a l n payload = .ret reply) ∨
      ∃ next, getModel a l n payload = .call (.get ⟨a, l, n⟩) next ∧ RepliesAfterRead next := by
  unfold getModel
  split
  · exact .inl ⟨_, rfl⟩
  refine .inr ⟨_, rfl, fun _ => rfl, fun log found => ?_⟩
  rcases found with _ | ⟨manifests, _⟩
  · exact .inl ⟨_, .ret, rfl⟩
  dsimp only
  split
  · split <;> exact .inl ⟨_, .ret, rfl⟩
  · split
    · exact .inl ⟨_, .ret, rfl⟩
    · exact .inr ⟨_, rfl⟩

theorem listVersions_repliesAfterRead (a : Option String) (l n : String) :
    ∃ next, listVersions a l n = .call (.get ⟨a, l, n⟩) next ∧ RepliesAfterRead next :=
  ⟨_, rfl, fun _ => rfl, fun _ found =>
    .inl (by rcases found with _ | ⟨_, _⟩ <;> exact ⟨_, .ret, rfl⟩)⟩

theorem modelStatus_repliesAfterRead (a : Option String) (l n : String) :
    ∃ next, modelStatus a l n = .call (.get ⟨a, l, n⟩) next ∧ RepliesAfterRead next := by
  refine ⟨_, rfl, fun _ => rfl, fun log found => ?_⟩
  rcases found with _ | ⟨manifests, _⟩
  · exact .inl ⟨_, .ret, rfl⟩
  dsimp only
  split
  · exact .inr ⟨_, rfl⟩
  · exact .inl (statusTail_call ⟨_, .ret, rfl⟩)

theorem overlayStatus_tail (log : String → Option StatusInfo) (l : String) :
    ∀ models data, ∃ reply, StatusTail log reply (overlayStatus l models data) ∧
      reply.isStorageError = false
  | [], _ => ⟨_, .ret, rfl⟩
  | _ :: rest, _ => statusTail_call (by split <;> exact overlayStatus_tail log l rest _)

theorem listModels_repliesAfterRead (a : Option String) (l : String) :
    ∃ next, listModels a l = .call (.list a l) next ∧ RepliesAfterRead next :=
  ⟨_, rfl, fun _ => rfl, fun log data => .inl (overlayStatus_tail log l data [])⟩

/-- A read replies at once, or reads the store once and then replies or stops. -/
theorem Request.IsRead.shape {r : Request} (hread : r.IsRead) (checks : Checks) :
    (∃ reply, r.handle checks = .ret reply) ∨
      (∃ k next, r.handle checks = .call (.get k) next ∧ RepliesAfterRead next) ∨
      ∃ a l next, r.handle checks = .call (.list a l) next ∧ RepliesAfterRead next := by
  cases r with
  | get a l n payload =>
    obtain h | ⟨next, h, hnext⟩ := getModel_shape a l n payload
    · exact .inl h
    · exact .inr (.inl ⟨_, next, h, hnext⟩)
  | list a l =>
    obtain ⟨next, h, hnext⟩ := listModels_repliesAfterRead a l
    exact .inr (.inr ⟨_, _, next, h, hnext⟩)
  | versions a l n =>
    obtain ⟨next, h, hnext⟩ := listVersions_repliesAfterRead a l n
    exact .inr (.inl ⟨_, next, h, hnext⟩)
  | status a l n =>
    obtain ⟨next, h, hnext⟩ := modelStatus_repliesAfterRead a l n
    exact .inr (.inl ⟨_, next, h, hnext⟩)
  | _ => exact hread.elim

/-- Served alone, a read leaves the world as it found it. -/
theorem Request.IsRead.run_keeps {r : Request} (hread : r.IsRead) (checks : Checks) (w : World) :
    ((r.handle checks).run [] w).1 = w := by
  rcases hread.shape checks with ⟨reply, h⟩ | ⟨k, next, h, hnext⟩ | ⟨a, l, next, h, hnext⟩ <;>
    rw [h]
  · rfl
  · exact hnext.run_keeps w _
  · exact hnext.run_keeps w _

/-- With every call answered, the requests run one at a time and then one more. -/
theorem seqRun_append_singleton (checks : Checks) (w : World) (rs : List Request) (r : Request) :
    seqRun checks w (rs ++ [r]) =
      (((r.handle checks).run [] (seqRun checks w rs).1).1,
        (seqRun checks w rs).2 ++ [((r.handle checks).run [] (seqRun checks w rs).1).2]) := by
  induction rs generalizing w with
  | nil => rfl
  | cons r0 rs ih => rw [List.cons_append, seqRun, seqRun, ih, List.cons_append]

/-! ## A request still to decide -/

/-- A task not yet decided: failed or stopped, not yet read, or a put that has read `found` and
commits only while the key still holds it. -/
inductive Undecided (checks : Checks) (s : Store) (r : Request) : Prog Reply → Prop
  | failed (reply : Reply) (h : reply.isStorageError = true) : Undecided checks s r (.ret reply)
  | aborted (msg : String) : Undecided checks s r (.abort msg)
  | read (k : Key) (next : Except StoreError (Option (StoredManifest × Nat)) → Prog Reply)
      (hread : r.IsRead) (hh : r.handle checks = .call (.get k) next) (hnext : RepliesAfterRead next) :
      Undecided checks s r (.call (.get k) next)
  | listing (a : Option String) (l : String) (next : Except StoreError (List ModelSummary) → Prog Reply)
      (hread : r.IsRead) (hh : r.handle checks = .call (.list a l) next) (hnext : RepliesAfterRead next) :
      Undecided checks s r (.call (.list a l) next)
  | fresh (a : Option String) (l : String) (m : Manifest)
      (next : Except StoreError (Option (StoredManifest × Nat)) → Prog Reply)
      (hr : r = .put a l (.ok m))
      (hh : r.handle checks = .call (.get ⟨a, l, trim m.metadata.name⟩) next) :
      Undecided checks s r (.call (.get ⟨a, l, trim m.metadata.name⟩) next)
  | reading (a : Option String) (l : String) (m : Manifest)
      (next : Except StoreError (Option (StoredManifest × Nat)) → Prog Reply)
      (found : Option (StoredManifest × Nat)) (cm' : StoredManifest)
      (cont : Except StoreError Unit → Prog Reply)
      (hr : r = .put a l (.ok m))
      (hh : r.handle checks = .call (.get ⟨a, l, trim m.metadata.name⟩) next)
      (hn : next (.ok found) = .call (.set a l cm' (some (found.getD (default, 0)).2)) cont)
      (hname : cm'.name = trim m.metadata.name)
      (hok : ∃ resp, cont (.ok ()) = .ret (.put resp))
      (herr : ∀ e, cont (.error e) = .ret (.error storageError))
      (hs : s.StillRead ⟨a, l, trim m.metadata.name⟩ found) :
      Undecided checks s r (.call (.set a l cm' (some (found.getD (default, 0)).2)) cont)

theorem Undecided.advance_store {checks : Checks} {r : Request} {p q : Prog Reply} {w : World}
    (hp : Undecided checks w.store r p) (fail : Bool) :
    Undecided checks (q.advance fail w).1.store r p := by
  cases hp with
  | failed reply h => exact .failed reply h
  | aborted msg => exact .aborted msg
  | read k next hread hh hnext => exact .read k next hread hh hnext
  | listing a l next hread hh hnext => exact .listing a l next hread hh hnext
  | fresh a l m next hr hh => exact .fresh a l m next hr hh
  | reading a l m next found cm' cont hr hh hn hname hok herr hs =>
    exact .reading a l m next found cm' cont hr hh hn hname hok herr (Prog.advance_stillRead fail hs)

/-- The set of a put whose name is trimmed writes under the key it read. -/
theorem addVersion_name {sm cm' : StoredManifest} {m : Manifest}
    (hpr : trim m.metadata.name = m.metadata.name) (hadd : sm.addVersion m = (true, cm')) :
    cm'.name = trim m.metadata.name := by
  obtain ⟨-, rfl⟩ := addVersion_eq_true hadd
  rw [name_append, hpr]

/-- The task of a request decided with the reply `reply`: it has replied, or it is a read with
only questions to the status log `log` left. -/
def DecidedTask (log : String → Option StatusInfo) (r : Request) (reply : Reply) (q : Prog Reply) :
    Prop :=
  q = .ret reply ∨ r.IsRead ∧ StatusTail log reply q

theorem DecidedTask.advance {w : World} {r : Request} {reply : Reply} {q : Prog Reply}
    (h : DecidedTask w.statusLog r reply q) (fail : Bool) :
    (q.advance fail w).1 = w ∧ DecidedTask w.statusLog r reply (q.advance fail w).2 := by
  rcases h with rfl | ⟨hread, ht⟩
  · exact ⟨rfl, .inl rfl⟩
  · obtain ⟨hw, ht'⟩ := ht.advance fail
    exact ⟨hw, .inr ⟨hread, ht'⟩⟩

theorem DecidedTask.reply? {log : String → Option StatusInfo} {r : Request} {reply x : Reply}
    {q : Prog Reply} (h : DecidedTask log r reply q) (hx : q.reply? = some x) : x = reply := by
  rcases h with rfl | ⟨-, ht⟩
  · exact (Option.some.inj hx).symm
  · exact ht.reply? hx

/-- The step of a read that reads: with the read failed the read replies a storage error;
otherwise it stops, or it has decided on what it read, with the reply it gets served alone. -/
theorem Undecided.after_read {checks : Checks} {r : Request} {w : World} {β : Type}
    {next : Except StoreError β → Prog Reply} (hread : r.IsRead) (hnext : RepliesAfterRead next)
    (v : β) (hrun : (r.handle checks).run [] w = (next (.ok v)).run [] w) (fail : Bool) :
    (w = w ∧ Undecided checks w.store r (next (if fail then .error .storage else .ok v))) ∨
      ∃ reply, reply.isStorageError = false ∧ (r.handle checks).run [] w = (w, .done reply) ∧
        DecidedTask w.statusLog r reply (next (if fail then .error .storage else .ok v)) := by
  cases fail
  case true =>
    rw [if_pos rfl, hnext.1]
    exact .inl ⟨rfl, .failed _ rfl⟩
  case false =>
  rw [if_neg Bool.false_ne_true]
  rcases hnext.2 w.statusLog v with ⟨reply, ht, hst⟩ | ⟨msg, hab⟩
  · exact .inr ⟨reply, hst, hrun.trans ht.run, .inr ⟨hread, ht⟩⟩
  · rw [hab]
    exact .inl ⟨rfl, .aborted msg⟩

/-- A step of an undecided task writes nothing, or decides it as its request served alone would. -/
theorem Undecided.advance {checks : Checks} {r : Request} {p : Prog Reply} {w : World}
    (hp : Undecided checks w.store r p) (hpr : r.PutOrRead) (hs : w.store.Revisions) (fail : Bool) :
    ((p.advance fail w).1 = w ∧ Undecided checks w.store r (p.advance fail w).2) ∨
      ∃ reply, reply.isStorageError = false ∧
        (r.handle checks).run [] w = ((p.advance fail w).1, .done reply) ∧
        DecidedTask w.statusLog r reply (p.advance fail w).2 := by
  cases hp with
  | failed reply h => exact .inl ⟨rfl, .failed reply h⟩
  | aborted msg => exact .inl ⟨rfl, .aborted msg⟩
  | read k next hread hh hnext => exact Undecided.after_read hread hnext _ (by rw [hh]; rfl) fail
  | listing a l next hread hh hnext => exact Undecided.after_read hread hnext _ (by rw [hh]; rfl) fail
  | fresh a l m next hr hh =>
    subst hr
    obtain ⟨herr, hok⟩ := putModel_next hh
    cases fail
    case true =>
      simp only [Prog.advance, Call.perform_get, ↓reduceIte, herr]
      exact .inl ⟨trivial, .failed _ rfl⟩
    case false =>
    simp only [Prog.advance, Call.perform_get, Bool.false_eq_true, ↓reduceIte]
    rcases hok (w.store.get ⟨a, l, trim m.metadata.name⟩) with ⟨reply, hrep⟩ |
      ⟨cm', cont, hadd, hn, hcok, hcerr⟩
    · rw [hrep]
      cases hst : reply.isStorageError
      · exact .inr ⟨reply, hst, by simp [hh, hrep], .inl rfl⟩
      · exact .inl ⟨trivial, .failed reply hst⟩
    · rw [hn]
      exact .inl ⟨trivial, .reading a l m next _ cm' cont rfl hh hn (addVersion_name hpr hadd) hcok
        hcerr (Store.stillRead_get hs _)⟩
  | reading a l m next found cm' cont hr hh hn hname hok herr hsr =>
    cases fail
    case true =>
      simp only [Prog.advance, Call.perform_set, ↓reduceIte, herr]
      exact .inl ⟨trivial, .failed _ rfl⟩
    case false =>
    simp only [Prog.advance, Call.perform_set, Bool.false_eq_true, ↓reduceIte]
    rcases hset : w.store.set a l cm' (some (found.getD (default, 0)).2) with err | s'
    · simp only [herr]
      exact .inl ⟨trivial, .failed _ rfl⟩
    obtain ⟨hmatch, rfl⟩ := Store.revisionMatches_of_set hset
    rw [hname] at hmatch
    obtain ⟨resp, hresp⟩ := hok
    subst hr
    exact .inr ⟨.put resp, rfl, by simp [hh, hsr.current hmatch, hn, hset, hresp], .inl hresp⟩

/-- A task still to decide has replied a storage error, or not replied. -/
theorem Undecided.reply? {checks : Checks} {st : Store} {r : Request} {p : Prog Reply}
    (hp : Undecided checks st r p) {reply : Reply} (h : p.reply? = some reply) :
    reply.isStorageError = true := by
  cases hp with
  | failed reply' h' => exact (Option.some.inj h) ▸ h'
  | aborted | read | listing | fresh | reading => cases h

theorem Request.PutOrRead.isRead {r : Request} (hpr : r.PutOrRead)
    (hput : ∀ a l parsed, r ≠ .put a l parsed) : r.IsRead := by
  cases r with
  | put a l parsed => exact absurd rfl (hput a l parsed)
  | _ => exact hpr

/-- A put replies at once or first reads under the trimmed name; a read replies at once or first
reads, and then replies or stops. -/
theorem Request.PutOrRead.shape {r : Request} (hpr : r.PutOrRead) (checks : Checks) :
    (∃ reply, r.handle checks = .ret reply) ∨
      (∃ a l m next, r = .put a l (.ok m) ∧
        r.handle checks = .call (.get ⟨a, l, trim m.metadata.name⟩) next) ∨
      r.IsRead ∧ ((∃ k next, r.handle checks = .call (.get k) next ∧ RepliesAfterRead next) ∨
        ∃ a l next, r.handle checks = .call (.list a l) next ∧ RepliesAfterRead next) := by
  cases r with
  | put a l parsed =>
    obtain h | ⟨m, next, rfl, h⟩ := putModel_shape checks a l parsed
    · exact .inl h
    · exact .inr (.inl ⟨a, l, m, next, rfl, h⟩)
  | _ =>
    have hread := hpr.isRead fun _ _ _ h => nomatch h
    exact (hread.shape checks).imp_right fun h => .inr ⟨hread, h⟩

theorem getElem?_concat_of_ne {l : List α} {a : α} {i : Nat} (h : i ≠ l.length) :
    (l ++ [a])[i]? = l[i]? := by
  rcases Nat.lt_or_gt_of_ne h with hi | hi
  · exact List.getElem?_append_left hi
  · rw [List.getElem?_eq_none (by simp; omega), List.getElem?_eq_none (by omega)]

/-! ## The system -/

namespace Sys

/-- The requests decided so far, in the order they decided: served one at a time from `w0` they
give the current world and their replies. -/
structure LinearizedBy (checks : Checks) (w0 : World) (s : Sys) (rs : List Request)
    (lin : List (Nat × Request × Reply)) : Prop where
  revisions : s.world.store.Revisions
  length : rs.length = s.tasks.length
  serial : seqRun checks w0 (lin.map (·.2.1)) = (s.world, lin.map fun e => .done e.2.2)
  nodup : (lin.map (·.1)).Nodup
  done : ∀ e ∈ lin, rs[e.1]? = some e.2.1 ∧ e.2.2.isStorageError = false ∧
    ∃ q, s.tasks[e.1]? = some q ∧ DecidedTask s.world.statusLog e.2.1 e.2.2 q
  pending : ∀ i r p, rs[i]? = some r → s.tasks[i]? = some p → i ∉ lin.map (·.1) →
    Undecided checks s.world.store r p

theorem linearizedBy_init (checks : Checks) (log : String → Option StatusInfo) :
    (init log).LinearizedBy checks (init log).world [] [] :=
  ⟨Store.revisions_empty, rfl, rfl, List.nodup_nil, fun _ h => (nomatch h),
    fun _ _ _ h => by simp at h⟩

theorem LinearizedBy.lt_length {checks : Checks} {w0 : World} {s : Sys} {rs : List Request}
    {lin : List (Nat × Request × Reply)} (h : s.LinearizedBy checks w0 rs lin)
    {e : Nat × Request × Reply} (he : e ∈ lin) : e.1 < rs.length :=
  (List.getElem?_eq_some_iff.mp (h.done e he).1).1

/-! ### One task changes

A step changes at most one task `j`. If `j` is undecided before it, afterwards `j` is still to
decide and the world has not changed (`LinearizedBy.keep`), or this step decided it
(`LinearizedBy.push`). If `j` is decided, the step changes nothing but the task
(`LinearizedBy.advance_decided`). -/

section Update

variable {checks : Checks} {w0 : World} {s s' : Sys} {rs rs' : List Request}
  {lin : List (Nat × Request × Reply)} {j : Nat} {r : Request} {p : Prog Reply}
  (h : s.LinearizedBy checks w0 rs lin) (hj : j ∉ lin.map (·.1))
  (hrs : ∀ i, i ≠ j → rs'[i]? = rs[i]?) (hts : ∀ i, i ≠ j → s'.tasks[i]? = s.tasks[i]?)
  (hlog : s'.world.statusLog = s.world.statusLog)
  (hother : ∀ r p, Undecided checks s.world.store r p → Undecided checks s'.world.store r p)

include h hj hrs hts hlog in
theorem LinearizedBy.done_update : ∀ e ∈ lin, rs'[e.1]? = some e.2.1 ∧
    e.2.2.isStorageError = false ∧
    ∃ q, s'.tasks[e.1]? = some q ∧ DecidedTask s'.world.statusLog e.2.1 e.2.2 q := fun e he => by
  have hne : e.1 ≠ j := fun he' => hj (he' ▸ List.mem_map_of_mem _ he)
  rw [hrs _ hne, hts _ hne, hlog]
  exact h.done e he

include h hrs hts hother in
theorem LinearizedBy.pending_update {i : Nat} {r' : Request} {p' : Prog Reply} (hi : i ≠ j)
    (hr' : rs'[i]? = some r') (hp' : s'.tasks[i]? = some p') (hlin : i ∉ lin.map (·.1)) :
    Undecided checks s'.world.store r' p' := by
  rw [hrs _ hi] at hr'
  rw [hts _ hi] at hp'
  exact hother _ _ (h.pending i r' p' hr' hp' hlin)

variable (hrev : s'.world.store.Revisions)
  (hlen : rs'.length = s'.tasks.length) (hr : rs'[j]? = some r) (hp : s'.tasks[j]? = some p)

include h hj hrs hts hlog hother hrev hlen hr hp in
/-- Task `j` is still to decide, and the world has not changed. -/
theorem LinearizedBy.keep (hw : s'.world = s.world) (hpend : Undecided checks s'.world.store r p) :
    s'.LinearizedBy checks w0 rs' lin := by
  refine ⟨hrev, hlen, hw ▸ h.serial, h.nodup, h.done_update hj hrs hts hlog,
    fun i r' p' hr' hp' hlin => ?_⟩
  by_cases hi : i = j
  · subst hi
    rw [hr] at hr'
    rw [hp] at hp'
    cases hr'
    cases hp'
    exact hpend
  · exact h.pending_update hrs hts hother hi hr' hp' hlin

include h hj hrs hts hlog hother hrev hlen hr hp in
/-- This step decided task `j` without a storage error, and its request served alone from the
world before the step leaves the world after it and gets the reply the task gives. -/
theorem LinearizedBy.push (reply : Reply) (hst : reply.isStorageError = false)
    (hrun : (r.handle checks).run [] s.world = (s'.world, .done reply))
    (htask : DecidedTask s'.world.statusLog r reply p) :
    s'.LinearizedBy checks w0 rs' (lin ++ [(j, r, reply)]) := by
  refine ⟨hrev, hlen, ?_, ?_, fun e he => ?_, fun i r' p' hr' hp' hlin => ?_⟩
  · simp [seqRun_append_singleton, h.serial, hrun]
  · simpa [List.nodup_append, h.nodup] using hj
  · rcases List.mem_append.mp he with he | he
    · exact h.done_update hj hrs hts hlog e he
    · rw [List.mem_singleton.mp he]
      exact ⟨hr, hst, p, hp, htask⟩
  · simp only [List.map_append, List.map_cons, List.map_nil, List.mem_append,
      List.mem_singleton, not_or] at hlin
    exact h.pending_update hrs hts hother hlin.2 hr' hp' hlin.1

end Update

/-- A step of a decided task changes only that task, which stays decided. -/
theorem LinearizedBy.advance_decided {checks : Checks} {w0 : World} {s : Sys} {rs : List Request}
    {lin : List (Nat × Request × Reply)} (h : s.LinearizedBy checks w0 rs lin)
    {e : Nat × Request × Reply} (he : e ∈ lin) {q : Prog Reply} (hq : s.tasks[e.1]? = some q)
    (fail : Bool) : (s.step checks (.advance e.1 fail)).LinearizedBy checks w0 rs lin := by
  obtain ⟨-, -, q', hq', htask⟩ := h.done e he
  rw [hq] at hq'
  cases hq'
  obtain ⟨hw, htask'⟩ := htask.advance fail
  have hlt : e.1 < s.tasks.length := (List.getElem?_eq_some_iff.mp hq).1
  rw [step_advance_of_some fail hq, hw]
  refine ⟨h.revisions, by simp [h.length], h.serial, h.nodup, fun e' he' => ?_,
    fun i r p hr hp hlin => ?_⟩
  · obtain ⟨hr', hst', q'', hq'', htask''⟩ := h.done e' he'
    by_cases hee : e.1 = e'.1
    · cases List.inj_on_of_nodup_map h.nodup he he' hee
      exact ⟨hr', hst', _, List.getElem?_set_self hlt, htask'⟩
    · exact ⟨hr', hst', q'', (List.getElem?_set_ne hee).trans hq'', htask''⟩
  · have hne : e.1 ≠ i := fun hei => hlin (hei ▸ List.mem_map_of_mem _ he)
    rw [List.getElem?_set_ne hne] at hp
    exact h.pending i r p hr hp hlin

/-! ### Steps and runs -/

theorem LinearizedBy.arrive {checks : Checks} {w0 : World} {s : Sys} {rs : List Request}
    {lin : List (Nat × Request × Reply)} (h : s.LinearizedBy checks w0 rs lin) {r : Request}
    (hpr : r.PutOrRead) :
    ∃ lin', (s.step checks (.arrive r)).LinearizedBy checks w0 (rs ++ [r]) lin' := by
  have hj : rs.length ∉ lin.map (·.1) := fun hm => by
    obtain ⟨e, he, hej⟩ := List.mem_map.mp hm
    exact absurd (h.lt_length he) (by omega)
  have hts : ∀ i, i ≠ rs.length →
      (s.step checks (.arrive r)).tasks[i]? = s.tasks[i]? := fun i hi =>
    getElem?_concat_of_ne (h.length ▸ hi)
  have hlen : (rs ++ [r]).length = (s.step checks (.arrive r)).tasks.length := by
    simp [step, h.length]
  have hp : (s.step checks (.arrive r)).tasks[rs.length]? = some (r.handle checks) := by
    simp [step, h.length]
  have keep := h.keep hj (fun _ => getElem?_concat_of_ne) hts rfl (fun _ _ => id)
    h.revisions hlen (List.getElem?_concat_length _ _) hp rfl
  rcases hpr.shape checks with ⟨reply, hret⟩ | ⟨a, l, m, next, hr, hcall⟩ |
    ⟨hread, ⟨k, next, hcall, hnext⟩ | ⟨a, l, next, hcall, hnext⟩⟩
  · cases hst : reply.isStorageError
    · exact ⟨_, h.push hj (fun _ => getElem?_concat_of_ne) hts rfl (fun _ _ => id)
        h.revisions hlen (List.getElem?_concat_length _ _) hp reply hst (by rw [hret]; rfl)
        (.inl hret)⟩
    · exact ⟨_, keep (hret ▸ .failed reply hst)⟩
  · exact ⟨_, keep (hcall ▸ .fresh a l m next hr hcall)⟩
  · exact ⟨_, keep (hcall ▸ .read k next hread hcall hnext)⟩
  · exact ⟨_, keep (hcall ▸ .listing a l next hread hcall hnext)⟩

theorem LinearizedBy.advance {checks : Checks} {w0 : World} {s : Sys} {rs : List Request}
    {lin : List (Nat × Request × Reply)} (h : s.LinearizedBy checks w0 rs lin)
    (hpr : ∀ r ∈ rs, r.PutOrRead) (j : Nat) (fail : Bool) :
    ∃ lin', (s.step checks (.advance j fail)).LinearizedBy checks w0 rs lin' := by
  rcases hp : s.tasks[j]? with _ | p
  · exact ⟨lin, (step_advance_of_none fail hp).symm ▸ h⟩
  have hjlt : j < s.tasks.length := (List.getElem?_eq_some_iff.mp hp).1
  obtain ⟨r, hr⟩ : ∃ r, rs[j]? = some r :=
    Option.isSome_iff_exists.mp (by simp [h.length, hjlt])
  by_cases hj : j ∈ lin.map (·.1)
  · obtain ⟨e, he, rfl⟩ := List.mem_map.mp hj
    exact ⟨lin, h.advance_decided he hp fail⟩
  have hpend := h.pending j r p hr hp hj
  rw [step_advance_of_some fail hp]
  have hts : ∀ i, i ≠ j → (s.tasks.set j (p.advance fail s.world).2)[i]? = s.tasks[i]? :=
    fun i hi => List.getElem?_set_ne (Ne.symm hi)
  have hlen : rs.length = (s.tasks.set j (p.advance fail s.world).2).length := by
    simp [h.length]
  have hother : ∀ r q, Undecided checks s.world.store r q →
      Undecided checks (p.advance fail s.world).1.store r q := fun _ _ hq => hq.advance_store fail
  rcases hpend.advance (hpr r (List.getElem?_mem hr)) h.revisions fail with
    ⟨hw, hpend'⟩ | ⟨reply, hst, hrun, htask⟩
  · exact ⟨lin, h.keep hj (fun _ _ => rfl) hts (p.advance_statusLog fail _) hother
      (Prog.advance_revisions fail h.revisions) hlen hr
      (List.getElem?_set_self hjlt) hw (by rw [hw]; exact hpend')⟩
  · exact ⟨_, h.push hj (fun _ _ => rfl) hts (p.advance_statusLog fail _) hother
      (Prog.advance_revisions fail h.revisions) hlen hr
      (List.getElem?_set_self hjlt) reply hst hrun (by rw [p.advance_statusLog]; exact htask)⟩

theorem LinearizedBy.run {checks : Checks} {w0 : World} {s : Sys} {rs : List Request}
    {lin : List (Nat × Request × Reply)} (h : s.LinearizedBy checks w0 rs lin) (events : List Event)
    (hpr : ∀ r ∈ rs ++ arrivals events, r.PutOrRead) :
    ∃ lin', (s.run checks events).LinearizedBy checks w0 (rs ++ arrivals events) lin' := by
  induction events generalizing s rs lin with
  | nil => exact ⟨lin, by simpa [arrivals] using h⟩
  | cons e events ih =>
    cases e with
    | arrive r =>
      obtain ⟨lin', h'⟩ := h.arrive (hpr r (by simp [arrivals]))
      simpa [arrivals] using ih h' (by simpa [arrivals] using hpr)
    | advance j fail =>
      obtain ⟨lin', h'⟩ := h.advance (fun r hr => hpr r (List.mem_append_left _ hr)) j fail
      exact ih h' hpr

/-! ### The decided requests that replied are the answered ones -/

/-- The tasks that have replied without a storage error, with their indices, requests and
replies, in arrival order. -/
def decided (s : Sys) (rs : List Request) : List (Nat × Request × Reply) :=
  (List.range rs.length).filterMap fun i => rs[i]?.bind fun r =>
    (s.tasks[i]?.bind Prog.reply?).bind fun reply =>
      if reply.isStorageError then none else some (i, r, reply)

theorem mem_decided {s : Sys} {rs : List Request} {i : Nat} {r : Request} {reply : Reply} :
    (i, r, reply) ∈ s.decided rs ↔
      rs[i]? = some r ∧ s.tasks[i]?.bind Prog.reply? = some reply ∧ reply.isStorageError = false := by
  simp only [decided, List.mem_filterMap, List.mem_range, Option.bind_eq_some]
  constructor
  · rintro ⟨i', -, r', hr', reply', hp', hsome⟩
    split at hsome
    · cases hsome
    · rename_i hst
      cases hsome
      exact ⟨hr', hp', by simpa using hst⟩
  · rintro ⟨hr, hp, hst⟩
    exact ⟨i, (List.getElem?_eq_some_iff.mp hr).1, r, hr, reply, hp, by simp [hst]⟩

theorem nodup_decided (s : Sys) (rs : List Request) : (s.decided rs).Nodup := by
  refine (List.nodup_range _).filterMap fun a a' b hb hb' => ?_
  have index : ∀ {a}, b ∈ (fun i => rs[i]?.bind fun r => (s.tasks[i]?.bind Prog.reply?).bind
      fun reply => if reply.isStorageError then none else some (i, r, reply)) a → b.1 = a := by
    intro a hb
    simp only [Option.mem_def, Option.bind_eq_some] at hb
    obtain ⟨r, -, reply, -, hsome⟩ := hb
    split at hsome
    · cases hsome
    · cases hsome
      rfl
  exact (index hb).symm.trans (index hb')

theorem answered_filter (s : Sys) (rs : List Request) :
    (s.answered rs).filter (fun e => !e.2.isStorageError) = (s.decided rs).map (·.2) := by
  simp only [answered, decided, List.filter_filterMap, List.map_filterMap]
  refine List.filterMap_congr fun i _ => ?_
  rcases rs[i]? with _ | r
  · rfl
  rcases s.tasks[i]?.bind Prog.reply? with _ | reply
  · rfl
  cases hst : reply.isStorageError <;> simp [Option.filter, hst]

/-- Whether the task of a decided request has replied. -/
def replied (s : Sys) (e : Nat × Request × Reply) : Bool := (s.tasks[e.1]?.bind Prog.reply?).isSome

theorem LinearizedBy.perm_decided {checks : Checks} {w0 : World} {s : Sys} {rs : List Request}
    {lin : List (Nat × Request × Reply)} (h : s.LinearizedBy checks w0 rs lin) :
    (lin.filter s.replied).Perm (s.decided rs) := by
  refine (List.perm_ext_iff_of_nodup ((List.Nodup.of_map _ h.nodup).filter _)
    (nodup_decided s rs)).mpr fun ⟨i, r, reply⟩ => ?_
  rw [List.mem_filter, mem_decided]
  constructor
  · rintro ⟨he, hrep⟩
    obtain ⟨hr, hst, q, hq, htask⟩ := h.done _ he
    obtain ⟨x, hx⟩ := Option.isSome_iff_exists.mp hrep
    obtain ⟨q', hq', hxq⟩ := Option.bind_eq_some.mp hx
    rw [hq, Option.some.injEq] at hq'
    subst hq'
    have hx' : x = reply := htask.reply? hxq
    exact ⟨hr, hx' ▸ hx, hst⟩
  · rintro ⟨hr, hp, hst⟩
    refine ⟨?_, by simp [replied, hp]⟩
    obtain ⟨p, hp, hreply⟩ := Option.bind_eq_some.mp hp
    by_cases hi : i ∈ lin.map (·.1)
    · obtain ⟨⟨i', r', reply'⟩, he, rfl⟩ := List.mem_map.mp hi
      obtain ⟨hr', -, q, hq, htask⟩ := h.done _ he
      rw [hr] at hr'
      rw [hp, Option.some.injEq] at hq
      cases hr'
      subst hq
      cases htask.reply? hreply
      exact he
    · exact absurd ((h.pending i r p hr hp hi).reply? hreply) (by simp [hst])

/-- Requests that write nothing can be left out of a run one at a time. -/
theorem seqRun_filter (checks : Checks) (f : Nat × Request × Reply → Bool) :
    ∀ (w : World) (lin : List (Nat × Request × Reply)),
      (∀ e ∈ lin, f e = false → ∀ w, ((e.2.1.handle checks).run [] w).1 = w) →
      (seqRun checks w (lin.map (·.2.1))).2 = lin.map (fun e => .done e.2.2) →
      seqRun checks w ((lin.filter f).map (·.2.1)) =
        ((seqRun checks w (lin.map (·.2.1))).1, (lin.filter f).map fun e => .done e.2.2)
  | _, [], _, _ => rfl
  | w, e :: lin, hkeep, hserial => by
    simp only [List.map_cons, seqRun, List.cons.injEq] at hserial ⊢
    have ih := seqRun_filter checks f _ lin (fun e' he' => hkeep e' (List.mem_cons_of_mem _ he'))
      hserial.2
    cases hf : f e
    · rw [List.filter_cons_of_neg (by simp [hf]), hkeep e (List.mem_cons_self _ _) hf w] at *
      exact ih
    · rw [List.filter_cons_of_pos hf, List.map_cons, seqRun, ih, hserial.1]
      rfl

/-- Served one at a time in the order the run decided them, the requests that replied without a
storage error leave the world the run left, and each gets its reply. -/
theorem LinearizedBy.linearizable {checks : Checks} {w0 : World} {s : Sys} {rs : List Request}
    {lin : List (Nat × Request × Reply)} (h : s.LinearizedBy checks w0 rs lin) :
    LinearizableRun checks w0 (s.answered rs) s.world := by
  have hkeep : ∀ e ∈ lin, s.replied e = false → ∀ w, ((e.2.1.handle checks).run [] w).1 = w := by
    intro e he hrep w
    obtain ⟨-, -, q, hq, htask⟩ := h.done e he
    rcases htask with rfl | ⟨hread, -⟩
    · simp [replied, hq, Prog.reply?] at hrep
    · exact hread.run_keeps checks w
  have hs := seqRun_filter checks s.replied w0 lin hkeep (by rw [h.serial])
  rw [h.serial] at hs
  refine ⟨(lin.filter s.replied).map (·.2), answered_filter s rs ▸ h.perm_decided.map _, ?_⟩
  rw [List.map_map, List.map_map]
  exact hs

end Sys

/-- Two puts of `app` race, read absent by both, while a `get_model` and a `model_status` read it. -/
def racingPutsAndReads : List Event :=
  [.arrive (.put none "default" (.ok ⟨⟨"app", [], []⟩, "v1", []⟩)),
    .arrive (.put none "default" (.ok ⟨⟨"app", [], []⟩, "v2", []⟩)),
    .arrive (.get none "default" "app" .empty), .arrive (.status none "default" "app"),
    .advance 0 false, .advance 1 false, .advance 0 false, .advance 2 false, .advance 3 false,
    .advance 1 false]

/-- The second put replies a storage error and the status read has not replied, so the first put
and the get are linearized. -/
example : (((Sys.init fun _ => none).run Checks.acceptAll racingPutsAndReads).answered
    (arrivals racingPutsAndReads)).map (·.2.isStorageError) = [false, true, false] := by decide

end Wadm
