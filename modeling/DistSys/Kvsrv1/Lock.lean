import DistSys.Kvsrv1.Clerk

/- Locks over the key/value server: kvsrv1/lock/lock.go.

   A client is at a point of `Acquire` or `Release`, or between them. Its Clerk calls are those
   of `Clerk.lean`, one at a time: `next` makes the call that the client's code comes to, and a
   `deliver` that lets it return moves the client on by the answer. Between `Acquire` and
   `Release`, and outside, a client may call anything but a `Put` on the key of the lock. -/
namespace DistSys.Kvsrv1

open Lib

/-- The lock objects on one key; `MakeLock` draws a `clientID` for each client. -/
structure Locks where
  key : String
  clientID : Int64 → String
  distinct : Function.Injective clientID
  nonempty : ∀ c, clientID c ≠ ""

/-- Where a client is. -/
inductive Phase where
  /-- after `Release`, or before the first `Acquire` -/
  | outside
  /-- at the top of the loop of `Acquire` -/
  | acquireLoop
  | acquireGet
  /-- about to put its `clientID` at a version -/
  | acquireGrab (ver : Tversion)
  | acquirePut
  /-- after `Acquire` returned -/
  | holding
  /-- at the top of the loop of `Release` -/
  | releaseLoop
  | releaseGet
  /-- about to put the empty string at a version -/
  | releaseDrop (ver : Tversion)
  | releasePut
  deriving DecidableEq

namespace Locks

variable (L : Locks) (c : Int64)

/-- The Clerk call that the client's code comes to. -/
def nextCall : Phase → Option (Op × Phase)
  | .acquireLoop => some (.get L.key, .acquireGet)
  | .acquireGrab ver => some (.put L.key (L.clientID c) ver, .acquirePut)
  | .releaseLoop => some (.get L.key, .releaseGet)
  | .releaseDrop ver => some (.put L.key "" ver, .releasePut)
  | _ => none

/-- `Acquire` after its `Get`. -/
def acquireAfterGet (reply : GetReply) : Phase :=
  if reply.err = .errNoKey then .acquireGrab 0
  else if reply.err = .ok then
    if reply.value = L.clientID c then .holding
    else if reply.value = "" then .acquireGrab reply.version
    else .acquireLoop
  else .acquireLoop

/-- `Acquire` after a `Put`. -/
def acquireAfterPut (reply : PutReply) : Phase :=
  if reply.err = .ok then .holding else .acquireLoop

/-- `Release` after its `Get`. -/
def releaseAfterGet (reply : GetReply) : Phase :=
  if reply.err = .errNoKey then .outside
  else if reply.err = .ok then
    if reply.value = L.clientID c then .releaseDrop reply.version else .outside
  else .releaseLoop

/-- `Release` after its `Put`. -/
def releaseAfterPut (reply : PutReply) : Phase :=
  if reply.err = .ok then .outside else .releaseLoop

/-- A call returns. -/
def afterReturn : Phase → Reply → Phase
  | .acquireGet, .get reply => L.acquireAfterGet c reply
  | .acquirePut, .put reply => acquireAfterPut reply
  | .releaseGet, .get reply => L.releaseAfterGet c reply
  | .releasePut, .put reply => releaseAfterPut reply
  | phase, _ => phase

end Locks

/-- Whether a call is a `Put` on the key. -/
def Op.putsOn (key : String) : Op → Bool
  | .get _ => false
  | .put key' _ _ => key' = key

structure LockState where
  kv : State
  phase : Int64 → Phase

inductive LockAction where
  /-- a client calls `Acquire` -/
  | acquire (clientId : Int64)
  /-- a client calls `Release` -/
  | release (clientId : Int64)
  | next (clientId : Int64)
  /-- a call outside `Acquire` and `Release` -/
  | other (clientId : Int64) (op : Op)
  | execute (i : Nat)
  | drop (i : Nat)
  | deliver (clientId : Int64) (i : Nat)
  | fail (clientId : Int64)
  deriving DecidableEq

namespace LockState

variable (L : Locks) (s : LockState)

def setPhase (c : Int64) (phase : Phase) : LockState :=
  { s with phase := Function.update s.phase c phase }

/-- A client that is not in a call turns from one point of its code to another. -/
def turn (c : Int64) (here there : Phase) : Option LockState :=
  if s.phase c = here ∧ (s.kv.clerks c).call = none then some (s.setPhase c there) else none

def step : LockAction → Option LockState
  | .acquire c => s.turn c .outside .acquireLoop
  | .release c => s.turn c .holding .releaseLoop
  | .next c => (L.nextCall c (s.phase c)).bind fun x =>
      (s.kv.step (.call c x.1)).map fun kv => { s with kv := kv }.setPhase c x.2
  | .other c op =>
    if (s.phase c = .outside ∨ s.phase c = .holding) ∧ op.putsOn L.key = false then
      (s.kv.step (.call c op)).map fun kv => { s with kv := kv }
    else none
  | .execute i => (s.kv.step (.execute i)).map fun kv => { s with kv := kv }
  | .drop i => (s.kv.step (.drop i)).map fun kv => { s with kv := kv }
  | .deliver c i => (s.kv.returned (.deliver c i)).bind fun x =>
      (s.kv.step (.deliver c i)).map fun kv =>
        { s with kv := kv }.setPhase c (L.afterReturn c (s.phase c) x.2)
  | .fail c => (s.kv.step (.fail c)).map fun kv => { s with kv := kv }

def initial : LockState := { kv := .initial, phase := fun _ => .outside }

/-- What an action does at the Clerks and the server. -/
def kvAction : LockAction → Option Action
  | .acquire _ => none
  | .release _ => none
  | .next c => (L.nextCall c (s.phase c)).map fun x => .call c x.1
  | .other c op => some (.call c op)
  | .execute i => some (.execute i)
  | .drop i => some (.drop i)
  | .deliver c i => some (.deliver c i)
  | .fail c => some (.fail c)

end LockState

/-- Clients of the locks. -/
def locks (L : Locks) : Lts LockState LockAction where
  init s := s = .initial
  step s a t := s.step L a = some t

namespace LockState

variable {L : Locks} {s t : LockState}

/-! ## What each action does -/

theorem step_turn {c : Int64} {here there : Phase} (h : s.turn c here there = some t) :
    s.phase c = here ∧ (s.kv.clerks c).call = none ∧ t = s.setPhase c there := by
  unfold turn at h
  split at h
  · rename_i hhere
    exact ⟨hhere.1, hhere.2, (Option.some.inj h).symm⟩
  · contradiction

theorem step_next {c : Int64} (h : s.step L (.next c) = some t) :
    ∃ op phase kv, L.nextCall c (s.phase c) = some (op, phase) ∧
      s.kv.step (.call c op) = some kv ∧ t = { s with kv := kv }.setPhase c phase := by
  obtain ⟨⟨op, phase⟩, hnext, h⟩ := Option.bind_eq_some_iff.mp h
  obtain ⟨kv, hkv, ht⟩ := Option.map_eq_some_iff.mp h
  exact ⟨op, phase, kv, hnext, hkv, ht.symm⟩

theorem step_other {c : Int64} {op : Op} (h : s.step L (.other c op) = some t) :
    (s.phase c = .outside ∨ s.phase c = .holding) ∧ op.putsOn L.key = false ∧
      ∃ kv, s.kv.step (.call c op) = some kv ∧ t = { s with kv := kv } := by
  simp only [step] at h
  split at h
  · rename_i hother
    obtain ⟨kv, hkv, ht⟩ := Option.map_eq_some_iff.mp h
    exact ⟨hother.1, hother.2, kv, hkv, ht.symm⟩
  · contradiction

theorem step_deliver {c : Int64} {i : Nat} (h : s.step L (.deliver c i) = some t) :
    ∃ call reply kv, s.kv.returned (.deliver c i) = some (call, reply) ∧
      s.kv.step (.deliver c i) = some kv ∧
      t = { s with kv := kv }.setPhase c (L.afterReturn c (s.phase c) reply) := by
  obtain ⟨⟨call, reply⟩, hret, h⟩ := Option.bind_eq_some_iff.mp h
  obtain ⟨kv, hkv, ht⟩ := Option.map_eq_some_iff.mp h
  exact ⟨call, reply, kv, hret, hkv, ht.symm⟩

/-- An action is one action at the Clerks and the server, or none. -/
theorem step_kv {a : LockAction} (h : s.step L a = some t) :
    (s.kvAction L a = none ∧ t.kv = s.kv) ∨
      ∃ b, s.kvAction L a = some b ∧ s.kv.step b = some t.kv := by
  cases a with
  | acquire c =>
    obtain ⟨-, -, rfl⟩ := step_turn h
    exact Or.inl ⟨rfl, rfl⟩
  | release c =>
    obtain ⟨-, -, rfl⟩ := step_turn h
    exact Or.inl ⟨rfl, rfl⟩
  | next c =>
    obtain ⟨op, phase, kv, hnext, hkv, rfl⟩ := step_next h
    exact Or.inr ⟨.call c op, by simp [kvAction, hnext], hkv⟩
  | other c op =>
    obtain ⟨-, -, kv, hkv, rfl⟩ := step_other h
    exact Or.inr ⟨_, rfl, hkv⟩
  | execute i =>
    obtain ⟨kv, hkv, rfl⟩ := Option.map_eq_some_iff.mp h
    exact Or.inr ⟨_, rfl, hkv⟩
  | drop i =>
    obtain ⟨kv, hkv, rfl⟩ := Option.map_eq_some_iff.mp h
    exact Or.inr ⟨_, rfl, hkv⟩
  | deliver c i =>
    obtain ⟨call, reply, kv, -, hkv, rfl⟩ := step_deliver h
    exact Or.inr ⟨_, rfl, hkv⟩
  | fail c =>
    obtain ⟨kv, hkv, rfl⟩ := Option.map_eq_some_iff.mp h
    exact Or.inr ⟨_, rfl, hkv⟩

/-- A client makes its next call, which is answered at once. -/
theorem exchange_run {c : Int64} {op : Op} {phase : Phase} (hidle : (s.kv.clerks c).call = none)
    (hnext : L.nextCall c (s.phase c) = some (op, phase)) :
    ∃ tr, tr.length = 3 ∧
      (locks L).Run s tr ({ s with kv := s.kv.exchanged c op }.setPhase c (L.afterReturn c phase
        (s.kv.server.handle ((s.kv.newCall c op).request c)).2)) := by
  have hasked : (locks L).Run s [(s, .next c)] ({ s with kv := s.kv.asked c op }.setPhase c phase) := by
    refine Lts.Run.single ?_
    simp [locks, step, hnext, State.step_asked _ _ _ hidle]
  refine ⟨_, rfl, (hasked.snoc (a := .execute s.kv.pending.length)
    (u := { s with kv := s.kv.answered c op }.setPhase c phase) ?_).snoc
    (a := .deliver c s.kv.executed.length) ?_⟩
  · simp [locks, step, setPhase, State.step_answered]
  · simp [locks, step, setPhase, State.answered_returned, State.step_exchanged]

end LockState

/-! ## The run of the server under a run of the locks -/

/-- The steps of the Clerks and the server. -/
def kvTrace (L : Locks) (tr : List (LockState × LockAction)) : List (State × Action) :=
  tr.filterMap fun x => (x.1.kvAction L x.2).map fun b => (x.1.kv, b)

theorem kvTrace_run {L : Locks} {s t : LockState} {tr : List (LockState × LockAction)}
    (h : (locks L).Run s tr t) : kvsrv.Run s.kv (kvTrace L tr) t.kv := by
  induction h with
  | nil => exact .nil
  | @snoc tr u w a _ hstep ih =>
    rw [kvTrace, List.filterMap_append, ← kvTrace]
    rcases LockState.step_kv hstep with ⟨hnone, hsame⟩ | ⟨b, hb, hkv⟩
    · simpa [hnone, hsame] using ih
    · simpa [hb] using ih.snoc hkv

end DistSys.Kvsrv1
