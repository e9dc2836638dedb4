import DistSys.Lib.Transition
import DistSys.Kvsrv1.Clerk
import DistSys.Kvraft1.Server

/- Clerks of the replicated store: kvraft1/client.go, and the handlers `Get` and `Put` of
   kvraft1/server.go.

   What is below the handlers is one agreed log. An RPC that was sent may put its command into the
   log once, at any time or never. A replica executes the log in order, and what it computes for
   the command of one of its own handlers is what `Submit` may return there with OK; `Submit` may
   return ErrWrongLeader at any time, and the command may still be committed later. A replica may
   take a snapshot, start again from nothing, or be restored from any snapshot ever taken. That is
   more than the replicas of rsm do, so what holds here holds over them.

   `Call` may return false at any time. A reply that arrives is decoded over the one before, which
   had ErrWrongLeader and nothing else set, so it is the new one. The number of a call and of an
   attempt are not in the source: they say which `Call` a command belongs to. -/
namespace DistSys.Kvraft1

open Lib
open Kvsrv1 (Err Tversion GetReply Op Reply)

/-! ## The handlers -/

/-- What `Submit` returns: an error, or OK with a result. -/
abbrev Submitted := Except Err RaftReplyMsg

/-- The reply of the handler `Get`. A handler that does not reach `Submit` replies as if it had
returned ErrWrongLeader. -/
def getReply : Submitted → GetReply
  | .error err => ⟨"", 0, err⟩
  | .ok response =>
    if response.command = .get then ⟨response.value, response.version, response.err⟩
    else ⟨"", 0, .errWrongLeader⟩

/-- The reply of the handler `Put`. -/
def putReply : Submitted → Kvsrv1.PutReply
  | .error err => ⟨err⟩
  | .ok response => if response.command = .put then ⟨response.err⟩ else ⟨.errWrongLeader⟩

def handlerReply (op : Op) (submitted : Submitted) : Reply :=
  match op with
  | .get _ => .get (getReply submitted)
  | .put _ _ _ => .put (putReply submitted)

/-- One RPC: its arguments, the call that it was sent by and the server that it was sent to. -/
structure Request where
  clientId : Int64
  seqNum : Int64
  op : Op
  call : Nat
  server : Nat
  deriving DecidableEq

/-- The command that the handler submits. -/
def Request.raftReq (req : Request) : RaftReqMsg :=
  match req.op with
  | .get key => ⟨.get, key, "", req.seqNum, req.clientId, 0⟩
  | .put key value version => ⟨.put, key, value, req.seqNum, req.clientId, version⟩

/-! ## The Clerk -/

/-- A `Get` or `Put` of a Clerk, in its loop. `idx` is the server of the inner loop that is tried,
`none` the previous leader, which is tried before it. Only `Put` reads `retried`. -/
structure Call where
  number : Nat
  op : Op
  seqNum : Int64
  idx : Option Nat
  retried : Bool
  attempt : Nat
  deriving DecidableEq

structure Clerk where
  seqNum : Int64
  leaderIdx : Nat
  calls : Nat
  call : Option Call
  deriving DecidableEq

/-- The server that is tried next: the inner loop leaves the previous leader out, and after its last
server the outer loop begins again. -/
def nextIdx (servers leaderIdx : Nat) (idx : Option Nat) : Option Nat :=
  let next := match idx with
    | none => 0
    | some idx => idx + 1
  let next := if next = leaderIdx then next + 1 else next
  if next < servers then some next else none

/-- What the Clerk returns for a reply; `none` when it goes on to the next server. -/
def Call.answer (call : Call) : Reply → Option Reply
  | .get reply => if reply.err = .ok ∨ reply.err = .errNoKey then some (.get reply) else none
  | .put reply =>
    if reply.err ≠ .errWrongLeader then
      some (.put (if reply.err = .errVersion ∧ call.retried = true then ⟨.errMaybe⟩ else reply))
    else none

/-! ## The system -/

structure Replica where
  kv : KVServer
  applied : Nat

structure State where
  clerks : Int64 → Clerk
  /-- the RPCs by the number of the attempt -/
  sent : List Request
  /-- the committed commands, with the attempt that each is from -/
  log : List (Nat × Request)
  replicas : Nat → Replica
  snapshots : List (SnapshotData × Nat)
  /-- what the replica of an attempt computed for it -/
  results : Nat → Option RaftReplyMsg
  replies : Nat → Option Reply

inductive Action where
  /-- a client calls `Get` or `Put` -/
  | call (clientId : Int64) (op : Op)
  | commit (attempt : Nat)
  /-- a replica executes the next command of the log -/
  | apply (server : Nat)
  | snapshot (server : Nat)
  | restore (server i : Nat)
  | restart (server : Nat)
  /-- `Submit` returns OK -/
  | succeed (attempt : Nat)
  /-- `Submit` returns ErrWrongLeader, or the handler does not get to it -/
  | refuse (attempt : Nat)
  /-- `Call` returns true -/
  | deliver (clientId : Int64)
  /-- `Call` returns false -/
  | fail (clientId : Int64)
  deriving DecidableEq

namespace State

def setClerk (s : State) (clientId : Int64) (clerk : Clerk) : State :=
  { s with clerks := Function.update s.clerks clientId clerk }

def setReplica (s : State) (server : Nat) (replica : Replica) : State :=
  { s with replicas := Function.update s.replicas server replica }

def setReply (s : State) (attempt : Nat) (reply : Reply) : State :=
  { s with replies := Function.update s.replies attempt (some reply) }

/-- The client sends the RPC of its call, to the server that the call is at. -/
def send (s : State) (clientId : Int64) (clerk : Clerk) (call : Call) : State :=
  let call := { call with attempt := s.sent.length }
  let req : Request :=
    ⟨clientId, call.seqNum, call.op, call.number, call.idx.getD clerk.leaderIdx⟩
  { s with sent := s.sent ++ [req] }.setClerk clientId { clerk with call := some call }

/-- The call that a client makes next. -/
def newCall (s : State) (clientId : Int64) (op : Op) : Call :=
  let clerk := s.clerks clientId
  ⟨clerk.calls + 1, op, clerk.seqNum + 1, none, false, s.sent.length⟩

def begin (s : State) (clientId : Int64) (op : Op) : State :=
  let clerk := s.clerks clientId
  let call := s.newCall clientId op
  s.send clientId { clerk with seqNum := call.seqNum, calls := call.number } call

/-- The Clerk goes on to the next server. -/
def tryNext (servers : Nat) (s : State) (clientId : Int64) (call : Call) : State :=
  let clerk := s.clerks clientId
  s.send clientId clerk { call with idx := nextIdx servers clerk.leaderIdx call.idx }

/-- The call that returns by an action, with its client and what it returns. -/
def returned (s : State) : Action → Option (Int64 × Call × Reply)
  | .deliver clientId =>
    (s.clerks clientId).call.bind fun call =>
      (s.replies call.attempt).bind fun reply =>
        (call.answer reply).map fun answer => (clientId, call, answer)
  | _ => none

/-- The state after a return: the server that answered is the leader from now on. -/
def finish (s : State) (clientId : Int64) (call : Call) : State :=
  let clerk := s.clerks clientId
  s.setClerk clientId { clerk with leaderIdx := call.idx.getD clerk.leaderIdx, call := none }

/-- A replica executes a command; the result is for the handler that waits there for it. -/
def execute (s : State) (server : Nat) (attempt : Nat) (req : Request) : State :=
  let replica := s.replicas server
  let (kv, reply) := replica.kv.doOp (.raftReq req.raftReq)
  { s.setReplica server ⟨kv, replica.applied + 1⟩ with
    results := if req.server = server then Function.update s.results attempt (some reply)
      else s.results }

-- `Snapshot` has eleven turns of its loop: it returns after them or never.
def step (servers : Nat) (s : State) : Action → Option State
  | .call clientId op =>
    if (s.clerks clientId).call = none then some (s.begin clientId op) else none
  | .commit attempt => s.sent[attempt]?.bind fun req =>
      if ∀ entry ∈ s.log, entry.1 ≠ attempt then
        some { s with log := s.log ++ [(attempt, req)] }
      else none
  | .apply server => s.log[(s.replicas server).applied]?.map fun entry =>
      s.execute server entry.1 entry.2
  | .snapshot server => ((s.replicas server).kv.snapshot 11).map fun data =>
      { s with snapshots := s.snapshots ++ [(data, (s.replicas server).applied)] }
  | .restore server i => s.snapshots[i]?.map fun taken =>
      s.setReplica server ⟨(s.replicas server).kv.restore (some taken.1), taken.2⟩
  | .restart server => some (s.setReplica server ⟨.empty, 0⟩)
  | .succeed attempt =>
    match s.sent[attempt]?, s.results attempt, s.replies attempt with
    | some req, some result, none => some (s.setReply attempt (handlerReply req.op (.ok result)))
    | _, _, _ => none
  | .refuse attempt =>
    match s.sent[attempt]?, s.replies attempt with
    | some req, none => some (s.setReply attempt (handlerReply req.op (.error .errWrongLeader)))
    | _, _ => none
  | .deliver clientId =>
    match (s.clerks clientId).call with
    | some call => (s.replies call.attempt).map fun reply =>
        if (call.answer reply).isSome then s.finish clientId call
        else s.tryNext servers clientId call
    | none => none
  | .fail clientId => (s.clerks clientId).call.map fun call =>
      s.tryNext servers clientId { call with retried := true }

def initial : State where
  clerks _ := ⟨0, 0, 0, none⟩
  sent := []
  log := []
  replicas _ := ⟨.empty, 0⟩
  snapshots := []
  results _ := none
  replies _ := none

end State

/-- Clerks of a group of servers. -/
def kvraft (servers : Nat) : Lts State Action where
  init s := s = .initial
  step s a t := s.step servers a = some t

namespace State

variable {servers : Nat} {s t : State}

/-! ## What each action does -/

theorem step_call {c : Int64} {op : Op} (h : s.step servers (.call c op) = some t) :
    (s.clerks c).call = none ∧ t = s.begin c op := by
  obtain ⟨hidle, ht⟩ := Option.ite_none_right_eq_some.mp h
  exact ⟨hidle, (Option.some.inj ht).symm⟩

theorem step_commit {a : Nat} (h : s.step servers (.commit a) = some t) :
    ∃ req, s.sent[a]? = some req ∧ t = { s with log := s.log ++ [(a, req)] } := by
  obtain ⟨req, hreq, ht⟩ := Option.bind_eq_some_iff.mp h
  obtain ⟨-, ht⟩ := Option.ite_none_right_eq_some.mp ht
  exact ⟨req, hreq, (Option.some.inj ht).symm⟩

theorem step_apply {r : Nat} (h : s.step servers (.apply r) = some t) :
    ∃ a req, s.log[(s.replicas r).applied]? = some (a, req) ∧ t = s.execute r a req := by
  obtain ⟨⟨a, req⟩, hentry, ht⟩ := Option.map_eq_some_iff.mp h
  exact ⟨a, req, hentry, ht.symm⟩

theorem step_snapshot {r : Nat} (h : s.step servers (.snapshot r) = some t) :
    ∃ data, (s.replicas r).kv.snapshot 11 = some data ∧
      t = { s with snapshots := s.snapshots ++ [(data, (s.replicas r).applied)] } := by
  obtain ⟨data, hdata, ht⟩ := Option.map_eq_some_iff.mp h
  exact ⟨data, hdata, ht.symm⟩

theorem step_restore {r i : Nat} (h : s.step servers (.restore r i) = some t) :
    ∃ data applied, (data, applied) ∈ s.snapshots ∧
      t = s.setReplica r ⟨(s.replicas r).kv.restore (some data), applied⟩ := by
  obtain ⟨⟨data, applied⟩, hmem, ht⟩ := Option.map_eq_some_iff.mp h
  exact ⟨data, applied, List.mem_of_getElem? hmem, ht.symm⟩

theorem step_restart {r : Nat} (h : s.step servers (.restart r) = some t) :
    t = s.setReplica r ⟨.empty, 0⟩ :=
  (Option.some.inj h).symm

theorem step_succeed {a : Nat} (h : s.step servers (.succeed a) = some t) :
    ∃ req result, s.sent[a]? = some req ∧ s.results a = some result ∧
      t = s.setReply a (handlerReply req.op (.ok result)) := by
  simp only [step] at h
  split at h
  · rename_i req result hreq hresult _
    exact ⟨req, result, hreq, hresult, (Option.some.inj h).symm⟩
  · contradiction

theorem step_refuse {a : Nat} (h : s.step servers (.refuse a) = some t) :
    ∃ req, s.sent[a]? = some req ∧
      t = s.setReply a (handlerReply req.op (.error .errWrongLeader)) := by
  simp only [step] at h
  split at h
  · rename_i req hreq _
    exact ⟨req, hreq, (Option.some.inj h).symm⟩
  · contradiction

theorem returned_eq_some {a : Action} {c : Int64} {call : Call} {answer : Reply}
    (h : s.returned a = some (c, call, answer)) : a = .deliver c ∧ (s.clerks c).call = some call ∧
      ∃ reply, s.replies call.attempt = some reply ∧ call.answer reply = some answer := by
  cases a with
  | deliver c' =>
    obtain ⟨call', hcall, h⟩ := Option.bind_eq_some_iff.mp h
    obtain ⟨reply, hreply, h⟩ := Option.bind_eq_some_iff.mp h
    obtain ⟨answer', hanswer, h⟩ := Option.map_eq_some_iff.mp h
    obtain ⟨rfl, rfl, rfl⟩ : c' = c ∧ call' = call ∧ answer' = answer := by simpa using h
    exact ⟨rfl, hcall, reply, hreply, hanswer⟩
  | _ => contradiction

/-- A reply makes the call return, or sends the Clerk on. -/
theorem step_deliver {c : Int64} (h : s.step servers (.deliver c) = some t) :
    ∃ call, (s.clerks c).call = some call ∧
      ((∃ answer, s.returned (.deliver c) = some (c, call, answer) ∧ t = s.finish c call) ∨
        t = s.tryNext servers c call) := by
  simp only [step] at h
  split at h
  · rename_i call hcall
    obtain ⟨reply, hreply, ht⟩ := Option.map_eq_some_iff.mp h
    refine ⟨call, hcall, ?_⟩
    split at ht
    · rename_i hsome
      obtain ⟨answer, hanswer⟩ := Option.isSome_iff_exists.mp hsome
      exact Or.inl ⟨answer, by simp [returned, hcall, hreply, hanswer], ht.symm⟩
    · exact Or.inr ht.symm
  · contradiction

theorem step_fail {c : Int64} (h : s.step servers (.fail c) = some t) :
    ∃ call, (s.clerks c).call = some call ∧
      t = s.tryNext servers c { call with retried := true } := by
  obtain ⟨call, hcall, ht⟩ := Option.map_eq_some_iff.mp h
  exact ⟨call, hcall, ht.symm⟩

/-- The committed commands stay where they are. -/
theorem log_extends {a : Action} (h : s.step servers a = some t) : s.log <+: t.log := by
  cases a with
  | call c op =>
    obtain ⟨-, rfl⟩ := step_call h
    exact List.prefix_rfl
  | commit a =>
    obtain ⟨req, -, rfl⟩ := step_commit h
    exact List.prefix_append _ _
  | apply r =>
    obtain ⟨a, req, -, rfl⟩ := step_apply h
    exact List.prefix_rfl
  | snapshot r =>
    obtain ⟨data, -, rfl⟩ := step_snapshot h
    exact List.prefix_rfl
  | restore r i =>
    obtain ⟨data, applied, -, rfl⟩ := step_restore h
    exact List.prefix_rfl
  | restart r =>
    obtain rfl := step_restart h
    exact List.prefix_rfl
  | succeed a =>
    obtain ⟨req, result, -, -, rfl⟩ := step_succeed h
    exact List.prefix_rfl
  | refuse a =>
    obtain ⟨req, -, rfl⟩ := step_refuse h
    exact List.prefix_rfl
  | deliver c =>
    obtain ⟨call, -, ⟨answer, -, rfl⟩ | rfl⟩ := step_deliver h
    · exact List.prefix_rfl
    · exact List.prefix_rfl
  | fail c =>
    obtain ⟨call, -, rfl⟩ := step_fail h
    exact List.prefix_rfl

end State

end DistSys.Kvraft1
