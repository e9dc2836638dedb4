import DistSys.Kvraft1.Linearizable
import DistSys.Rsm.Steps
import DistSys.Rsm.Submit
import DistSys.Rsm.Deployed

/- The whole service: clerks, the handlers of kvraft1/server.go, the replicas of kvraft1/rsm and the
   peers of raft1.

   The clerks and the network between them and the servers are those of `State`. A handler that an
   RPC reaches may answer ErrWrongLeader at once, because its server is being made or was killed or
   because `GetState` says it does not lead; or it calls `Submit`, where leadership may have been lost
   in the meantime. It is gone with the server it runs on, and an RPC reaches at most one handler.

   The number of the attempt goes with the command, to say which RPC an entry of the log is from; no
   function reads it. A `Snapshot` that does not return is a step that is not made. -/
namespace DistSys.Kvraft1

open Lib
open Kvsrv1 (Err Op Reply)
open Rsm.Deployed (Codec)

/-- What a handler submits, with the number of its attempt. -/
abbrev Command := Nat × Request

/-- The server as the state machine of rsm. -/
def kvMachine : Rsm.StateMachine Command RaftReplyMsg where
  State := KVServer
  Bytes := Option SnapshotData
  init := .empty
  doOp := fun kv command => kv.doOp (.raftReq command.2.raftReq)
  snapshot := fun kv => kv.snapshot 11
  restore := fun kv data => kv.restore data

abbrev Servers (n : Nat) (D : Type) := Rsm.Deployed.State n kvMachine D

/-- `handlers` has, for the attempts whose handler called `Submit`, the incarnation of the server and
the place of the call there. -/
structure Service (n : Nat) (D : Type) where
  clerks : Int64 → Clerk
  sent : List Request
  replies : Nat → Option Reply
  handlers : Nat → Option (Nat × Nat)
  servers : Servers n D

namespace Service

inductive Action (n : Nat) where
  /-- a client calls `Get` or `Put` -/
  | call (clientId : Int64) (op : Op)
  /-- the handler of an attempt calls `Submit` -/
  | submit (attempt : Nat)
  /-- the handler returns without it -/
  | refuse (attempt : Nat)
  /-- the handler returns what `Submit` returned -/
  | answer (attempt : Nat)
  /-- `Call` returns true -/
  | deliver (clientId : Int64)
  /-- `Call` returns false -/
  | fail (clientId : Int64)
  | server (a : Rsm.Deployed.Action n Command)

variable {n : Nat} {D : Type}

/-- The clerks and the network. -/
def front (s : Service n D) : State :=
  { State.initial with clerks := s.clerks, sent := s.sent, replies := s.replies }

def setFront (s : Service n D) (front : State) : Service n D :=
  { s with clerks := front.clerks, sent := front.sent, replies := front.replies }

/-- The server that an RPC is sent to. -/
def target (n : Nat) (req : Request) : Option (Fin n) :=
  if h : req.server < n then some ⟨req.server, h⟩ else none

/-- What the handler makes of what `Submit` returned; a result that is not there is not of its type. -/
def submitted : Err × Option RaftReplyMsg → Submitted
  | (.ok, some result) => .ok result
  | (.ok, none) => .error .errWrongLeader
  | (err, _) => .error err

/-- The steps that servers make on their own. -/
def runsAlone (servers : Servers n D) : Rsm.Deployed.Action n Command → Bool
  | .call _ (.submit _) => false
  | .createSnapshot r => (KVServer.snapshot 11 (servers.server r).rsm.sm).isSome
  | _ => true

def step (codec : Codec (Option SnapshotData) D) (s : Service n D) : Action n → Option (Service n D)
  | .call clientId op => (s.front.step n (.call clientId op)).map s.setFront
  | .deliver clientId => (s.front.step n (.deliver clientId)).map s.setFront
  | .fail clientId => (s.front.step n (.fail clientId)).map s.setFront
  | .refuse attempt =>
    if s.handlers attempt = none then (s.front.step n (.refuse attempt)).map s.setFront else none
  | .submit attempt =>
    match s.sent[attempt]?, s.handlers attempt, s.replies attempt with
    | some req, none, none =>
      (target n req).bind fun r =>
        (s.servers.step codec (.call r (.submit (attempt, req)))).map fun servers =>
          { s with
            servers := servers
            handlers := Function.update s.handlers attempt
              (some ((s.servers.raft.proc r).incarnation, (s.servers.server r).rsm.calls.length)) }
    | _, _, _ => none
  | .answer attempt =>
    match s.sent[attempt]?, s.handlers attempt, s.replies attempt with
    | some req, some (incarnation, c), none =>
      (target n req).bind fun r =>
        if (s.servers.raft.proc r).incarnation = incarnation then
          ((s.servers.server r).rsm.calls[c]?.bind Rsm.Call.answer).map fun answer =>
            { s with
              replies := Function.update s.replies attempt
                (some (handlerReply req.op (submitted answer))) }
        else none
    | _, _, _ => none
  | .server a =>
    if runsAlone s.servers a then (s.servers.step codec a).map fun servers => { s with servers := servers }
    else none

def initial (n : Nat) (D : Type) (maxraftstate : Fin n → Int) : Service n D where
  clerks _ := ⟨0, 0, 0, none⟩
  sent := []
  replies _ := none
  handlers _ := none
  servers := .initial n kvMachine D maxraftstate

end Service

/-- The runs of the service. -/
def service (n : Nat) {D : Type} (codec : Codec (Option SnapshotData) D) (maxraftstate : Fin n → Int) :
    Lts (Service n D) (Service.Action n) where
  init s := s = .initial n D maxraftstate
  step s a t := s.step codec a = some t

namespace Service

variable {n : Nat} {D : Type}

/-! ## What is seen of a run -/

/-- The steps of the clerks that are calls or may be returns. -/
def Action.clerk : Action n → Option Kvraft1.Action
  | .call clientId op => some (.call clientId op)
  | .deliver clientId => some (.deliver clientId)
  | _ => none

def event (x : Service n D × Action n) : Option (Event (Int64 × Nat) Op Reply) :=
  x.2.clerk.bind fun a => Kvraft1.event (x.1.front, a)

def history (tr : List (Service n D × Action n)) : List (Event (Int64 × Nat) Op Reply) :=
  tr.filterMap event

/-! ## Conditions on a run -/

/-- The server whose reader handles a message. -/
def Action.handles : Action n → Option (Fin n)
  | .server (.handleMsg r _) => some r
  | _ => none

/-- When the reader takes the command of a message for the op that waits at its index, it is that
op. -/
def Recognized (s : Service n D) (a : Action n) : Prop :=
  ∀ r ∈ a.handles, ∀ msg ∈ (s.servers.server r).received, ∀ op ∈ msg.command,
    ∀ p ∈ (s.servers.server r).rsm.pendingAt msg.commandIndex, p.op.id = op.id → p.op = op

instance (s : Service n D) (a : Action n) : Decidable (s.Recognized a) :=
  inferInstanceAs (Decidable (∀ r ∈ a.handles, ∀ msg ∈ (s.servers.server r).received,
    ∀ op ∈ msg.command, ∀ p ∈ (s.servers.server r).rsm.pendingAt msg.commandIndex,
      p.op.id = op.id → p.op = op))

/-- The server and the call that `Start` is called for. -/
def Action.starts : Action n → Option (Fin n × Nat)
  | .server (.raft (.start r c)) => some (r, c)
  | .server (.crashIn _ (.start r c) _) => some (r, c)
  | _ => none

/-- `Start` is called for a call whose client has not gone on to the next one. -/
def Prompt (s : Service n D) (a : Action n) : Prop :=
  ∀ x ∈ a.starts, ∀ op ∈ ((s.servers.server x.1).rsm.stage x.2).bind Rsm.Stage.toStart,
    op.req.2.call = (s.clerks op.req.2.clientId).calls

instance (s : Service n D) (a : Action n) : Decidable (s.Prompt a) :=
  inferInstanceAs (Decidable (∀ x ∈ a.starts,
    ∀ op ∈ ((s.servers.server x.1).rsm.stage x.2).bind Rsm.Stage.toStart,
      op.req.2.call = (s.clerks op.req.2.clientId).calls))

end Service

end DistSys.Kvraft1
