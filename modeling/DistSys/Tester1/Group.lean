import DistSys.Labrpc.Network
import DistSys.Raft1.Cluster

/- A group of Raft servers as the tester runs it: tester1/group.go, srv.go and persister.go over the
   network of labrpc.

   `StartServer` makes a new set of `ClientEnd`s and a new peer, from a copy of the persister, and
   then adds the server to the network. `ShutdownServer` deletes the server from the network, takes a
   copy of its persister for the next instance and only then kills the peer. So a peer that was shut
   down is still there: requests that were on their way to it run on it, and its own goroutines may go
   on, with a persister that nobody reads any more. The copy may be taken while the peer is in the
   middle of an event, between two saves.

   Every RPC is a call of labrpc, with all its stages. `Call` returns and the goroutine that waited
   for it handles the reply in one step; what lies between concerns nobody else.

   A peer is known by the position at which it was made. The end names, random strings in the source,
   are the pair of that position and of the peer at the other side. -/
namespace DistSys.Tester1

open Lib
open Raft1 (Raft Process Payload Rpc Event Cluster Persister Produced makePersister)
open Labrpc (Network Admin Rpcs Call Op)

variable {n : Nat} {C D : Type}

/-! ## The code of a peer -/

/-- The RPC handlers: the reply to a request. -/
def serve (rf : Raft n C D) : Payload n C D → Option (Raft n C D × Payload n C D)
  | .voteReq args =>
    let r := rf.requestVote args
    some (r.1, .voteRep args r.2)
  | .appendReq args =>
    let r := rf.appendEntry args
    some (r.1, .appendRep args r.2)
  | .snapReq args =>
    let r := rf.installSnapShot args
    some (r.1, .snapRep args r.2)
  | _ => none

/-- What the goroutine that called `server` does with a reply. -/
def receive (p : Process n C D) (server : Fin n) : Payload n C D → Process n C D
  | .voteRep args reply =>
    let r := p.rf.handleVoteReply p.grantedVotes args reply
    { p with rf := r.1, grantedVotes := r.2 }
  | .appendRep args reply => { p with rf := p.rf.handleAppendReply server args reply }
  | .snapRep args reply => { p with rf := p.rf.handleSnapShotReply server args reply }
  | _ => p

/-- The events that are the peer's own, and not the network's. -/
def isOf (me : Fin n) : Event n C D → Bool
  | .electionTimeout i => i == me
  | .start i _ => i == me
  | .send i _ => i == me
  | .snapshot i _ _ => i == me
  | .applier i => i == me
  | .deliver i => i == me
  | .handle _ => false
  | .lose _ => false

/-- An event of `me` by itself, and the requests it sends. It looks at no other process, so it may be
run where every process is this one. -/
def turn (me : Fin n) (p : Process n C D) (e : Event n C D) :
    Option (Process n C D × List (Rpc n C D)) :=
  if isOf me e then
    ((⟨fun _ => p, []⟩ : Cluster n C D).exec e).map fun t => (t.proc me, t.net)
  else none

/-! ## Servers -/

/-- What `mks` returned: a peer and its goroutines. -/
structure Peer (n : Nat) (C D : Type) where
  me : Fin n
  proc : Process n C D

/-- How far the tester is with a server: shut down, made and not yet added to the network, running,
or deleted from the network and not yet shut down. -/
inductive Status where
  | down
  | starting (p : Nat)
  | running (p : Nat)
  | deleted (p : Nat)
  deriving DecidableEq

/-- `svcs`: the peer that runs for a server. -/
def Status.svcs : Status → Option Nat
  | .down => none
  | .starting p => some p
  | .running p => some p
  | .deleted p => some p

/-- `tester.Server`. While a peer runs, `saved` is its own persister; the field here is the copy that
is kept while none does. `incarnation` counts the peers that were shut down. -/
structure Server (n : Nat) (C D : Type) where
  status : Status
  saved : Option (Persister n C D)
  incarnation : Nat

/-- The peer that is started next. -/
def Server.boot (srv : Server n C D) (i : Fin n) : Process n C D :=
  Process.boot i srv.incarnation (srv.saved.getD makePersister)

/-- The argument of a `Call`: the RPC, and the peer whose goroutine waits for the reply. -/
structure Request (n : Nat) (C D : Type) where
  sender : Nat
  rpc : Rpc n C D

structure Testbed (n : Nat) (C D : Type) where
  rpcs : Rpcs (Nat × Fin n) (Fin n) Nat (Request n C D) (Payload n C D)
  peers : List (Peer n C D)
  srvs : Fin n → Server n C D

/-- The code of a peer runs: an event of its own, a handler, or the goroutine that waited for a
reply. -/
inductive Work (n : Nat) (C D : Type) where
  | run (p : Nat) (e : Event n C D)
  | handle (c : Nat)
  | ret (c : Nat)

inductive Action (n : Nat) (C D : Type) where
  /-- The tests enable and disable ends, and make the network unreliable. -/
  | net (a : Admin (Nat × Fin n) (Fin n) Nat)
  | startServer (i : Fin n)
  | addServer (i : Fin n)
  | deleteServer (i : Fin n)
  | shutdownServer (i : Fin n)
  /-- The copy is taken while the peer works, before the newest `k` saves. -/
  | shutdownIn (i : Fin n) (w : Work n C D) (k : Nat)
  | work (w : Work n C D)
  /-- A step of the network for a call. -/
  | op (c : Nat) (o : Op (Payload n C D))

/-- What the tests do to the network without starting or stopping a server. -/
def isKnob : Admin (Nat × Fin n) (Fin n) Nat → Bool
  | .cleanup => true
  | .stopListening => true
  | .reliable _ => true
  | .longReordering _ => true
  | .longDelays _ => true
  | .enable _ _ => true
  | _ => false

/-- The steps of a call in which no code of a peer runs. -/
def isTransport : Op (Payload n C D) → Bool
  | .handle _ => false
  | .return => false
  | _ => true

namespace Testbed

def initial (n : Nat) (C D : Type) : Testbed n C D where
  rpcs := .initial
  peers := []
  srvs := fun _ => ⟨.down, none, 0⟩

/-- `makeServer`: new ends, each connected to the server of its name. -/
def makeServer (net : Network (Nat × Fin n) (Fin n) Nat) (p : Nat) :
    Option (Network (Nat × Fin n) (Fin n) Nat) :=
  (List.finRange n).foldlM (fun rn j => (rn.makeEnd (p, j)).map (·.connect (p, j) j)) net

def setServer (t : Testbed n C D) (i : Fin n) (srv : Server n C D) : Testbed n C D :=
  { t with srvs := Function.update t.srvs i srv }

def setPeer (t : Testbed n C D) (p : Nat) (proc : Process n C D) : Testbed n C D :=
  { t with peers := t.peers.modify p fun peer => { peer with proc := proc } }

/-- `Call`s are made. -/
def send (t : Testbed n C D) (reqs : List (Request n C D)) : Testbed n C D :=
  { t with rpcs := { t.rpcs with
      calls := t.rpcs.calls ++ reqs.map fun r => .make (r.sender, r.rpc.server) r } }

/-- The peer whose code runs. -/
def worker (t : Testbed n C D) : Work n C D → Option Nat
  | .run p _ => some p
  | .handle c =>
    match t.rpcs.calls[c]? with
    | none => none
    | some call =>
      match call.handler with
      | .running q => some q
      | _ => none
  | .ret c => (t.rpcs.calls[c]?).map (·.args.sender)

/-- The code of a peer runs; also the requests it is about to send. -/
def work (t : Testbed n C D) : Work n C D → Option (Testbed n C D × List (Request n C D))
  | .run p e =>
    match t.peers[p]? with
    | none => none
    | some peer =>
      (turn peer.me peer.proc e).map fun r => (t.setPeer p r.1, r.2.map (Request.mk p))
  | .handle c =>
    match t.rpcs.calls[c]? with
    | none => none
    | some call =>
      match call.handler with
      | .running q =>
        match t.peers[q]? with
        | none => none
        | some peer =>
          match serve peer.proc.rf call.args.rpc.payload with
          | none => none
          | some (rf, reply) =>
            (t.rpcs.stepCall c (.handle reply)).map fun rpcs =>
              ({ t with rpcs := rpcs }.setPeer q { peer.proc with rf := rf }, [])
      | _ => none
  | .ret c =>
    match t.rpcs.calls[c]? with
    | none => none
    | some call =>
      match call.stage, t.peers[call.args.sender]? with
      | .replying none, some _ =>
        (t.rpcs.stepCall c .return).map fun rpcs => ({ t with rpcs := rpcs }, [])
      | .replying (some reply), some peer =>
        (t.rpcs.stepCall c .return).map fun rpcs =>
          ({ t with rpcs := rpcs }.setPeer call.args.sender
            (receive peer.proc call.args.rpc.server reply), [])
      | _, _ => none

/-- What the persister of a peer holds. -/
def persisted (t : Testbed n C D) (p : Nat) : Persister n C D :=
  match t.peers[p]? with
  | none => makePersister
  | some peer => peer.proc.rf.persister

/-- The server is down, with this copy of the persister. -/
def stop (t : Testbed n C D) (i : Fin n) (saved : Persister n C D) : Testbed n C D :=
  t.setServer i ⟨.down, some saved, (t.srvs i).incarnation + 1⟩

def step (t : Testbed n C D) : Action n C D → Option (Testbed n C D)
  | .net a =>
    if isKnob a then
      (t.rpcs.net.admin a).map fun net => { t with rpcs := { t.rpcs with net := net } }
    else none
  | .startServer i =>
    match (t.srvs i).status with
    | .down =>
      (makeServer t.rpcs.net t.peers.length).map fun net =>
        let peer : Peer n C D := ⟨i, (t.srvs i).boot i⟩
        { t with rpcs := { t.rpcs with net := net }, peers := t.peers ++ [peer] }.setServer i
          { t.srvs i with status := .starting t.peers.length }
    | _ => none
  | .addServer i =>
    match (t.srvs i).status with
    | .starting p =>
      some ({ t with rpcs := { t.rpcs with net := t.rpcs.net.addServer i p } }.setServer i
        { t.srvs i with status := .running p })
    | _ => none
  | .deleteServer i =>
    match (t.srvs i).status with
    | .running p =>
      some ({ t with rpcs := { t.rpcs with net := t.rpcs.net.deleteServer i } }.setServer i
        { t.srvs i with status := .deleted p })
    | _ => none
  | .shutdownServer i =>
    match (t.srvs i).status with
    | .deleted p => some (t.stop i (t.persisted p))
    | _ => none
  | .shutdownIn i w k =>
    match (t.srvs i).status with
    | .deleted p =>
      if t.worker w = some p then
        match t.work w with
        | none => none
        | some (t', _) =>
          let old := (t.persisted p).saves
          let new := (t'.persisted p).saves
          if old.length + k ≤ new.length then some (t'.stop i ⟨new.drop k⟩) else none
      else none
    | _ => none
  | .work w => (t.work w).map fun r => r.1.send r.2
  | .op c o =>
    if isTransport o then (t.rpcs.stepCall c o).map fun rpcs => { t with rpcs := rpcs } else none

/-- The peer that runs for a server, or would be started for it. -/
def process (t : Testbed n C D) (i : Fin n) : Process n C D :=
  match (t.srvs i).status.svcs with
  | none => (t.srvs i).boot i
  | some p =>
    match t.peers[p]? with
    | none => (t.srvs i).boot i
    | some peer => peer.proc

/-- The peer was not shut down. -/
def isLive (t : Testbed n C D) (p : Nat) : Bool :=
  match t.peers[p]? with
  | none => false
  | some peer => (t.srvs peer.me).status.svcs == some p

/-- A peer that was shut down makes no more calls. -/
def quiet (t : Testbed n C D) : Action n C D → Bool
  | .work (.run p e) =>
    t.isLive p || match t.work (.run p e) with
      | none => true
      | some (_, reqs) => reqs.isEmpty
  | _ => true

end Testbed

/-- What is assumed of the service above a peer, as for the cluster. -/
def Work.Allowed (svc : Raft1.Service C D) (t : Testbed n C D) : Work n C D → Prop
  | .run p (.snapshot _ index data) =>
    ∀ peer, t.peers[p]? = some peer → Produced svc peer.proc index data
  | _ => True

def Action.Allowed (svc : Raft1.Service C D) (t : Testbed n C D) : Action n C D → Prop
  | .shutdownIn _ w _ => w.Allowed svc t
  | .work w => w.Allowed svc t
  | _ => True

def testbed (n : Nat) (svc : Raft1.Service C D) : Lts (Testbed n C D) (Action n C D) where
  init := fun t => t = .initial n C D
  step := fun t a t' => a.Allowed svc t ∧ t.step a = some t'

end DistSys.Tester1
