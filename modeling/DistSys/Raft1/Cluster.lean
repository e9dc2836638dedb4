import DistSys.Lib.Transition
import DistSys.Raft1.Node

/- A cluster of `n` peers over a network that loses, delays and reorders.

   A peer runs as a `Process`: its `Raft` object and what its goroutines hold
   outside it. Everything a process does while it holds `rf.mu` is one event;
   an RPC is three of them (it is sent, it is handled, its reply is handled), and
   stays in `net` in between. A message in `net` may be handled at any time,
   never, or lost; the network does not duplicate. A crash loses the process and
   starts the next incarnation from the persister, at once: a peer that stays
   down is one that takes no step. A crash may also fall inside an event, between
   two saves of its handler; then nothing the handler would have sent is sent.

   The service above a peer is a state machine of any kind (`Service`). It takes
   the messages of `applyCh` as they are sent, and may call `Snapshot` for an
   index already delivered to it with data that restores its state there: that
   is the only assumption about it (`Allowed`). -/
namespace DistSys.Raft1

open Lib

variable {n : Nat} {C D : Type}

/-! ## The service -/

/-- A deterministic state machine, and how it reads a snapshot back. -/
structure Service (C D : Type) where
  State : Type
  init : State
  apply : State → Option C → State
  restore : D → State

namespace Service

/-- The state after a sequence of commands. -/
def run (svc : Service C D) (cmds : List (Option C)) : svc.State := cmds.foldl svc.apply svc.init

/-- The state a service starts from: what the snapshot restores, if there is one. -/
def boot (svc : Service C D) : Option D → svc.State
  | none => svc.init
  | some d => svc.restore d

/-- One message taken from `applyCh`: the index reached and the state there. -/
def deliver (svc : Service C D) (st : Nat × svc.State) (m : ApplyMsg C D) : Nat × svc.State :=
  if m.commandValid then (m.commandIndex, svc.apply st.2 m.command)
  else (m.snapshotIndex, svc.boot m.snapshot)

end Service

/-! ## Processes -/

/-- A peer and its goroutines: the votes counted by the closures of the last
`LaunchElection`, the message the applier is about to send, and the messages it
has sent on `applyCh`. `bootIndex` and `bootSnapshot` are what this incarnation
found in the persister: `logs[0].Index` and the snapshot. -/
structure Process (n : Nat) (C D : Type) where
  rf : Raft n C D
  incarnation : Nat
  grantedVotes : Nat
  sending : Option (ApplyMsg C D)
  applyCh : List (ApplyMsg C D)
  bootIndex : Nat
  bootSnapshot : Option D

/-- A new incarnation, from what the persister holds. -/
def Process.boot (me : Fin n) (incarnation : Nat) (persister : Persister n C D) : Process n C D :=
  let rf := Raft.make me persister
  { rf := rf
    incarnation := incarnation
    grantedVotes := 0
    sending := none
    applyCh := []
    bootIndex := rf.getFirstLog.index
    bootSnapshot := persister.readSnapshot }

/-- The index and state of the service after the first `k` messages. -/
def Process.service (svc : Service C D) (p : Process n C D) (k : Nat) : Nat × svc.State :=
  (p.applyCh.take k).foldl svc.deliver (p.bootIndex, svc.boot p.bootSnapshot)

/-! ## The network -/

/-- An RPC under way: its request, or its request with the reply. -/
inductive Payload (n : Nat) (C D : Type) where
  | voteReq (args : RequestVoteArgs n)
  | voteRep (args : RequestVoteArgs n) (reply : RequestVoteReply)
  | appendReq (args : AppendEntryArgs n C)
  | appendRep (args : AppendEntryArgs n C) (reply : AppendEntryReply)
  | snapReq (args : InstallSnapShotArgs n D)
  | snapRep (args : InstallSnapShotArgs n D) (reply : InstallSnapShotReply)

/-- The goroutine that waits for the reply belongs to one incarnation of the caller. -/
structure Rpc (n : Nat) (C D : Type) where
  caller : Fin n
  incarnation : Nat
  server : Fin n
  payload : Payload n C D

structure Cluster (n : Nat) (C D : Type) where
  proc : Fin n → Process n C D
  net : List (Rpc n C D)

/-- All peers started on empty persisters. -/
def Cluster.initial (n : Nat) (C D : Type) : Cluster n C D where
  proc := fun me => Process.boot me 0 makePersister
  net := []

/-! ## Events -/

inductive Event (n : Nat) (C D : Type) where
  /-- The election timer of a peer fires. -/
  | electionTimeout (me : Fin n)
  /-- The service calls `Start`. -/
  | start (me : Fin n) (command : Option C)
  /-- A heartbeat or replicator goroutine runs `doSendAppendEntry(peer)` up to the call. -/
  | send (me peer : Fin n)
  /-- The message at position `k` of the network is handled: a request by its
  server, a reply by the goroutine that waits for it. -/
  | handle (k : Nat)
  /-- The message at position `k` is lost. -/
  | lose (k : Nat)
  /-- The service calls `Snapshot`. -/
  | snapshot (me : Fin n) (index : Nat) (data : D)
  /-- The applier takes the lock once. -/
  | applier (me : Fin n)
  /-- The applier's send on `applyCh` goes through. -/
  | deliver (me : Fin n)

inductive Action (n : Nat) (C D : Type) where
  | event (e : Event n C D)
  /-- `me` crashes and restarts. -/
  | crash (me : Fin n)
  /-- `me` crashes inside an event, the newest `k` saves of which are not made. -/
  | crashIn (me : Fin n) (e : Event n C D) (k : Nat)

namespace Cluster

/-- The cluster with one process and the network replaced. -/
def set (s : Cluster n C D) (me : Fin n) (p : Process n C D) (net : List (Rpc n C D)) :
    Cluster n C D :=
  { proc := Function.update s.proc me p, net := net }

/-- One request to every other peer. -/
def broadcast (me : Fin n) (incarnation : Nat) (payload : Payload n C D) : List (Rpc n C D) :=
  ((List.finRange n).filter (· ≠ me)).map fun peer => ⟨me, incarnation, peer, payload⟩

/-- A request is handled by its server. `rest` is the network without it. -/
def handleRequest (s : Cluster n C D) (m : Rpc n C D) (rf : Raft n C D) (reply : Payload n C D)
    (rest : List (Rpc n C D)) : Cluster n C D :=
  s.set m.server { s.proc m.server with rf := rf } ({ m with payload := reply } :: rest)

/-- A reply reaches its caller, unless the goroutine that waits for it died in a crash. -/
def handleReply (s : Cluster n C D) (m : Rpc n C D) (rest : List (Rpc n C D))
    (f : Process n C D → Process n C D) : Cluster n C D :=
  if m.incarnation = (s.proc m.caller).incarnation then
    s.set m.caller (f (s.proc m.caller)) rest
  else { s with net := rest }

/-- What handling a message does. -/
def handle (s : Cluster n C D) (m : Rpc n C D) (rest : List (Rpc n C D)) : Cluster n C D :=
  match m.payload with
  | .voteReq args =>
    let r := (s.proc m.server).rf.requestVote args
    s.handleRequest m r.1 (.voteRep args r.2) rest
  | .appendReq args =>
    let r := (s.proc m.server).rf.appendEntry args
    s.handleRequest m r.1 (.appendRep args r.2) rest
  | .snapReq args =>
    let r := (s.proc m.server).rf.installSnapShot args
    s.handleRequest m r.1 (.snapRep args r.2) rest
  | .voteRep args reply =>
    s.handleReply m rest fun p =>
      let r := p.rf.handleVoteReply p.grantedVotes args reply
      { p with rf := r.1, grantedVotes := r.2 }
  | .appendRep args reply =>
    s.handleReply m rest fun p => { p with rf := p.rf.handleAppendReply m.server args reply }
  | .snapRep args reply =>
    s.handleReply m rest fun p => { p with rf := p.rf.handleSnapShotReply m.server args reply }

/-- One event; `none` when it is not enabled. -/
def exec (s : Cluster n C D) : Event n C D → Option (Cluster n C D)
  | .electionTimeout me =>
    let p := s.proc me
    let r := p.rf.electionTimeout
    some (s.set me { p with rf := r.1, grantedVotes := 1 }
      (broadcast me p.incarnation (.voteReq r.2) ++ s.net))
  | .start me command =>
    let p := s.proc me
    some (s.set me { p with rf := (p.rf.start command).1 } s.net)
  | .send me peer =>
    let p := s.proc me
    if me = peer then none
    else match p.rf.doSendAppendEntry peer with
      | none => none
      | some (.append args) => some { s with net := ⟨me, p.incarnation, peer, .appendReq args⟩ :: s.net }
      | some (.snapshot args) => some { s with net := ⟨me, p.incarnation, peer, .snapReq args⟩ :: s.net }
  | .handle k => (s.net[k]?).map fun m => s.handle m (s.net.eraseIdx k)
  | .lose k => if k < s.net.length then some { s with net := s.net.eraseIdx k } else none
  | .snapshot me index data =>
    let p := s.proc me
    some (s.set me { p with rf := p.rf.snapshot index data } s.net)
  | .applier me =>
    let p := s.proc me
    match p.sending with
    | some _ => none
    | none =>
      let r := p.rf.applier
      some (s.set me { p with rf := r.1, sending := r.2 } s.net)
  | .deliver me =>
    let p := s.proc me
    match p.sending with
    | none => none
    | some msg => some (s.set me { p with sending := none, applyCh := p.applyCh ++ [msg] } s.net)

/-- The network without the message an event takes from it. -/
def taken (s : Cluster n C D) : Event n C D → List (Rpc n C D)
  | .handle k => s.net.eraseIdx k
  | .lose k => s.net.eraseIdx k
  | _ => s.net

/-- `me` starts its next incarnation on the given persister. -/
def restart (s : Cluster n C D) (me : Fin n) (persister : Persister n C D)
    (net : List (Rpc n C D)) : Cluster n C D :=
  s.set me (Process.boot me ((s.proc me).incarnation + 1) persister) net

/-- One action; `none` when it is not enabled. -/
def step (s : Cluster n C D) : Action n C D → Option (Cluster n C D)
  | .event e => s.exec e
  | .crash me => some (s.restart me (s.proc me).rf.persister s.net)
  | .crashIn me e k =>
    match s.exec e with
    | none => none
    | some t =>
      let old := (s.proc me).rf.persister.saves
      let new := (t.proc me).rf.persister.saves
      if old.length + k ≤ new.length then some (s.restart me ⟨new.drop k⟩ (s.taken e)) else none

end Cluster

/-! ## Runs -/

/-- The index is one the service of `me` has reached, and the data restores the
state it had there. -/
def Produced (svc : Service C D) (p : Process n C D) (index : Nat) (data : D) : Prop :=
  ∃ k ≤ p.applyCh.length, p.service svc k = (index, svc.restore data)

/-- What is assumed of the service: it only hands over snapshots of its own. -/
def Event.Allowed (svc : Service C D) (s : Cluster n C D) : Event n C D → Prop
  | .snapshot me index data => Produced svc (s.proc me) index data
  | _ => True

def Action.Allowed (svc : Service C D) (s : Cluster n C D) : Action n C D → Prop
  | .event e => e.Allowed svc s
  | .crash _ => True
  | .crashIn _ e _ => e.Allowed svc s

/-- The runs of the cluster. -/
def system (n : Nat) (svc : Service C D) : Lts (Cluster n C D) (Action n C D) where
  init := fun s => s = Cluster.initial n C D
  step := fun s a t => a.Allowed svc s ∧ s.step a = some t

/-- A run of the cluster from its start. -/
def Run (svc : Service C D) (tr : List (Cluster n C D × Action n C D)) (s : Cluster n C D) : Prop :=
  (system n svc).Run (Cluster.initial n C D) tr s

theorem Run.step {svc : Service C D} {tr : List (Cluster n C D × Action n C D)}
    {s t : Cluster n C D} (h : Run svc tr s) {a : Action n C D} (ha : a.Allowed svc s)
    (ht : s.step a = some t) : Run svc (tr ++ [(s, a)]) t :=
  Lts.Run.snoc h ⟨ha, ht⟩

/-! ## Runs from a list of actions -/

/-- Whether the action hands over a snapshot, which only its service can allow. -/
def Action.isSnapshot : Action n C D → Bool
  | .event (.snapshot _ _ _) => true
  | .crashIn _ (.snapshot _ _ _) _ => true
  | _ => false

theorem Action.allowed_of_not_snapshot {svc : Service C D} {s : Cluster n C D} {a : Action n C D}
    (h : a.isSnapshot = false) : a.Allowed svc s := by
  cases a with
  | event e => cases e <;> trivial
  | crash me => trivial
  | crashIn me e k => cases e <;> trivial

namespace Cluster

/-- The state after some actions. -/
abbrev after (s : Cluster n C D) : List (Action n C D) → Cluster n C D := Lib.after step s

abbrev traceOf (s : Cluster n C D) : List (Action n C D) → List (Cluster n C D × Action n C D) :=
  Lib.traceOf step s

/-- Every action is enabled in turn, and none needs the service. -/
abbrev enabled (s : Cluster n C D) : List (Action n C D) → Bool :=
  Lib.enabled step (fun a => !a.isSnapshot) s

theorem run_of_enabled {svc : Service C D} {as : List (Action n C D)} {s : Cluster n C D}
    (h : s.enabled as = true) : (system n svc).Run s (s.traceOf as) (s.after as) := by
  refine Lts.run_of_enabled ?_ h
  intro t a u hok hstep
  exact ⟨Action.allowed_of_not_snapshot (by simpa using hok), hstep⟩

/-- A state on the way is visited. -/
theorem after_mem_visited (s : Cluster n C D) (as bs : List (Action n C D)) :
    s.after as ∈ visited (s.traceOf (as ++ bs)) (s.after (as ++ bs)) :=
  Lib.after_mem_visited s as bs

end Cluster

/-! ## A run to read the statements on

Two peers over a service that keeps the list of its commands: peer 0 is elected,
a command is stored on peer 1 (`storing`), committed and delivered at peer 0
(`committing`), and after a second one peer 1 is elected (`succeeding`). -/

section Sample

/-- A snapshot of this service is the list itself. -/
def logService : Service Nat (List (Option Nat)) where
  State := List (Option Nat)
  init := []
  apply := fun s c => s ++ [c]
  restore := id

abbrev SampleAction := Action 2 Nat (List (Option Nat))

def sampleStart : Cluster 2 Nat (List (Option Nat)) := Cluster.initial 2 Nat (List (Option Nat))

def electing : List SampleAction :=
  [.event (.electionTimeout 0), .event (.handle 0), .event (.handle 0)]

def storing : List SampleAction :=
  [.event (.start 0 (some 7)), .event (.send 0 1), .event (.handle 0)]

def committing : List SampleAction :=
  [.event (.handle 0), .event (.applier 0), .event (.deliver 0)]

def succeeding : List SampleAction :=
  [.event (.start 0 (some 8)), .event (.send 0 1), .event (.handle 0), .event (.handle 0),
    .event (.electionTimeout 1), .event (.handle 0), .event (.handle 0)]

/-- The state after the first actions of the sample. -/
def sampleAt (as : List SampleAction) : Cluster 2 Nat (List (Option Nat)) := sampleStart.after as

theorem sample_run (as : List SampleAction) (h : sampleStart.enabled as = true) :
    Run logService (sampleStart.traceOf as) (sampleAt as) :=
  Cluster.run_of_enabled h

end Sample

end DistSys.Raft1
