import DistSys.Raft1.Cluster
import DistSys.Rsm.Node

/- The replicas of kvraft1/rsm on the peers of raft1, with nothing between them left out.

   What a replica asks of Raft is a call of its own peer, and what it gets is what that peer sends
   on `applyCh`. A snapshot goes down as bytes (`Codec`) and comes back as bytes, from the channel or
   from the persister, so a replica may find that they do not decode. All servers of a test are
   goroutines of one program: a panic of one ends it (`panicked`).

   The reader receives a message, looks at `shutdown` and handles it; it may then be in
   `createSnapshot`, which encodes the state and calls `Snapshot`, all under `rsm.mu`. Peers run on
   between any two of these steps, and so do the calls that do not need the lock. A crash takes the
   peer and the replica together, possibly between two saves of a handler; `raft.Make` then starts
   the next peer before `MakeRSM` reads the snapshot. -/
namespace DistSys.Rsm.Deployed

open Lib

variable {n : Nat} {Q R D : Type} {M : StateMachine Q R}

/-- The encoding of the three values of a snapshot, taken to round-trip; it is never empty. -/
structure Codec (B D : Type) where
  encode : Blob B → D
  decode : D → Option (Blob B)
  decode_encode : ∀ blob, decode (encode blob) = some blob

/-- The index that a snapshot says it is of. -/
def Codec.index {B : Type} (codec : Codec B D) (bytes : D) : Option Nat :=
  (codec.decode bytes).map Blob.lastApplied

inductive Panic where
  /-- "Command is not of type Op" -/
  | commandNotOp
  /-- "Failed to decode from snapshot" -/
  | failedToDecode
  /-- "Snapshot index mismatch" -/
  | snapshotIndexMismatch (encoded msg : Nat)
  deriving DecidableEq

/-! ## One server -/

/-- A replica and its reader: the message received and not handled yet, the arguments that
`createSnapshot` is about to call `Snapshot` with, and whether it has returned. -/
structure Server (n : Nat) {Q R : Type} (M : StateMachine Q R) (D : Type) where
  rsm : RSM n M
  received : Option (Raft1.ApplyMsg (Op n Q) D)
  encoded : Option (Nat × D)
  readerDone : Bool

/-- `MakeRSM` up to the return of `raft.Make`. -/
def Server.boot (M : StateMachine Q R) (D : Type) (me : Fin n) (maxraftstate : Int) :
    Server n M D where
  rsm := RSM.newRSM M me maxraftstate
  received := none
  encoded := none
  readerDone := false

/-- Whether the reader waits for a message. -/
def Server.reading (sv : Server n M D) : Bool :=
  sv.rsm.made && !sv.readerDone && sv.received.isNone && sv.rsm.snapshotDue.isNone &&
    sv.encoded.isNone

def applyCommand (rsm : RSM n M) (msg : Raft1.ApplyMsg (Op n Q) D) (large : Bool) :
    Except Panic (RSM n M) :=
  match msg.command with
  | none => .error .commandNotOp
  | some op => .ok (rsm.applyCommand msg.commandIndex op large)

def applySnapshot (codec : Codec M.Bytes D) (rsm : RSM n M) (msg : Raft1.ApplyMsg (Op n Q) D) :
    Except Panic (RSM n M) :=
  if msg.snapshotIndex ≤ rsm.lastApplied then .ok rsm
  else
    match msg.snapshot.bind codec.decode with
    | none => .error .failedToDecode
    | some data =>
      match rsm.applySnapshot msg.snapshotIndex data with
      | none => .error (.snapshotIndexMismatch data.lastApplied msg.snapshotIndex)
      | some rsm => .ok rsm

/-- One turn of `reader` after the look at `shutdown`. -/
def reader (codec : Codec M.Bytes D) (rsm : RSM n M) (msg : Raft1.ApplyMsg (Op n Q) D)
    (large : Bool) : Except Panic (RSM n M) :=
  if msg.commandValid then applyCommand rsm msg large
  else if msg.snapshotValid then applySnapshot codec rsm msg
  else .ok rsm

/-- The rest of `MakeRSM`. -/
def readSnapshot (codec : Codec M.Bytes D) (rsm : RSM n M) (snapshot : Option D) :
    Except Panic (RSM n M) :=
  if rsm.maxraftstate ≥ 0 then
    match snapshot with
    | none => .ok (rsm.readSnapshot none)
    | some bytes =>
      match codec.decode bytes with
      | none => .error .failedToDecode
      | some data => .ok (rsm.readSnapshot (some data))
  else .ok (rsm.readSnapshot none)

/-- A step of `Submit`, of its `doSubmit` or of `Kill`, the call of `Start` apart. -/
inductive CallStep (Q : Type) where
  | submit (req : Q)
  | submitDone (c : Nat)
  | submitTimeout (c : Nat)
  | number (c : Nat)
  | register (c : Nat)
  | waitDone (c : Nat)
  | waitShutdown (c : Nat)
  | waitTimer (c : Nat)
  | remove (c : Nat)
  | kill

/-- Whether the step takes `rsm.mu`. -/
def CallStep.locks : CallStep Q → Bool
  | .register _ => true
  | .remove _ => true
  | .kill => true
  | _ => false

/-- `state` is what `GetState` answers. Nobody has the replica before `MakeRSM` returned it. -/
def callStep (rsm : RSM n M) (state : Nat × Bool) : CallStep Q → Option (RSM n M)
  | .submit req => if rsm.made then some (rsm.submit req) else none
  | .submitDone c => rsm.submitDone c
  | .submitTimeout c => rsm.submitTimeout c
  | .number c => rsm.doSubmitNumber c
  | .register c => rsm.doSubmitRegister c
  | .waitDone c => rsm.waitDone c
  | .waitShutdown c => rsm.waitShutdown c
  | .waitTimer c => rsm.waitTimer c state.1 state.2
  | .remove c => rsm.doSubmitRemove c
  | .kill => if rsm.made then some rsm.doShutdown else none

/-! ## The deployment -/

structure State (n : Nat) {Q R : Type} (M : StateMachine Q R) (D : Type) where
  raft : Raft1.Cluster n (Op n Q) D
  server : Fin n → Server n M D
  panicked : Option Panic

/-- What happens in Raft: on its own, or because a server calls it. -/
inductive RaftStep (n : Nat) where
  | electionTimeout (me : Fin n)
  | send (me peer : Fin n)
  | handle (k : Nat)
  | lose (k : Nat)
  | applier (me : Fin n)
  /-- `doSubmit` of call `c` calls `Start`. -/
  | start (r : Fin n) (c : Nat)
  /-- The reader receives what the applier sends. -/
  | receive (r : Fin n)
  /-- `createSnapshot` calls `Snapshot`. -/
  | snapshot (r : Fin n)

inductive Action (n : Nat) (Q : Type) where
  | raft (a : RaftStep n)
  | call (r : Fin n) (a : CallStep Q)
  /-- The reader handles the message; `large` is whether the Raft state passed the threshold. -/
  | handleMsg (r : Fin n) (large : Bool)
  /-- `createSnapshot` up to the call of `Snapshot`. -/
  | createSnapshot (r : Fin n)
  /-- The call of `Snapshot` where `Kill` has got to Raft: it returns at once. -/
  | snapshotKilled (r : Fin n)
  /-- A crash, and `MakeRSM` up to the return of `raft.Make`. -/
  | crash (r : Fin n)
  /-- The same inside what happens in Raft, the newest `k` saves of which are not made. -/
  | crashIn (r : Fin n) (a : RaftStep n) (k : Nat)
  /-- The rest of `MakeRSM`. -/
  | readSnapshot (r : Fin n)

namespace State

/-- All servers started on empty persisters. -/
def initial (n : Nat) (M : StateMachine Q R) (D : Type) (maxraftstate : Fin n → Int) :
    State n M D where
  raft := Raft1.Cluster.initial n (Op n Q) D
  server := fun r => Server.boot M D r (maxraftstate r)
  panicked := none

def setServer (s : State n M D) (r : Fin n) (sv : Server n M D) : State n M D :=
  { s with server := Function.update s.server r sv }

/-- A step that may panic. -/
def orPanic (s : State n M D) (r : Fin n) : Except Panic (Server n M D) → State n M D
  | .ok sv => s.setServer r sv
  | .error panic => { s with panicked := some panic }

/-- The event of the peers, if the server is where it makes the call. -/
def event (s : State n M D) : RaftStep n → Option (Raft1.Event n (Op n Q) D)
  | .electionTimeout me => some (.electionTimeout me)
  | .send me peer => some (.send me peer)
  | .handle k => some (.handle k)
  | .lose k => some (.lose k)
  | .applier me => some (.applier me)
  | .start r c =>
    match (s.server r).rsm.stage c with
    | some (.numbered op) => some (.start r (some op))
    | _ => none
  | .receive r => if (s.server r).reading then some (.deliver r) else none
  | .snapshot r => (s.server r).encoded.map fun args => .snapshot r args.1 args.2

/-- The server after its call of Raft, which was made in `s`. -/
def answered (s : State n M D) : RaftStep n → Option (Fin n × Server n M D)
  | .start r c =>
    match (s.server r).rsm.stage c with
    | some (.numbered op) =>
      ((s.server r).rsm.doSubmitStarted c ((s.raft.proc r).rf.start (some op)).2).map fun rsm =>
        (r, { s.server r with rsm := rsm })
    | _ => none
  | .receive r => some (r, { s.server r with received := (s.raft.proc r).sending })
  | .snapshot r => some (r, { s.server r with encoded := none })
  | _ => none

/-- The servers with the answer taken in. -/
def answer (s : State n M D) (a : RaftStep n) : Fin n → Server n M D :=
  match s.answered a with
  | some (r, sv) => Function.update s.server r sv
  | none => s.server

/-- The replica of a peer that restarts. -/
def reboot (s : State n M D) (r : Fin n) (raft : Raft1.Cluster n (Op n Q) D) : State n M D :=
  { s with raft := raft }.setServer r (Server.boot M D r (s.server r).rsm.maxraftstate)

/-- One action of a program that has not panicked. -/
def act (codec : Codec M.Bytes D) (s : State n M D) : Action n Q → Option (State n M D)
  | .raft a =>
    (s.event a).bind fun e => (s.raft.exec e).map fun raft =>
      { s with raft := raft, server := s.answer a }
  | .call r a =>
    if a.locks && (s.server r).encoded.isSome then none
    else (callStep (s.server r).rsm (s.raft.proc r).rf.getState a).map fun rsm =>
      s.setServer r { s.server r with rsm := rsm }
  | .handleMsg r large =>
    match (s.server r).received with
    | none => none
    | some msg =>
      let sv := { s.server r with received := none }
      if sv.rsm.shutdown then some (s.setServer r { sv with readerDone := true })
      else some (s.orPanic r ((reader codec sv.rsm msg large).map fun rsm => { sv with rsm := rsm }))
  | .createSnapshot r =>
    match (s.server r).rsm.snapshotDue with
    | none => none
    | some index =>
      some (s.setServer r { s.server r with
        rsm := { (s.server r).rsm with snapshotDue := none }
        encoded := ((s.server r).rsm.createSnapshot index).map fun args =>
          (args.1, codec.encode args.2) })
  | .snapshotKilled r =>
    if (s.server r).rsm.shutdown && (s.server r).encoded.isSome then
      some (s.setServer r { s.server r with encoded := none })
    else none
  | .crash r => (s.raft.step (.crash r)).map (s.reboot r)
  | .crashIn r a k =>
    (s.event a).bind fun e => (s.raft.step (.crashIn r e k)).map (s.reboot r)
  | .readSnapshot r =>
    if (s.server r).rsm.made then none
    else some (s.orPanic r ((readSnapshot codec (s.server r).rsm
      (s.raft.proc r).rf.persister.readSnapshot).map fun rsm => { s.server r with rsm := rsm }))

/-- One action; `none` when it is not enabled. -/
def step (codec : Codec M.Bytes D) (s : State n M D) (a : Action n Q) : Option (State n M D) :=
  if s.panicked.isSome then none else s.act codec a

end State

/-- The runs of the deployment. -/
def deployed (codec : Codec M.Bytes D) (maxraftstate : Fin n → Int) :
    Lts (State n M D) (Action n Q) where
  init := fun s => s = State.initial n M D maxraftstate
  step := fun s a t => s.step codec a = some t

/-- A run of the deployment from its start. -/
def Run (codec : Codec M.Bytes D) (maxraftstate : Fin n → Int)
    (tr : List (State n M D × Action n Q)) (s : State n M D) : Prop :=
  (deployed codec maxraftstate).Run (State.initial n M D maxraftstate) tr s

end DistSys.Rsm.Deployed
