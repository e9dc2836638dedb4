import DistSys.Kvsrv1.Rpc

/- One replica: kvraft1/rsm/rsm.go, in the order of the source.

   A call of `Submit` runs in two goroutines: `doSubmit` does the work, `Submit`
   waits for it or gives up. What `doSubmit` has done so far is the `Stage` of the
   call; each step between two points where another goroutine may run is a
   function here. A `PendingOp` lives in its call and is named by the position of
   the call, so the map `pendingOps` holds positions. The channel `done` has room
   for one value and every send on it gives up when it is full.

   The logs, the wait group and the lengths of the timeouts are left out: a timer
   may fire at any time. `reader` is the pair of `applyCommand` and
   `applySnapshot`, chosen by the message. The Raft calls are arguments: what
   `Start`, `GetState` and `PersistBytes` answered. The gob encoding of a snapshot
   is taken to round-trip. -/
namespace DistSys.Rsm

open Kvsrv1

/-- The `StateMachine` interface. `restore` acts on the state the machine has. -/
structure StateMachine (Q R : Type) where
  State : Type
  Bytes : Type
  init : State
  doOp : State → Q → State × R
  snapshot : State → Bytes
  restore : State → Bytes → State

variable {n : Nat} {Q R : Type}

structure Op (n : Nat) (Q : Type) where
  me : Fin n
  id : Int64
  req : Q
  deriving DecidableEq

structure PendingOp (n : Nat) (Q R : Type) where
  op : Op n Q
  result : Option R
  done : Option Bool
  deriving DecidableEq

/-- A send on `done` with a default: it is dropped when a value is there. -/
def PendingOp.send (p : PendingOp n Q R) (res : Bool) : PendingOp n Q R :=
  match p.done with
  | none => { p with done := some res }
  | some _ => p

/-- How far `doSubmit` is. -/
inductive Stage (n : Nat) (Q R : Type) where
  /-- Called, with the shutdown flag not looked at yet. -/
  | entered
  /-- Returned `ErrWrongLeader` before it registered anything. -/
  | refused
  /-- The op has its id, and goes to `Start` next. -/
  | numbered (op : Op n Q)
  /-- `Start` returned; the pending op is to be registered next. -/
  | started (p : PendingOp n Q R) (index term : Nat)
  /-- In `waitForResult`. -/
  | waiting (p : PendingOp n Q R) (index term : Nat)
  /-- `waitForResult` returned; the registration is to be deleted next. -/
  | leaving (p : PendingOp n Q R) (index term : Nat) (err : Err) (result : Option R)
  | returned (p : PendingOp n Q R) (index term : Nat) (err : Err) (result : Option R)
  deriving DecidableEq

namespace Stage

/-- The pending op of a call whose `Start` succeeded, with what `Start` returned. -/
def own : Stage n Q R → Option (PendingOp n Q R × Nat × Nat)
  | started p index term => some (p, index, term)
  | waiting p index term => some (p, index, term)
  | leaving p index term _ _ => some (p, index, term)
  | returned p index term _ _ => some (p, index, term)
  | _ => none

/-- A change of the pending op, by whoever holds a pointer to it. -/
def mapPending (f : PendingOp n Q R → PendingOp n Q R) : Stage n Q R → Stage n Q R
  | started p index term => started (f p) index term
  | waiting p index term => waiting (f p) index term
  | leaving p index term err result => leaving (f p) index term err result
  | returned p index term err result => returned (f p) index term err result
  | stage => stage

end Stage

/-- A call of `Submit`: its request, how far `doSubmit` is, and what `Submit` returned. -/
structure Call (n : Nat) (Q R : Type) where
  req : Q
  stage : Stage n Q R
  answer : Option (Err × Option R)
  deriving DecidableEq

def Call.mapPending (f : PendingOp n Q R → PendingOp n Q R) (call : Call n Q R) : Call n Q R :=
  { call with stage := call.stage.mapPending f }

/-- What `createSnapshot` encodes. -/
structure Blob (B : Type) where
  opId : Int64
  lastApplied : Nat
  smSnapshot : B
  deriving DecidableEq

/-- `snapshotDue` is the index the reader is about to call `createSnapshot` with; `made` is whether
`MakeRSM` has started the reader. -/
structure RSM (n : Nat) {Q R : Type} (M : StateMachine Q R) where
  me : Fin n
  maxraftstate : Int
  sm : M.State
  opId : Int64
  lastApplied : Nat
  pendingOps : Nat → Option Nat
  shutdown : Bool
  calls : List (Call n Q R)
  snapshotDue : Option Nat
  made : Bool

variable {M : StateMachine Q R}

namespace RSM

/-- `MakeRSM` on a new state machine up to `raft.Make`, which returns before the snapshot is read. -/
def newRSM (M : StateMachine Q R) (me : Fin n) (maxraftstate : Int) : RSM n M where
  me := me
  maxraftstate := maxraftstate
  sm := M.init
  opId := 0
  lastApplied := 0
  pendingOps := fun _ => none
  shutdown := false
  calls := []
  snapshotDue := none
  made := false

/-- The rest of `MakeRSM`, with the snapshot the persister holds by then. -/
def readSnapshot (rsm : RSM n M) (snapshot : Option (Blob M.Bytes)) : RSM n M :=
  let rsm := { rsm with made := true }
  if rsm.maxraftstate ≥ 0 then
    match snapshot with
    | none => rsm
    | some data => { rsm with
        opId := data.opId
        lastApplied := data.lastApplied
        sm := M.restore rsm.sm data.smSnapshot }
  else rsm

def makeRSM (M : StateMachine Q R) (me : Fin n) (maxraftstate : Int)
    (snapshot : Option (Blob M.Bytes)) : RSM n M :=
  (newRSM M me maxraftstate).readSnapshot snapshot

/-- The stage of a call is replaced. -/
def setStage (rsm : RSM n M) (c : Nat) (stage : Stage n Q R) : RSM n M :=
  { rsm with calls := rsm.calls.modify c fun call => { call with stage := stage } }

/-- The pending op of a call is changed through its pointer. -/
def setPending (rsm : RSM n M) (c : Nat) (f : PendingOp n Q R → PendingOp n Q R) : RSM n M :=
  { rsm with calls := rsm.calls.modify c (Call.mapPending f) }

/-- The pending op at an index, if the map has one, is changed. -/
def updateAt (rsm : RSM n M) (index : Nat) (f : PendingOp n Q R → PendingOp n Q R) : RSM n M :=
  match rsm.pendingOps index with
  | some c => rsm.setPending c f
  | none => rsm

def stage (rsm : RSM n M) (c : Nat) : Option (Stage n Q R) := rsm.calls[c]?.map Call.stage

/-- The index at which the pending op of a call is in the map. -/
def registeredAt (rsm : RSM n M) (c : Nat) : Option Nat :=
  match (rsm.stage c).bind Stage.own with
  | some (_, index, _) => if rsm.pendingOps index = some c then some index else none
  | none => none

/-- A send on the channel of every pending op that is in the map at an index that counts. -/
def notify (rsm : RSM n M) (at_ : Nat → Bool) (res : Bool) : RSM n M :=
  { rsm with calls := rsm.calls.mapIdx fun c call =>
      match rsm.registeredAt c with
      | some index => if at_ index then call.mapPending (·.send res) else call
      | none => call }

/-! ## Submit -/

/-- `Submit` up to the start of `doSubmit`. -/
def submit (rsm : RSM n M) (req : Q) : RSM n M :=
  if rsm.shutdown then
    { rsm with calls := rsm.calls ++ [⟨req, .refused, some (.errWrongLeader, none)⟩] }
  else { rsm with calls := rsm.calls ++ [⟨req, .entered, none⟩] }

/-- `Submit` returns what `doSubmit` returned. -/
def submitDone (rsm : RSM n M) (c : Nat) : Option (RSM n M) :=
  match rsm.calls[c]? with
  | some ⟨req, .refused, none⟩ =>
    some { rsm with calls := rsm.calls.set c ⟨req, .refused, some (.errWrongLeader, none)⟩ }
  | some ⟨req, .returned p index term err result, none⟩ =>
    some { rsm with
      calls := rsm.calls.set c ⟨req, .returned p index term err result, some (err, result)⟩ }
  | _ => none

/-- `Submit` gives up: its own timeout, or the shutdown. -/
def submitTimeout (rsm : RSM n M) (c : Nat) : Option (RSM n M) :=
  match rsm.calls[c]? with
  | some ⟨req, stage, none⟩ =>
    some { rsm with calls := rsm.calls.set c ⟨req, stage, some (.errWrongLeader, none)⟩ }
  | _ => none

/-- `doSubmit` up to `Start`: the shutdown check and the atomic increment. -/
def doSubmitNumber (rsm : RSM n M) (c : Nat) : Option (RSM n M) :=
  match rsm.calls[c]? with
  | some ⟨req, .entered, _⟩ =>
    if rsm.shutdown then some (rsm.setStage c .refused)
    else
      let opId := rsm.opId + 1
      some ({ rsm with opId := opId }.setStage c (.numbered { me := rsm.me, id := opId, req := req }))
  | _ => none

/-- What `Start` answered: the index and term, or that this is not the leader. -/
def doSubmitStarted (rsm : RSM n M) (c : Nat) (start : Option (Nat × Nat)) : Option (RSM n M) :=
  match rsm.stage c with
  | some (.numbered op) =>
    match start with
    | none => some (rsm.setStage c .refused)
    | some (index, term) =>
      some (rsm.setStage c (.started { op := op, result := none, done := none } index term))
  | _ => none

/-- The critical section that registers the pending op; one already there is told to give up. -/
def doSubmitRegister (rsm : RSM n M) (c : Nat) : Option (RSM n M) :=
  match rsm.stage c with
  | some (.started p index term) =>
    if rsm.shutdown then some (rsm.setStage c .refused)
    else
      let rsm := rsm.updateAt index fun existingOp => existingOp.send false
      some ({ rsm with pendingOps := fun i => if i = index then some c else rsm.pendingOps i }.setStage c
        (.waiting p index term))
  | _ => none

/-- `waitForResult` receives from `done`. -/
def waitDone (rsm : RSM n M) (c : Nat) : Option (RSM n M) :=
  match rsm.stage c with
  | some (.waiting p index term) =>
    match p.done with
    | none => none
    | some true =>
      some (rsm.setStage c (.leaving { p with done := none } index term .ok p.result))
    | some false =>
      some (rsm.setStage c (.leaving { p with done := none } index term .errWrongLeader none))
  | _ => none

/-- `waitForResult` sees the shutdown. -/
def waitShutdown (rsm : RSM n M) (c : Nat) : Option (RSM n M) :=
  match rsm.stage c with
  | some (.waiting p index term) =>
    if rsm.shutdown then some (rsm.setStage c (.leaving p index term .errWrongLeader none)) else none
  | _ => none

/-- The timer of `waitForResult` fires, and `GetState` answers `currentTerm` and `isLeader`. -/
def waitTimer (rsm : RSM n M) (c : Nat) (currentTerm : Nat) (isLeader : Bool) : Option (RSM n M) :=
  match rsm.stage c with
  | some (.waiting p index term) =>
    if rsm.shutdown ∨ !isLeader ∨ currentTerm ≠ term then
      some (rsm.setStage c (.leaving p index term .errWrongLeader none))
    else some rsm
  | _ => none

/-- The critical section at the end of `doSubmit`: whatever is registered at the index goes. -/
def doSubmitRemove (rsm : RSM n M) (c : Nat) : Option (RSM n M) :=
  match rsm.stage c with
  | some (.leaving p index term err result) =>
    some ({ rsm with pendingOps := fun i => if i = index then none else rsm.pendingOps i }.setStage c
      (.returned p index term err result))
  | _ => none

/-! ## The reader -/

/-- The critical section of `applyCommand`; `large` is whether the Raft state passed the threshold. -/
def applyCommand (rsm : RSM n M) (commandIndex : Nat) (op : Op n Q) (large : Bool) : RSM n M :=
  if commandIndex ≤ rsm.lastApplied then rsm
  else
    let (state, result) := M.doOp rsm.sm op.req
    let rsm := { rsm with sm := state, lastApplied := commandIndex }
    let rsm := rsm.updateAt commandIndex fun pendingOp =>
      if pendingOp.op.id = op.id ∧ pendingOp.op.me = rsm.me then
        { pendingOp with result := some result }.send true
      else pendingOp.send false
    if rsm.maxraftstate > 0 ∧ large then { rsm with snapshotDue := some commandIndex } else rsm

/-- `createSnapshot(index)`: the index and the data that go to Raft. -/
def createSnapshot (rsm : RSM n M) (index : Nat) : Option (Nat × Blob M.Bytes) :=
  if rsm.lastApplied < index then none
  else some (rsm.lastApplied,
    { opId := rsm.opId, lastApplied := rsm.lastApplied, smSnapshot := M.snapshot rsm.sm })

/-- `applySnapshot`; `none` is the panic on an index that does not match. -/
def applySnapshot (rsm : RSM n M) (snapshotIndex : Nat) (data : Blob M.Bytes) : Option (RSM n M) :=
  if snapshotIndex ≤ rsm.lastApplied then some rsm
  else if data.lastApplied ≠ snapshotIndex then none
  else
    let rsm := { rsm with
      opId := data.opId
      lastApplied := snapshotIndex
      sm := M.restore rsm.sm data.smSnapshot }
    some (rsm.notify (fun index => index ≤ snapshotIndex) false)

/-- `doShutdown`, by `Kill` or when `applyCh` is closed. -/
def doShutdown (rsm : RSM n M) : RSM n M :=
  { { rsm with shutdown := true }.notify (fun _ => true) false with pendingOps := fun _ => none }

end RSM

end DistSys.Rsm
