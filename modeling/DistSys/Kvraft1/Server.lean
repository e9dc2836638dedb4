import DistSys.Lib.FinMap
import DistSys.Kvsrv1.Rpc

/- The replicated key/value store: kvraft1/server.go, in the order of the source.

   The maps are finite maps and what they point to is held in them: nothing else
   keeps a pointer. A nil `Replies` reads as an empty one, as the code makes sure.
   The loop of `Snapshot` over the last ten sequence numbers counts in int64 and does
   not end for a client whose `MaxSeqNum` is the largest one; it has fuel here, and
   `none` is a loop that has not ended. The lock, and the RPC handlers around `rsm`,
   are left out. The gob encoding of a snapshot is taken to round-trip. -/
namespace DistSys.Kvraft1

open Kvsrv1 Lib

structure KVPair where
  value : String
  version : Tversion
  deriving DecidableEq

/-- The strings a command may be: the two constants, or anything else. -/
inductive Method where
  | get
  | put
  | other (name : String)
  deriving DecidableEq

structure RaftReqMsg where
  command : Method
  key : String
  value : String
  seqNum : Int64
  clientId : Int64
  version : Tversion
  deriving DecidableEq

structure RaftReplyMsg where
  command : Method
  value : String
  version : Tversion
  err : Err
  deriving DecidableEq

/-- The replies to a client by sequence number, and the highest number seen. -/
structure DupTab where
  replies : FinMap Int64 RaftReplyMsg
  maxSeqNum : Int64

structure KVServer where
  cache : FinMap String KVPair
  clientMap : FinMap Int64 DupTab

/-- What `DoOp` may be called with: a `RaftReqMsg`, by value or by pointer, or another type. -/
inductive Req where
  | raftReq (raftReq : RaftReqMsg)
  | other
  deriving DecidableEq

/-- A reply of which only `Err` is set. -/
def wrongLeader : RaftReplyMsg :=
  { command := .other "", value := "", version := 0, err := .errWrongLeader }

namespace KVServer

/-- A server as `StartKVServer` makes it. -/
def empty : KVServer := { cache := ∅, clientMap := ∅ }

/-! ## DoOp -/

/-- The reply that the table has for a request. -/
def cached (kv : KVServer) (clientId seqNum : Int64) : Option RaftReplyMsg :=
  (kv.clientMap.lookup clientId).bind fun dup => dup.replies.lookup seqNum

end KVServer

/-- The switch on the command: the new cache and the reply; `none` is the default branch. -/
def execute (cache : FinMap String KVPair) (raftReq : RaftReqMsg) :
    Option (FinMap String KVPair × RaftReplyMsg) :=
  let replyMsg : Err → RaftReplyMsg := fun err =>
    { command := raftReq.command, value := "", version := raftReq.version, err := err }
  match raftReq.command with
  | .get =>
    match cache.lookup raftReq.key with
    | some kvPair =>
      some (cache, { replyMsg .ok with value := kvPair.value, version := kvPair.version })
    | none => some (cache, replyMsg .errNoKey)
  | .put =>
    match cache.lookup raftReq.key with
    | some kvPair =>
      if kvPair.version = raftReq.version then
        let version := kvPair.version + 1
        some (cache.insert raftReq.key { value := raftReq.value, version := version },
          { replyMsg .ok with version := version })
      else some (cache, replyMsg .errVersion)
    | none =>
      if raftReq.version = 0 then
        some (cache.insert raftReq.key { value := raftReq.value, version := 1 },
          { replyMsg .ok with version := 1 })
      else some (cache, replyMsg .errVersion)
  | .other _ => none

/-- A reply goes into the table of a known client; a new highest number drops the replies more
than 100 below it. -/
def DupTab.record (dup : DupTab) (seqNum : Int64) (replyMsg : RaftReplyMsg) : DupTab :=
  let replies : FinMap Int64 RaftReplyMsg := dup.replies.insert seqNum replyMsg
  if seqNum > dup.maxSeqNum then
    { replies := replies.filterMap fun old reply => if old < seqNum - 100 then none else some reply
      maxSeqNum := seqNum }
  else { dup with replies := replies }

/-- The reply is cached for the client and sequence number of the request. -/
def record (clientMap : FinMap Int64 DupTab) (raftReq : RaftReqMsg) (replyMsg : RaftReplyMsg) :
    FinMap Int64 DupTab :=
  match clientMap.lookup raftReq.clientId with
  | some dup => clientMap.insert raftReq.clientId (dup.record raftReq.seqNum replyMsg)
  | none => clientMap.insert raftReq.clientId
      { replies := AList.singleton raftReq.seqNum replyMsg, maxSeqNum := raftReq.seqNum }

namespace KVServer

def doOp (kv : KVServer) : Req → KVServer × RaftReplyMsg
  | .other => (kv, wrongLeader)
  | .raftReq raftReq =>
    match kv.cached raftReq.clientId raftReq.seqNum with
    | some reply => (kv, reply)
    | none =>
      match execute kv.cache raftReq with
      | some (cache, replyMsg) =>
        ({ cache := cache, clientMap := record kv.clientMap raftReq replyMsg }, replyMsg)
      | none => (kv, wrongLeader)

/-- A command is answered without a change, or it is executed and its reply recorded. -/
theorem doOp_spec (kv : KVServer) (req : Req) :
    ((kv.doOp req).1 = kv ∧ ∀ m, req = .raftReq m →
      (kv.cached m.clientId m.seqNum).isSome ∨ execute kv.cache m = none) ∨
    ∃ m cache replyMsg, req = .raftReq m ∧ kv.cached m.clientId m.seqNum = none ∧
      execute kv.cache m = some (cache, replyMsg) ∧
      kv.doOp req = (⟨cache, record kv.clientMap m replyMsg⟩, replyMsg) := by
  cases req with
  | other => exact Or.inl ⟨rfl, by simp⟩
  | raftReq m =>
    cases hcached : kv.cached m.clientId m.seqNum with
    | some reply => exact Or.inl ⟨by simp [doOp, hcached], by simp_all⟩
    | none =>
      cases hexec : execute kv.cache m with
      | none => exact Or.inl ⟨by simp [doOp, hcached, hexec], by simp_all⟩
      | some p => exact Or.inr ⟨m, p.1, p.2, rfl, hcached, hexec, by simp [doOp, hcached, hexec]⟩

/-- The commands of a log one after another, with the replies. -/
def applyAll (kv : KVServer) : List Req → KVServer × List RaftReplyMsg
  | [] => (kv, [])
  | req :: reqs =>
    let (kv, reply) := kv.doOp req
    let (kv, replies) := kv.applyAll reqs
    (kv, reply :: replies)

end KVServer

/-! ## Snapshot and Restore -/

/-- The loop over the sequence numbers from `seqNum` to `maxSeqNum`. -/
def recentReplies (dup : DupTab) : Nat → Int64 → FinMap Int64 RaftReplyMsg →
    Option (FinMap Int64 RaftReplyMsg)
  | 0, _, _ => none
  | fuel + 1, seqNum, recent =>
    if seqNum ≤ dup.maxSeqNum then
      match dup.replies.lookup seqNum with
      | some reply => recentReplies dup fuel (seqNum + 1) (recent.insert seqNum reply)
      | none => recentReplies dup fuel (seqNum + 1) recent
    else some recent

/-- The table of one client, with the last ten replies. -/
def compactDup (fuel : Nat) (dup : DupTab) : Option DupTab :=
  if dup.maxSeqNum > 0 then
    (recentReplies dup fuel (dup.maxSeqNum - 9) ∅).map fun recent =>
      { replies := recent, maxSeqNum := dup.maxSeqNum }
  else some { replies := ∅, maxSeqNum := dup.maxSeqNum }

/-- What `Snapshot` encodes. -/
structure SnapshotData where
  cache : FinMap String KVPair
  compactDupTab : FinMap Int64 DupTab

namespace KVServer

def snapshot (fuel : Nat) (kv : KVServer) : Option SnapshotData :=
  (kv.clientMap.traverse fun _ dup => compactDup fuel dup).map fun compactDupTab =>
    { cache := kv.cache, compactDupTab := compactDupTab }

/-- `Restore`; `none` is a snapshot of no bytes. -/
def restore (kv : KVServer) : Option SnapshotData → KVServer
  | none => kv
  | some snapshot => { cache := snapshot.cache, clientMap := snapshot.compactDupTab }

end KVServer

end DistSys.Kvraft1
