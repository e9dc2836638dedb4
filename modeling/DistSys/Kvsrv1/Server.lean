import DistSys.Kvsrv1.Rpc
import Mathlib.Logic.Function.Basic

/- The single key/value server: kvsrv1/server.go.

   The maps are read and assigned at one key at a time only, and are functions here. A
   pointer in the table is to a reply that nothing changes later, and is the reply. The
   lock is left out: a handler is one step. -/
namespace DistSys.Kvsrv1

structure KVPair where
  value : String
  version : Tversion
  deriving DecidableEq

/-- The last `Get` of a client, or its last `Put` that succeeded. -/
structure DupTab where
  lastSeqNum : Int64
  lastGetReply : Option GetReply
  lastPutReply : Option PutReply
  deriving DecidableEq

structure KVServer where
  cache : String → Option KVPair
  clientMap : Int64 → Option DupTab

/-- The version of a key; a missing one counts as version 0. -/
def versionOf (cache : String → Option KVPair) (key : String) : Tversion :=
  match cache key with
  | some pair => pair.version
  | none => 0

/-- The answer to a `Get` that is executed. -/
def readReply (cache : String → Option KVPair) (key : String) : GetReply :=
  match cache key with
  | some pair => { value := pair.value, version := pair.version, err := .ok }
  | none => { value := "", version := 0, err := .errNoKey }

namespace KVServer

def makeKVServer : KVServer := { cache := fun _ => none, clientMap := fun _ => none }

/-- The reply in the table to the same request. -/
def dupGet (kv : KVServer) (args : GetArgs) : Option GetReply :=
  (kv.clientMap args.clientId).bind fun dup =>
    if args.seqNum = dup.lastSeqNum then dup.lastGetReply else none

def get (kv : KVServer) (args : GetArgs) : KVServer × GetReply :=
  match kv.dupGet args with
  | some reply => (kv, reply)
  | none =>
    let reply := readReply kv.cache args.key
    let clientMap := Function.update kv.clientMap args.clientId
      (some { lastSeqNum := args.seqNum, lastGetReply := some reply, lastPutReply := none })
    ({ kv with clientMap := clientMap }, reply)

/-- The reply in the table to the same request, if the request would still succeed. -/
def dupPut (kv : KVServer) (args : PutArgs) : Option PutReply :=
  (kv.clientMap args.clientId).bind fun dup =>
    if args.seqNum = dup.lastSeqNum then
      dup.lastPutReply.bind fun reply =>
        if reply.err = .ok then
          match kv.cache args.key with
          | some pair => if args.version = pair.version then some reply else none
          | none => if args.version = 0 then some reply else none
        else none
    else none

def put (kv : KVServer) (args : PutArgs) : KVServer × PutReply :=
  match kv.dupPut args with
  | some reply => (kv, reply)
  | none =>
    let reply : PutReply := { err := .ok }
    let clientMap := Function.update kv.clientMap args.clientId
      (some { lastSeqNum := args.seqNum, lastGetReply := none, lastPutReply := some reply })
    match kv.cache args.key with
    | some pair =>
      if args.version = pair.version then
        ({ cache := Function.update kv.cache args.key
              (some { value := args.value, version := pair.version + 1 })
           clientMap := clientMap }, reply)
      else (kv, { err := .errVersion })
    | none =>
      if args.version = 0 then
        ({ cache := Function.update kv.cache args.key (some { value := args.value, version := 1 })
           clientMap := clientMap }, reply)
      else (kv, { err := .errNoKey })

/-! ## What the handlers do -/

theorem dupGet_eq_some {kv : KVServer} {args : GetArgs} {reply : GetReply}
    (h : kv.dupGet args = some reply) :
    ∃ dup, kv.clientMap args.clientId = some dup ∧ dup.lastSeqNum = args.seqNum ∧
      dup.lastGetReply = some reply := by
  obtain ⟨dup, hdup, hrest⟩ := Option.bind_eq_some_iff.mp h
  split at hrest
  · rename_i hseq
    exact ⟨dup, hdup, hseq.symm, hrest⟩
  · contradiction

theorem dupPut_eq_some {kv : KVServer} {args : PutArgs} {reply : PutReply}
    (h : kv.dupPut args = some reply) :
    ∃ dup, kv.clientMap args.clientId = some dup ∧ dup.lastSeqNum = args.seqNum ∧
      dup.lastPutReply = some reply ∧ args.version = versionOf kv.cache args.key := by
  obtain ⟨dup, hdup, hrest⟩ := Option.bind_eq_some_iff.mp h
  split at hrest
  · rename_i hseq
    obtain ⟨reply', hreply, hrest⟩ := Option.bind_eq_some_iff.mp hrest
    split at hrest
    · cases hlook : kv.cache args.key with
      | some pair =>
        simp only [hlook] at hrest
        split at hrest
        · rename_i hver
          obtain rfl := Option.some.inj hrest
          exact ⟨dup, hdup, hseq.symm, hreply, by simp [versionOf, hlook, hver]⟩
        · contradiction
      | none =>
        simp only [hlook] at hrest
        split at hrest
        · rename_i hver
          obtain rfl := Option.some.inj hrest
          exact ⟨dup, hdup, hseq.symm, hreply, by simp [versionOf, hlook, hver]⟩
        · contradiction
    · contradiction
  · contradiction

theorem dupPut_ok {kv : KVServer} {args : PutArgs} {reply : PutReply}
    (h : kv.dupPut args = some reply) : reply.err = .ok := by
  obtain ⟨dup, -, hrest⟩ := Option.bind_eq_some_iff.mp h
  split at hrest
  · obtain ⟨reply', -, hrest⟩ := Option.bind_eq_some_iff.mp hrest
    split at hrest
    · rename_i hok
      split at hrest <;> split at hrest <;> simp_all
    · contradiction
  · contradiction

/-- A `Put` that is executed takes effect at the version it names, and only there. -/
theorem put_executed {kv : KVServer} {args : PutArgs} (h : kv.dupPut args = none) :
    (args.version = versionOf kv.cache args.key ∧
      kv.put args =
        (⟨Function.update kv.cache args.key (some ⟨args.value, args.version + 1⟩),
          Function.update kv.clientMap args.clientId (some ⟨args.seqNum, none, some ⟨.ok⟩⟩)⟩,
          ⟨.ok⟩)) ∨
    (args.version ≠ versionOf kv.cache args.key ∧
      kv.put args = (kv, ⟨if (kv.cache args.key).isSome then .errVersion else .errNoKey⟩)) := by
  unfold put versionOf
  rw [h]
  cases hlook : kv.cache args.key with
  | some pair =>
    by_cases hver : args.version = pair.version
    · exact Or.inl ⟨hver, by simp [hver]⟩
    · exact Or.inr ⟨hver, by simp [hver]⟩
  | none =>
    by_cases hver : args.version = 0
    · exact Or.inl ⟨hver, by simp [hver]⟩
    · exact Or.inr ⟨hver, by simp [hver]⟩

end KVServer

theorem versionOf_update (cache : String → Option KVPair) (key : String) (pair : KVPair)
    (key' : String) : versionOf (Function.update cache key (some pair)) key' =
      if key' = key then pair.version else versionOf cache key' := by
  unfold versionOf
  by_cases hkey : key' = key
  · simp [hkey]
  · simp [hkey]

end DistSys.Kvsrv1
