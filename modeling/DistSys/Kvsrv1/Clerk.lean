import DistSys.Lib.Transition
import DistSys.Kvsrv1.Server

/- Clerks over an unreliable network: kvsrv1/client.go.

   A request that is sent is in flight until it is executed, once, or lost; `Call` may
   return false at any time, also while its request is in flight or after it was executed,
   and the Clerk then sends again. A reply reaches the `Call` whose request it answers, or is
   lost. The replies are kept in the order of the executions.

   A clerk is its ClientId and has one call at a time. The number of a call and of an attempt
   are not in the source: they say which `Call` a request belongs to. -/
namespace DistSys.Kvsrv1

open Lib

inductive Op where
  | get (key : String)
  | put (key value : String) (version : Tversion)
  deriving DecidableEq

inductive Reply where
  | get (reply : GetReply)
  | put (reply : PutReply)
  deriving DecidableEq

/-- One RPC: the arguments, and the call and attempt that it was sent by. -/
structure Request where
  call : Nat
  attempt : Nat
  clientId : Int64
  seqNum : Int64
  op : Op
  deriving DecidableEq

def KVServer.handle (kv : KVServer) (req : Request) : KVServer × Reply :=
  match req.op with
  | .get key =>
    let (kv, reply) := kv.get ⟨key, req.clientId, req.seqNum⟩
    (kv, .get reply)
  | .put key value version =>
    let (kv, reply) := kv.put ⟨key, value, version, req.clientId, req.seqNum⟩
    (kv, .put reply)

/-- A `Get` or `Put` of a Clerk, in its loop. -/
structure Call where
  id : Nat
  op : Op
  seqNum : Int64
  attempt : Nat
  firstAttempt : Bool
  deriving DecidableEq

def Call.request (call : Call) (clientId : Int64) : Request :=
  ⟨call.id, call.attempt, clientId, call.seqNum, call.op⟩

/-- The call after a `Call` that returned false. -/
def Call.again (call : Call) : Call :=
  { call with attempt := call.attempt + 1, firstAttempt := false }

/-- What the Clerk returns for a reply. -/
def Call.result (call : Call) : Reply → Reply
  | .get reply => .get reply
  | .put reply =>
    .put (if reply.err = .errVersion ∧ call.firstAttempt = false then ⟨.errMaybe⟩ else reply)

structure Clerk where
  seqNum : Int64
  call : Option Call
  deriving DecidableEq

structure State where
  server : KVServer
  clerks : Int64 → Clerk
  pending : List Request
  executed : List (Request × Reply)
  calls : Nat

inductive Action where
  /-- a client calls `Get` or `Put` -/
  | call (clientId : Int64) (op : Op)
  | execute (i : Nat)
  | drop (i : Nat)
  /-- `Call` returns true, with a reply to its request -/
  | deliver (clientId : Int64) (i : Nat)
  /-- `Call` returns false -/
  | fail (clientId : Int64)
  deriving DecidableEq

namespace State

def setClerk (s : State) (clientId : Int64) (clerk : Clerk) : State :=
  { s with clerks := Function.update s.clerks clientId clerk }

def send (s : State) (req : Request) : State := { s with pending := s.pending ++ [req] }

/-- The call that a client makes next. -/
def newCall (s : State) (clientId : Int64) (op : Op) : Call :=
  ⟨s.calls, op, (s.clerks clientId).seqNum + 1, 0, true⟩

/-- The call that returns by an action, and what it returns. -/
def returned (s : State) : Action → Option (Call × Reply)
  | .deliver clientId i =>
    match (s.clerks clientId).call, s.executed[i]? with
    | some call, some (req, reply) =>
      if req = call.request clientId then some (call, call.result reply) else none
    | _, _ => none
  | _ => none

def execute (s : State) (i : Nat) (req : Request) : State :=
  let (server, reply) := s.server.handle req
  { s with server := server, pending := s.pending.eraseIdx i,
           executed := s.executed ++ [(req, reply)] }

def step (s : State) : Action → Option State
  | .call clientId op =>
    match (s.clerks clientId).call with
    | some _ => none
    | none =>
      let call := s.newCall clientId op
      some ({ s with calls := s.calls + 1 }.setClerk clientId ⟨call.seqNum, some call⟩ |>.send
        (call.request clientId))
  | .execute i => s.pending[i]?.map fun req => s.execute i req
  | .drop i => s.pending[i]?.map fun _ => { s with pending := s.pending.eraseIdx i }
  | .deliver clientId i => (s.returned (.deliver clientId i)).map fun _ =>
      s.setClerk clientId ⟨(s.clerks clientId).seqNum, none⟩
  | .fail clientId => (s.clerks clientId).call.map fun call =>
      (s.setClerk clientId ⟨(s.clerks clientId).seqNum, some call.again⟩).send
        (call.again.request clientId)

def initial : State :=
  { server := .makeKVServer, clerks := fun _ => ⟨0, none⟩, pending := [], executed := [], calls := 0 }

end State

/-- Clerks of one server. -/
def kvsrv : Lts State Action where
  init s := s = .initial
  step s a t := s.step a = some t

namespace State

variable {s t : State}

/-! ## What each action does -/

theorem step_call {c : Int64} {op : Op} (h : s.step (.call c op) = some t) :
    (s.clerks c).call = none ∧
      t = ({ s with calls := s.calls + 1 }.setClerk c
        ⟨(s.newCall c op).seqNum, some (s.newCall c op)⟩).send ((s.newCall c op).request c) := by
  cases hcall : (s.clerks c).call with
  | some call => simp [step, hcall] at h
  | none => exact ⟨rfl, by simpa [step, hcall] using h.symm⟩

theorem step_execute {i : Nat} (h : s.step (.execute i) = some t) :
    ∃ req, s.pending[i]? = some req ∧ t = s.execute i req := by
  obtain ⟨req, hreq, ht⟩ := Option.map_eq_some_iff.mp h
  exact ⟨req, hreq, ht.symm⟩

theorem step_drop {i : Nat} (h : s.step (.drop i) = some t) :
    t = { s with pending := s.pending.eraseIdx i } := by
  obtain ⟨-, -, ht⟩ := Option.map_eq_some_iff.mp h
  exact ht.symm

theorem returned_eq_some {a : Action} {call : Call} {r : Reply}
    (h : s.returned a = some (call, r)) : ∃ c i reply, a = .deliver c i ∧
      (s.clerks c).call = some call ∧ s.executed[i]? = some (call.request c, reply) ∧
      r = call.result reply := by
  cases a with
  | deliver c i =>
    cases hcall : (s.clerks c).call with
    | none => simp [returned, hcall] at h
    | some call' =>
      cases hreply : s.executed[i]? with
      | none => simp [returned, hcall, hreply] at h
      | some x =>
        simp only [returned, hcall, hreply] at h
        split at h
        · rename_i hreq
          obtain ⟨rfl, rfl⟩ : call' = call ∧ _ = r := by simpa using h
          exact ⟨c, i, x.2, rfl, hcall, by rw [hreply, ← hreq], rfl⟩
        · contradiction
  | call _ _ => contradiction
  | execute _ => contradiction
  | drop _ => contradiction
  | fail _ => contradiction

theorem step_deliver {c : Int64} {i : Nat} (h : s.step (.deliver c i) = some t) :
    (∃ call reply, (s.clerks c).call = some call ∧
      s.executed[i]? = some (call.request c, reply)) ∧
    t = s.setClerk c ⟨(s.clerks c).seqNum, none⟩ := by
  obtain ⟨⟨call, r⟩, hret, ht⟩ := Option.map_eq_some_iff.mp h
  obtain ⟨c', i', reply, heq, hcall, hreply, -⟩ := returned_eq_some hret
  obtain ⟨rfl, rfl⟩ : c = c' ∧ i = i' := by simpa using heq
  exact ⟨⟨call, reply, hcall, hreply⟩, ht.symm⟩

theorem step_fail {c : Int64} (h : s.step (.fail c) = some t) :
    ∃ call, (s.clerks c).call = some call ∧
      t = (s.setClerk c ⟨(s.clerks c).seqNum, some call.again⟩).send (call.again.request c) := by
  obtain ⟨call, hcall, ht⟩ := Option.map_eq_some_iff.mp h
  exact ⟨call, hcall, ht.symm⟩

/-! ## A call that is answered at once -/

variable (s) (c : Int64) (op : Op)

/-- After the call. -/
def asked : State :=
  ({ s with calls := s.calls + 1 }.setClerk c ⟨(s.newCall c op).seqNum, some (s.newCall c op)⟩).send
    ((s.newCall c op).request c)

/-- After the execution of its request. -/
def answered : State := (s.asked c op).execute s.pending.length ((s.newCall c op).request c)

/-- After the return. -/
def exchanged : State := (s.answered c op).setClerk c ⟨(s.newCall c op).seqNum, none⟩

def exchange : List (State × Action) :=
  [(s, .call c op), (s.asked c op, .execute s.pending.length),
    (s.answered c op, .deliver c s.executed.length)]

theorem answered_pending : (s.answered c op).pending = s.pending := by
  simp [answered, asked, execute, send, setClerk, List.eraseIdx_append_of_length_le]

theorem answered_returned : (s.answered c op).returned (.deliver c s.executed.length) =
    some (s.newCall c op, (s.server.handle ((s.newCall c op).request c)).2) := by
  have hcall : ((s.answered c op).clerks c).call = some (s.newCall c op) := by
    simp [answered, asked, execute, send, setClerk]
  have hreply : (s.answered c op).executed[s.executed.length]? =
      some ((s.newCall c op).request c, (s.server.handle ((s.newCall c op).request c)).2) := by
    simp [answered, asked, execute, send, setClerk]
  have hresult : ∀ reply, (s.newCall c op).result reply = reply := by
    intro reply
    cases reply with
    | get reply => rfl
    | put reply => simp [Call.result, newCall]
  simp only [returned, hcall, hreply, hresult, if_true]

theorem step_asked (h : (s.clerks c).call = none) : s.step (.call c op) = some (s.asked c op) := by
  simp [step, h, asked]

theorem step_answered : (s.asked c op).step (.execute s.pending.length) = some (s.answered c op) := by
  simp [step, asked, send, setClerk, answered]

theorem step_exchanged :
    (s.answered c op).step (.deliver c s.executed.length) = some (s.exchanged c op) := by
  have hseq : ((s.answered c op).clerks c).seqNum = (s.newCall c op).seqNum := by
    simp [answered, asked, execute, send, setClerk]
  simp [step, answered_returned, exchanged, hseq]

theorem exchange_run (h : (s.clerks c).call = none) :
    kvsrv.Run s (s.exchange c op) (s.exchanged c op) := by
  have hasked : kvsrv.Run s [(s, .call c op)] (s.asked c op) :=
    Lts.Run.single (s.step_asked c op h)
  exact (hasked.snoc (s.step_answered c op)).snoc (s.step_exchanged c op)

end State

end DistSys.Kvsrv1
