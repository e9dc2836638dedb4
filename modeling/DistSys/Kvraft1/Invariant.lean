import DistSys.Kvraft1.Clerk
import DistSys.Kvraft1.Replicas

/- What holds in every state of a run of the replicated store, as long as its log is in order.

   A call leaves any number of copies of its command in the log, through different servers, some of
   them committed after it has returned. They all have its number, and no other call of the client
   has it: the numbers go up, and when they would begin again from the smallest the log has the
   largest already, so that no command of that call can follow (`Calls`). Such a log is well
   numbered, so the replicas are in step with it (`Copies`), and what a handler replies is
   ErrWrongLeader or what the log gives for its own command (`Replied`). -/
namespace DistSys.Kvraft1

open Lib
open Kvsrv1 (Err GetReply Op Reply)

/-! ## The calls of the clerks -/

def commands (log : List (Nat × Request)) : List RaftReqMsg := log.map fun entry => entry.2.raftReq

/-- At each position of the log the number of a client is not below those before. -/
def InOrder (log : List (Nat × Request)) : Prop :=
  log.Pairwise fun x y => x.2.clientId = y.2.clientId → x.2.seqNum ≤ y.2.seqNum

instance (log : List (Nat × Request)) : Decidable (InOrder log) :=
  inferInstanceAs (Decidable (log.Pairwise fun x y =>
    x.2.clientId = y.2.clientId → x.2.seqNum ≤ y.2.seqNum))

theorem Request.raftReq_clientId (req : Request) : req.raftReq.clientId = req.clientId := by
  unfold Request.raftReq
  split <;> rfl

theorem Request.raftReq_seqNum (req : Request) : req.raftReq.seqNum = req.seqNum := by
  unfold Request.raftReq
  split <;> rfl

theorem Request.raftReq_command (req : Request) (name : String) :
    req.raftReq.command ≠ .other name := by
  unfold Request.raftReq
  split <;> simp

/-- The calls that were made, the RPCs that were sent for them and the commands that were committed.
Every call before the last one of its client was answered, so a command of it is in the log. -/
structure Calls (clerks : Int64 → Clerk) (sent : List Request) (log : List (Nat × Request)) :
    Prop where
  seqNum : ∀ c, (clerks c).seqNum = Int64.ofNat (clerks c).calls
  current : ∀ c call, (clerks c).call = some call → call.number = (clerks c).calls ∧
    call.seqNum = (clerks c).seqNum ∧
    ∃ server, sent[call.attempt]? = some ⟨c, call.seqNum, call.op, call.number, server⟩
  numbered : ∀ req ∈ sent, req.seqNum = Int64.ofNat req.call ∧ 1 ≤ req.call ∧
    req.call ≤ (clerks req.clientId).calls
  op : ∀ req ∈ sent, ∀ req' ∈ sent, req.clientId = req'.clientId → req.call = req'.call →
    req.op = req'.op
  committed : ∀ a req, (a, req) ∈ log → sent[a]? = some req ∧ req.call < 2 ^ 63
  done : ∀ c n, 1 ≤ n → n < (clerks c).calls ∨ n = (clerks c).calls ∧ (clerks c).call = none →
    ∃ entry ∈ log, entry.2.clientId = c ∧ entry.2.call = n

theorem toInt_ofNat {n : Nat} (h : n < 2 ^ 63) : (Int64.ofNat n).toInt = n :=
  Int64.toInt_ofNat_of_lt h

namespace Calls

variable {clerks : Int64 → Clerk} {sent : List Request} {log : List (Nat × Request)}

theorem initial : Calls (fun _ => ⟨0, 0, 0, none⟩) [] [] := by
  refine ⟨fun _ => rfl, by simp, by simp, by simp, by simp, ?_⟩
  intro c n hn h
  simp only at h
  omega

theorem of_mem_log (h : Calls clerks sent log) {a : Nat} {req : Request} (hmem : (a, req) ∈ log) :
    req.seqNum = Int64.ofNat req.call ∧ 1 ≤ req.call ∧ req.call < 2 ^ 63 ∧
      req.call ≤ (clerks req.clientId).calls := by
  obtain ⟨hsent, hlt⟩ := h.committed a req hmem
  obtain ⟨hseq, hpos, hle⟩ := h.numbered req (List.mem_of_getElem? hsent)
  exact ⟨hseq, hpos, hlt, hle⟩

/-- The calls of a client are at most one more than the positive numbers. -/
theorem calls_le (h : Calls clerks sent log) (c : Int64) : (clerks c).calls ≤ 2 ^ 63 := by
  by_contra hlt
  obtain ⟨⟨a, req⟩, hmem, -, hcall⟩ := h.done c (2 ^ 63) (by omega) (Or.inl (by omega))
  have hlog := (h.committed a req hmem).2
  simp only at hcall
  omega

/-- A client sends an RPC for a call, its last or a new one. -/
theorem send (h : Calls clerks sent log) {c : Int64} {clerk : Clerk} {call : Call}
    (hattempt : call.attempt = sent.length) (server : Nat)
    (hnumber : call.number = clerk.calls) (hcallSeq : call.seqNum = clerk.seqNum)
    (hseq : clerk.seqNum = Int64.ofNat clerk.calls) (hpos : 1 ≤ clerk.calls)
    (hcalls : (clerks c).calls ≤ clerk.calls)
    (hop : ∀ req ∈ sent, req.clientId = c → req.call = clerk.calls → req.op = call.op)
    (hdone : ∀ n, 1 ≤ n → n < clerk.calls → ∃ entry ∈ log, entry.2.clientId = c ∧ entry.2.call = n) :
    Calls (Function.update clerks c { clerk with call := some call })
      (sent ++ [⟨c, call.seqNum, call.op, call.number, server⟩]) log := by
  have hold : ∀ d, (clerks d).calls ≤
      (Function.update clerks c { clerk with call := some call } d).calls := by
    intro d
    by_cases hd : d = c
    · subst hd
      simpa using hcalls
    · simp [hd]
  refine ⟨?_, ?_, ?_, ?_, ?_, ?_⟩
  · intro d
    by_cases hd : d = c
    · subst hd
      simpa using hseq
    · simpa [hd] using h.seqNum d
  · intro d call' hcall'
    by_cases hd : d = c
    · subst hd
      obtain rfl : call = call' := by simpa using hcall'
      simp [hnumber, hcallSeq, hattempt]
    · rw [Function.update_of_ne hd] at hcall' ⊢
      obtain ⟨hn, hs, server', hget⟩ := h.current d call' hcall'
      refine ⟨hn, hs, server', ?_⟩
      rw [List.getElem?_append_left (List.getElem?_eq_some_iff.mp hget).1, hget]
  · intro req hreq
    rcases List.mem_append.mp hreq with hreq | hreq
    · obtain ⟨hs, hp, hle⟩ := h.numbered req hreq
      exact ⟨hs, hp, hle.trans (hold _)⟩
    · obtain rfl := List.mem_singleton.mp hreq
      simp [hnumber, hcallSeq, hseq, hpos]
  · intro req hreq req' hreq' hclient hcall
    rcases List.mem_append.mp hreq with hreq | hreq
    · rcases List.mem_append.mp hreq' with hreq' | hreq'
      · exact h.op req hreq req' hreq' hclient hcall
      · obtain rfl := List.mem_singleton.mp hreq'
        exact hop req hreq hclient (hcall.trans hnumber)
    · obtain rfl := List.mem_singleton.mp hreq
      rcases List.mem_append.mp hreq' with hreq' | hreq'
      · exact (hop req' hreq' hclient.symm (hcall.symm.trans hnumber)).symm
      · obtain rfl := List.mem_singleton.mp hreq'
        rfl
  · intro a req hmem
    obtain ⟨hget, hlt⟩ := h.committed a req hmem
    exact ⟨by rw [List.getElem?_append_left (List.getElem?_eq_some_iff.mp hget).1, hget], hlt⟩
  · intro d n hn hd
    by_cases hdc : d = c
    · subst hdc
      refine hdone n hn ?_
      simpa using hd
    · rw [Function.update_of_ne hdc] at hd
      exact h.done d n hn hd

theorem begin {s : State} (h : Calls s.clerks s.sent s.log) {c : Int64} (op : Op)
    (hidle : (s.clerks c).call = none) :
    Calls (s.begin c op).clerks (s.begin c op).sent (s.begin c op).log := by
  refine h.send rfl _ rfl rfl ?_ (Nat.le_add_left 1 _) (Nat.le_succ _) ?_ ?_
  · -- the number of the call and the SeqNum are counted up together
    simp only [State.newCall, h.seqNum c]
    exact (Int64.ofNat_add _ 1).symm
  · rintro req hreq rfl hcall
    have hle := (h.numbered req hreq).2.2
    simp only [State.newCall] at hcall
    omega
  · intro n hn hlt
    refine h.done c n hn ?_
    simp only [State.newCall] at hlt
    rcases Nat.lt_succ_iff_lt_or_eq.mp hlt with hlt | heq
    · exact Or.inl hlt
    · exact Or.inr ⟨heq, hidle⟩

theorem tryNext {s : State} (h : Calls s.clerks s.sent s.log) {c : Int64} {call call' : Call}
    (hcall : (s.clerks c).call = some call) (servers : Nat) (hnumber : call'.number = call.number)
    (hseq : call'.seqNum = call.seqNum) (hop : call'.op = call.op) :
    Calls (s.tryNext servers c call').clerks (s.tryNext servers c call').sent
      (s.tryNext servers c call').log := by
  obtain ⟨hn, hs, server, hget⟩ := h.current c call hcall
  have hmem := List.mem_of_getElem? hget
  have hpos : 1 ≤ call.number := (h.numbered _ hmem).2.1
  refine h.send rfl _ (hnumber.trans hn) (hseq.trans hs) (h.seqNum c) ?_ le_rfl ?_ ?_
  · omega
  · intro req hreq hclient hcalls
    rw [h.op req hreq _ hmem hclient (hcalls.trans hn.symm)]
    exact hop.symm
  · intro n hpos hlt
    exact h.done c n hpos (Or.inl hlt)

/-- A call returns that has a command in the log. -/
theorem finish {s : State} (h : Calls s.clerks s.sent s.log) {c : Int64} {call : Call}
    (hcall : (s.clerks c).call = some call)
    (hlog : ∃ entry ∈ s.log, entry.2.clientId = c ∧ entry.2.call = call.number) :
    Calls (s.finish c call).clerks (s.finish c call).sent (s.finish c call).log := by
  have hcalls : ∀ d, ((s.finish c call).clerks d).calls = (s.clerks d).calls ∧
      ((s.finish c call).clerks d).seqNum = (s.clerks d).seqNum := by
    intro d
    by_cases hd : d = c
    · subst hd
      simp [State.finish, State.setClerk]
    · simp [State.finish, State.setClerk, hd]
  have hother : ∀ d, d ≠ c → (s.finish c call).clerks d = s.clerks d := by
    intro d hd
    simp [State.finish, State.setClerk, hd]
  refine ⟨?_, ?_, ?_, h.op, h.committed, ?_⟩
  · intro d
    rw [(hcalls d).1, (hcalls d).2]
    exact h.seqNum d
  · intro d call' hcall'
    by_cases hd : d = c
    · subst hd
      simp [State.finish, State.setClerk] at hcall'
    · rw [hother d hd] at hcall' ⊢
      exact h.current d call' hcall'
  · intro req hreq
    rw [(hcalls _).1]
    exact h.numbered req hreq
  · intro d n hn hd
    rw [(hcalls d).1] at hd
    rcases hd with hlt | ⟨heq, hidle⟩
    · exact h.done d n hn (Or.inl hlt)
    · by_cases hdc : d = c
      · subst hdc
        obtain ⟨entry, hmem, hclient, hnum⟩ := hlog
        exact ⟨entry, hmem, hclient, by rw [hnum, (h.current d call hcall).1, heq]⟩
      · rw [hother d hdc] at hidle
        exact h.done d n hn (Or.inr ⟨heq, hidle⟩)

/-- A command is committed. It is not one of a call whose number has begun again: the largest number
of the client is in the log by then. -/
theorem commit (h : Calls clerks sent log) {a : Nat} {req : Request} (hreq : sent[a]? = some req)
    (horder : InOrder (log ++ [(a, req)])) : Calls clerks sent (log ++ [(a, req)]) := by
  obtain ⟨hseq, hpos, hle⟩ := h.numbered req (List.mem_of_getElem? hreq)
  have hlt : req.call < 2 ^ 63 := by
    by_contra hge
    have hbound := h.calls_le req.clientId
    have hcall : req.call = 2 ^ 63 := by omega
    obtain ⟨⟨b, last⟩, hmem, hclient, hlast⟩ :=
      h.done req.clientId (2 ^ 63 - 1) (by omega) (Or.inl (by omega))
    have hord := (List.pairwise_append.mp horder).2.2 _ hmem _ (List.mem_singleton_self _) hclient
    rw [hseq, hcall, (h.of_mem_log hmem).1, hlast] at hord
    revert hord
    decide
  refine ⟨h.seqNum, h.current, h.numbered, h.op, ?_, ?_⟩
  · intro b req' hmem
    rcases List.mem_append.mp hmem with hmem | hmem
    · exact h.committed b req' hmem
    · obtain ⟨rfl, rfl⟩ := Prod.mk.inj (List.mem_singleton.mp hmem)
      exact ⟨hreq, hlt⟩
  · intro c n hn hd
    obtain ⟨entry, hmem, hentry⟩ := h.done c n hn hd
    exact ⟨entry, List.mem_append_left _ hmem, hentry⟩

/-- Commands of one client with one number are of one call. -/
theorem same_call (h : Calls clerks sent log) {a b : Nat} {req req' : Request}
    (hreq : (a, req) ∈ log) (hreq' : (b, req') ∈ log) (hseq : req.seqNum = req'.seqNum) :
    req.call = req'.call := by
  obtain ⟨hs, -, hlt, -⟩ := h.of_mem_log hreq
  obtain ⟨hs', -, hlt', -⟩ := h.of_mem_log hreq'
  have hint := congrArg Int64.toInt hseq
  rw [hs, hs', toInt_ofNat hlt, toInt_ofNat hlt'] at hint
  omega

/-- The commands of a call are copies of each other. -/
theorem same_command (h : Calls clerks sent log) {a b : Nat} {req req' : Request}
    (hreq : (a, req) ∈ log) (hreq' : (b, req') ∈ log) (hclient : req.clientId = req'.clientId)
    (hcall : req.call = req'.call) : req.raftReq = req'.raftReq := by
  have hop := h.op req (List.mem_of_getElem? (h.committed a req hreq).1) req'
    (List.mem_of_getElem? (h.committed b req' hreq').1) hclient hcall
  have hseq : req.seqNum = req'.seqNum := by
    rw [(h.of_mem_log hreq).1, (h.of_mem_log hreq').1, hcall]
  simp only [Request.raftReq, hop, hseq, hclient]

theorem wellNumbered (h : Calls clerks sent log) (horder : InOrder log) :
    WellNumbered (commands log) := by
  refine ⟨?_, ?_, ?_, ?_⟩
  · refine List.pairwise_map.mpr (horder.imp ?_)
    intro x y hxy hclient
    rw [Request.raftReq_seqNum, Request.raftReq_seqNum]
    rw [Request.raftReq_clientId, Request.raftReq_clientId] at hclient
    exact hxy hclient
  · intro m hm
    obtain ⟨⟨a, req⟩, hmem, rfl⟩ := List.mem_map.mp hm
    obtain ⟨hseq, hpos, hlt, -⟩ := h.of_mem_log hmem
    rw [Request.raftReq_seqNum, Int64.lt_iff_toInt_lt, hseq, toInt_ofNat hlt, Int64.toInt_zero]
    omega
  · intro x hx y hy hclient hseq
    obtain ⟨⟨a, req⟩, hmem, rfl⟩ := List.mem_map.mp hx
    obtain ⟨⟨b, req'⟩, hmem', rfl⟩ := List.mem_map.mp hy
    rw [Request.raftReq_clientId, Request.raftReq_clientId] at hclient
    rw [Request.raftReq_seqNum, Request.raftReq_seqNum] at hseq
    exact h.same_command hmem hmem' hclient (h.same_call hmem hmem' hseq)
  · intro m hm
    obtain ⟨entry, -, rfl⟩ := List.mem_map.mp hm
    exact entry.2.raftReq_command

end Calls

/-! ## The replicas and the answers -/

/-- What the log gives for the command at a position. -/
def replyAt (log : List (Nat × Request)) (i : Nat) (req : Request) : RaftReplyMsg :=
  ((replayed (commands log) i).doOp (.raftReq req.raftReq)).2

/-- Replicas and snapshots are at places of the log. -/
structure Copies (log : List (Nat × Request)) (replicas : Nat → Replica)
    (snapshots : List (SnapshotData × Nat)) : Prop where
  replica : ∀ r, (replicas r).applied ≤ log.length ∧
    KVServer.InStep (replayed (commands log) (replicas r).applied) (replicas r).kv
  snapshot : ∀ data i, (data, i) ∈ snapshots → i ≤ log.length ∧
    ∀ kv : KVServer, KVServer.InStep (replayed (commands log) i) (kv.restore (some data))

/-- Results are what the log gives, and replies are results or ErrWrongLeader. -/
structure Replied (log : List (Nat × Request)) (sent : List Request)
    (results : Nat → Option RaftReplyMsg) (replies : Nat → Option Reply) : Prop where
  result : ∀ a result, results a = some result →
    ∃ i req, log[i]? = some (a, req) ∧ result = replyAt log i req
  reply : ∀ a reply, replies a = some reply → ∃ req, sent[a]? = some req ∧
    (reply = handlerReply req.op (.error .errWrongLeader) ∨
      ∃ i, log[i]? = some (a, req) ∧ reply = handlerReply req.op (.ok (replyAt log i req)))

section Append

variable {log : List (Nat × Request)} {i a : Nat} {req : Request}

theorem commands_getElem? (hi : log[i]? = some (a, req)) :
    (commands log)[i]? = some req.raftReq := by
  simp [commands, hi]

theorem exists_of_commands {m : RaftReqMsg} (hi : (commands log)[i]? = some m) :
    ∃ a req, log[i]? = some (a, req) ∧ req.raftReq = m := by
  rw [commands, List.getElem?_map] at hi
  obtain ⟨⟨a, req⟩, hget, heq⟩ := Option.map_eq_some_iff.mp hi
  exact ⟨a, req, hget, heq⟩

theorem replayed_commands_append (x : Nat × Request) (hi : i ≤ log.length) :
    replayed (commands (log ++ [x])) i = replayed (commands log) i := by
  rw [commands, List.map_append]
  exact replayed_append _ (by simpa [commands] using hi)

/-- A committed command stays where it is, with its reply. -/
theorem getElem?_extends {log' : List (Nat × Request)} (hlog : log <+: log')
    (hi : log[i]? = some (a, req)) :
    log'[i]? = some (a, req) ∧ replyAt log' i req = replyAt log i req := by
  have hlt := (List.getElem?_eq_some_iff.mp hi).1
  obtain ⟨later, rfl⟩ := hlog
  refine ⟨by rw [List.getElem?_append_left hlt, hi], ?_⟩
  rw [replyAt, commands, List.map_append, replayed_append _ (by simpa using hlt.le)]
  rfl

variable {replicas : Nat → Replica} {snapshots : List (SnapshotData × Nat)} {sent : List Request}
  {results : Nat → Option RaftReplyMsg} {replies : Nat → Option Reply}

theorem Copies.commit (h : Copies log replicas snapshots) (x : Nat × Request) :
    Copies (log ++ [x]) replicas snapshots := by
  refine ⟨?_, ?_⟩
  · intro r
    obtain ⟨hle, hstep⟩ := h.replica r
    rw [replayed_commands_append x hle]
    exact ⟨hle.trans (by simp), hstep⟩
  · intro data i hmem
    obtain ⟨hle, hstep⟩ := h.snapshot data i hmem
    rw [replayed_commands_append x hle]
    exact ⟨hle.trans (by simp), hstep⟩

/-- A replica is put at a place of the log. -/
theorem Copies.setReplica (h : Copies log replicas snapshots) (r : Nat) {kv : KVServer}
    (hle : i ≤ log.length) (hkv : KVServer.InStep (replayed (commands log) i) kv) :
    Copies log (Function.update replicas r ⟨kv, i⟩) snapshots := by
  refine ⟨fun r' => ?_, h.snapshot⟩
  by_cases hr : r' = r
  · subst hr
    simpa using ⟨hle, hkv⟩
  · simpa [hr] using h.replica r'

theorem Copies.take (h : Copies log replicas snapshots) (hlog : WellNumbered (commands log)) {r : Nat}
    {data : SnapshotData} (hdata : (replicas r).kv.snapshot 11 = some data) :
    Copies log replicas (snapshots ++ [(data, (replicas r).applied)]) := by
  refine ⟨h.replica, ?_⟩
  intro data' i hmem
  rcases List.mem_append.mp hmem with hmem | hmem
  · exact h.snapshot data' i hmem
  · obtain ⟨rfl, rfl⟩ := Prod.mk.inj (List.mem_singleton.mp hmem)
    obtain ⟨hle, hstep⟩ := h.replica r
    exact ⟨hle, hstep.restore (fun c max => hlog.maxSeqNum_pos) hdata⟩

theorem Replied.commit (h : Replied log sent results replies) (x : Nat × Request) :
    Replied (log ++ [x]) sent results replies := by
  refine ⟨?_, ?_⟩
  · intro a result hresult
    obtain ⟨i, req, hi, rfl⟩ := h.result a result hresult
    obtain ⟨hi', hreply⟩ := getElem?_extends (List.prefix_append log [x]) hi
    exact ⟨i, req, hi', hreply.symm⟩
  · intro a reply hreply
    obtain ⟨req, hreq, hwrong | ⟨i, hi, heq⟩⟩ := h.reply a reply hreply
    · exact ⟨req, hreq, Or.inl hwrong⟩
    · obtain ⟨hi', hsame⟩ := getElem?_extends (List.prefix_append log [x]) hi
      exact ⟨req, hreq, Or.inr ⟨i, hi', by rw [hsame, heq]⟩⟩

theorem Replied.send (h : Replied log sent results replies) (req : Request) :
    Replied log (sent ++ [req]) results replies := by
  refine ⟨h.result, ?_⟩
  intro a reply hreply
  obtain ⟨req', hreq', hcases⟩ := h.reply a reply hreply
  refine ⟨req', ?_, hcases⟩
  rw [List.getElem?_append_left (List.getElem?_eq_some_iff.mp hreq').1, hreq']

/-- A replica has computed what the log gives. -/
theorem Replied.setResult (h : Replied log sent results replies) (hi : log[i]? = some (a, req)) :
    Replied log sent (Function.update results a (some (replyAt log i req))) replies := by
  refine ⟨?_, h.reply⟩
  intro b result hresult
  by_cases hb : b = a
  · subst hb
    exact ⟨i, req, hi, by simpa using hresult.symm⟩
  · exact h.result b result (by simpa [hb] using hresult)

theorem Replied.setReply (h : Replied log sent results replies) (hreq : sent[a]? = some req)
    {reply : Reply} (hreply : reply = handlerReply req.op (.error .errWrongLeader) ∨
      ∃ i, log[i]? = some (a, req) ∧ reply = handlerReply req.op (.ok (replyAt log i req))) :
    Replied log sent results (Function.update replies a (some reply)) := by
  refine ⟨h.result, ?_⟩
  intro b reply' hreply'
  by_cases hb : b = a
  · subst hb
    obtain rfl : reply = reply' := by simpa using hreply'
    exact ⟨req, hreq, hreply⟩
  · exact h.reply b reply' (by simpa [hb] using hreply')

end Append

/-! ## Every state of a run -/

structure Inv (s : State) : Prop where
  calls : Calls s.clerks s.sent s.log
  copies : Copies s.log s.replicas s.snapshots
  replied : Replied s.log s.sent s.results s.replies

theorem Inv.initial : Inv .initial := by
  refine ⟨Calls.initial, ⟨?_, ?_⟩, ⟨?_, ?_⟩⟩
  · intro r
    exact ⟨le_rfl, rfl, fun _ => rfl, fun _ _ _ => rfl, KVServer.bounded_empty⟩
  · intro data i hmem
    simp [State.initial] at hmem
  · intro a result hresult
    simp [State.initial] at hresult
  · intro a reply hreply
    simp [State.initial] at hreply

/-- A call that returns was answered for a command of it in the log. -/
theorem Inv.returned {s : State} (h : Inv s) {a : Action} {c : Int64} {call : Call} {answer : Reply}
    (hret : s.returned a = some (c, call, answer)) :
    ∃ i req, s.log[i]? = some (call.attempt, req) ∧ req.clientId = c ∧ req.call = call.number ∧
      req.op = call.op ∧
      call.answer (handlerReply req.op (.ok (replyAt s.log i req))) = some answer := by
  obtain ⟨-, hcall, reply, hreply, hanswer⟩ := State.returned_eq_some hret
  obtain ⟨-, -, server, hsent⟩ := h.calls.current c call hcall
  obtain ⟨req, hreq, hwrong | ⟨i, hi, heq⟩⟩ := h.replied.reply _ _ hreply
  · -- the Clerk does not return for ErrWrongLeader
    rw [hwrong] at hanswer
    cases hop : req.op with
    | get key => simp [hop, handlerReply, getReply, Call.answer] at hanswer
    | put key value version => simp [hop, handlerReply, putReply, Call.answer] at hanswer
  · obtain rfl := Option.some.inj (hreq.symm.trans hsent)
    exact ⟨i, _, hi, rfl, rfl, rfl, by rw [← heq, hanswer]⟩

theorem Inv.step {servers : Nat} {s t : State} {a : Action} (h : Inv s)
    (hstep : s.step servers a = some t) (horder : InOrder t.log) : Inv t := by
  have hlog := h.calls.wellNumbered (horder.sublist (State.log_extends hstep).sublist)
  cases a with
  | call c op =>
    obtain ⟨hidle, rfl⟩ := State.step_call hstep
    exact ⟨h.calls.begin op hidle, h.copies, h.replied.send _⟩
  | commit a =>
    obtain ⟨req, hreq, rfl⟩ := State.step_commit hstep
    exact ⟨h.calls.commit hreq horder, h.copies.commit _, h.replied.commit _⟩
  | apply r =>
    obtain ⟨a, req, hi, rfl⟩ := State.step_apply hstep
    obtain ⟨hreply, hnext⟩ := hlog.inStep_succ (commands_getElem? hi) (h.copies.replica r).2
    refine ⟨h.calls, ?_, ?_⟩
    · exact h.copies.setReplica r (List.getElem?_eq_some_iff.mp hi).1 hnext
    · simp only [State.execute]
      split
      · rw [hreply]
        exact h.replied.setResult hi
      · exact h.replied
  | snapshot r =>
    obtain ⟨data, hdata, rfl⟩ := State.step_snapshot hstep
    exact ⟨h.calls, h.copies.take hlog hdata, h.replied⟩
  | restore r i =>
    obtain ⟨data, applied, hmem, rfl⟩ := State.step_restore hstep
    obtain ⟨hle, hkv⟩ := h.copies.snapshot data applied hmem
    exact ⟨h.calls, h.copies.setReplica r hle (hkv _), h.replied⟩
  | restart r =>
    obtain rfl := State.step_restart hstep
    have hempty : KVServer.InStep (replayed (commands s.log) 0) .empty :=
      ⟨rfl, fun _ => rfl, fun _ _ _ => rfl, KVServer.bounded_empty⟩
    exact ⟨h.calls, h.copies.setReplica r (Nat.zero_le _) hempty, h.replied⟩
  | succeed a =>
    obtain ⟨req, result, hreq, hresult, rfl⟩ := State.step_succeed hstep
    obtain ⟨i, req', hi, rfl⟩ := h.replied.result a result hresult
    have hsent := (h.calls.committed a req' (List.mem_of_getElem? hi)).1
    obtain rfl : req = req' := Option.some.inj (hreq.symm.trans hsent)
    exact ⟨h.calls, h.copies, h.replied.setReply hreq (Or.inr ⟨i, hi, rfl⟩)⟩
  | refuse a =>
    obtain ⟨req, hreq, rfl⟩ := State.step_refuse hstep
    exact ⟨h.calls, h.copies, h.replied.setReply hreq (Or.inl rfl)⟩
  | deliver c =>
    obtain ⟨call, hcall, ⟨answer, hret, rfl⟩ | rfl⟩ := State.step_deliver hstep
    · obtain ⟨i, req, hi, hclient, hnumber, -⟩ := h.returned hret
      refine ⟨h.calls.finish hcall ⟨_, List.mem_of_getElem? hi, hclient, hnumber⟩, h.copies, h.replied⟩
    · exact ⟨h.calls.tryNext hcall servers rfl rfl rfl, h.copies, h.replied.send _⟩
  | fail c =>
    obtain ⟨call, hcall, rfl⟩ := State.step_fail hstep
    exact ⟨h.calls.tryNext hcall servers rfl rfl rfl, h.copies, h.replied.send _⟩

end DistSys.Kvraft1
