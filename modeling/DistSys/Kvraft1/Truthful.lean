import DistSys.Kvraft1.Invariant

/- What a Clerk returns is what happened.

   An answer other than ErrWrongLeader is that of a command of the call in the log. The first such
   command decides (`Decides`): it is the only one that is executed, and the others are answered
   with its reply, at every replica. So it does not matter whether the Clerk saw ErrWrongLeader for
   an earlier attempt that was committed all the same, and `Put` need not set `retried` for it. -/
namespace DistSys.Kvraft1

open Lib
open Kvsrv1 (Err GetReply Op Reply)

/-! ## Calls and returns of a run -/

/-- The call is made at step `p`, in state `v`. -/
def CalledAt (tr : List (State × Action)) (p : Nat) (v : State) (c : Int64) (call : Call) : Prop :=
  tr[p]? = some (v, .call c call.op) ∧ (v.clerks c).calls + 1 = call.number

/-- The call returns at step `d`, in state `u`. -/
def ReturnsAt (tr : List (State × Action)) (d : Nat) (u : State) (c : Int64) (call : Call)
    (answer : Reply) : Prop :=
  ∃ a, tr[d]? = some (u, a) ∧ u.returned a = some (c, call, answer)

section Run

variable {servers : Nat} {tr : List (State × Action)} {s t : State}

/-- The call that a client is in is the one before the step, or the step makes it. -/
theorem step_current {a : Action} (hstep : s.step servers a = some t) {c : Int64} {call : Call}
    (hcall : (t.clerks c).call = some call) :
    (∃ call', (s.clerks c).call = some call' ∧ call'.op = call.op ∧ call'.number = call.number) ∨
      (a = .call c call.op ∧ (s.clerks c).calls + 1 = call.number) := by
  have hsame : t.clerks = s.clerks → ∃ call', (s.clerks c).call = some call' ∧ call'.op = call.op ∧
      call'.number = call.number := by
    intro heq
    exact ⟨call, by rw [← heq, hcall], rfl, rfl⟩
  -- the Clerk of `d` sends for a call it is in
  have hnext : ∀ d old new, (s.clerks d).call = some old → new.op = old.op →
      new.number = old.number → t = s.tryNext servers d new → ∃ call', (s.clerks c).call = some call' ∧
        call'.op = call.op ∧ call'.number = call.number := by
    rintro d old new hold hop hnumber rfl
    by_cases hd : c = d
    · subst hd
      obtain rfl : _ = call := by simpa [State.tryNext, State.send, State.setClerk] using hcall
      exact ⟨old, hold, hop.symm, hnumber.symm⟩
    · exact ⟨call, by simpa [State.tryNext, State.send, State.setClerk, hd] using hcall, rfl, rfl⟩
  cases a with
  | call d op =>
    obtain ⟨hidle, rfl⟩ := State.step_call hstep
    by_cases hd : c = d
    · subst hd
      obtain rfl : _ = call := by simpa [State.begin, State.send, State.setClerk] using hcall
      exact Or.inr ⟨rfl, rfl⟩
    · exact Or.inl ⟨call, by simpa [State.begin, State.send, State.setClerk, hd] using hcall, rfl, rfl⟩
  | commit a =>
    obtain ⟨req, -, rfl⟩ := State.step_commit hstep
    exact Or.inl (hsame rfl)
  | apply r =>
    obtain ⟨a, req, -, rfl⟩ := State.step_apply hstep
    exact Or.inl (hsame rfl)
  | snapshot r =>
    obtain ⟨data, -, rfl⟩ := State.step_snapshot hstep
    exact Or.inl (hsame rfl)
  | restore r i =>
    obtain ⟨data, applied, -, rfl⟩ := State.step_restore hstep
    exact Or.inl (hsame rfl)
  | restart r =>
    obtain rfl := State.step_restart hstep
    exact Or.inl (hsame rfl)
  | succeed a =>
    obtain ⟨req, result, -, -, rfl⟩ := State.step_succeed hstep
    exact Or.inl (hsame rfl)
  | refuse a =>
    obtain ⟨req, -, rfl⟩ := State.step_refuse hstep
    exact Or.inl (hsame rfl)
  | deliver d =>
    obtain ⟨old, hold, ⟨answer, -, rfl⟩ | ht⟩ := State.step_deliver hstep
    · by_cases hd : c = d
      · subst hd
        simp [State.finish, State.setClerk] at hcall
      · exact Or.inl ⟨call, by simpa [State.finish, State.setClerk, hd] using hcall, rfl, rfl⟩
    · exact Or.inl (hnext d old old hold rfl rfl ht)
  | fail d =>
    obtain ⟨old, hold, ht⟩ := State.step_fail hstep
    exact Or.inl (hnext d old { old with retried := true } hold rfl rfl ht)

/-- The call that a client is in was made. -/
theorem exists_call (h : (kvraft servers).Run .initial tr t) {c : Int64} {call : Call}
    (hcall : (t.clerks c).call = some call) : ∃ p v, CalledAt tr p v c call := by
  induction h generalizing call with
  | nil => simp [State.initial] at hcall
  | @snoc tr u w a hrun hstep ih =>
    rcases step_current hstep hcall with ⟨call', hcall', hop, hnumber⟩ | ⟨rfl, hnumber⟩
    · obtain ⟨p, v, hp, hv⟩ := ih hcall'
      refine ⟨p, v, ?_, by rw [hv, hnumber]⟩
      rw [List.getElem?_append_left (List.getElem?_eq_some_iff.mp hp).1, hp, hop]
    · exact ⟨tr.length, u, by simp, hnumber⟩

theorem CalledAt.of_take {p i : Nat} {v : State} {c : Int64} {call : Call}
    (h : CalledAt (tr.take i) p v c call) : p < i ∧ CalledAt tr p v c call := by
  obtain ⟨hp, hcalls⟩ := h
  rw [List.getElem?_take] at hp
  split at hp
  · rename_i hlt
    exact ⟨hlt, hp, hcalls⟩
  · contradiction

/-- What is in the log when a call is made is of earlier calls. -/
theorem CalledAt.committed_later {p i a : Nat} {v : State} {c : Int64} {call : Call}
    {log : List (Nat × Request)} {req : Request} (h : CalledAt tr p v c call)
    (hv : Calls v.clerks v.sent v.log) (hlog : v.log <+: log) (hi : log[i]? = some (a, req))
    (hclient : req.clientId = c) (hnumber : req.call = call.number) : v.log.length ≤ i := by
  by_contra hlt
  obtain ⟨later, rfl⟩ := hlog
  rw [List.getElem?_append_left (by omega)] at hi
  obtain ⟨-, -, -, hle⟩ := hv.of_mem_log (List.mem_of_getElem? hi)
  have hcalls := h.2
  rw [hclient] at hle
  omega

theorem log_of_visited (h : (kvraft servers).Run s tr t) {u : State} (hu : u ∈ visited tr t) :
    u.log <+: t.log := by
  obtain ⟨tr₁, tr₂, -, -, hrest⟩ := h.to_visited hu
  have hext : ∀ w ∈ visited tr₂ t, u.log <+: w.log :=
    hrest.invariant (fun _ _ _ hw hst => hw.trans (State.log_extends hst)) List.prefix_rfl
  exact hext t (by simp [visited])

theorem Inv.of_run (h : (kvraft servers).Run .initial tr t) (horder : InOrder t.log) :
    ∀ u ∈ visited tr t, Inv u := by
  have hinv : ∀ u ∈ visited tr t, InOrder u.log → Inv u := by
    refine h.invariant ?_ (fun _ => Inv.initial)
    intro u a w hu hstep hw
    exact (hu (hw.sublist (State.log_extends hstep).sublist)).step hstep hw
  intro u hu
  exact hinv u hu (horder.sublist (log_of_visited h hu).sublist)

end Run

/-! ## The answers of the Clerk -/

/-- A command of the call changes the store at a position of the log. -/
def ChangesAt (log : List (Nat × Request)) (c : Int64) (number i : Nat) : Prop :=
  ∃ a req, log[i]? = some (a, req) ∧ req.clientId = c ∧ req.call = number ∧
    (replayed (commands log) i).Changes (.raftReq req.raftReq)

/-- What a key has, as a `Get` returns it. -/
def readReply : Option KVPair → GetReply
  | some kvPair => ⟨kvPair.value, kvPair.version, .ok⟩
  | none => ⟨"", 0, .errNoKey⟩

/-- What the replicas and the answers of a run have to do with the log at its end. -/
structure Truthful (tr : List (State × Action)) (t : State) : Prop where
  /-- A replica has what the log gives up to where it is. -/
  replica : ∀ r key, (t.replicas r).kv.cache.lookup key =
    (replayed (commands t.log) (t.replicas r).applied).cache.lookup key
  /-- A `Put` that returned OK changed the store at one position, committed before the return. -/
  put_ok : ∀ d u c call, ReturnsAt tr d u c call (.put ⟨.ok⟩) →
    ∃ i < u.log.length, ∀ k, ChangesAt t.log c call.number k ↔ k = i
  /-- One that returned ErrVersion changed it at none. -/
  put_errVersion : ∀ d u c call, ReturnsAt tr d u c call (.put ⟨.errVersion⟩) →
    ∀ k, ¬ ChangesAt t.log c call.number k
  /-- A `Get` returned what its key had at a position between the call and the return. -/
  get : ∀ d u c call reply, ReturnsAt tr d u c call (.get reply) →
    ∃ key p v i, call.op = .get key ∧ CalledAt tr p v c call ∧ p < d ∧
      v.log.length ≤ i ∧ i < u.log.length ∧
      reply = readReply ((replayed (commands t.log) i).cache.lookup key)

theorem Call.answer_put {call : Call} {op : Op} {response : RaftReplyMsg} {err : Err}
    (h : call.answer (handlerReply op (.ok response)) = some (.put ⟨err⟩)) (hmaybe : err ≠ .errMaybe) :
    (∃ key value version, op = .put key value version) ∧ response.err = err := by
  cases op with
  | get key =>
    simp only [handlerReply, Call.answer] at h
    split at h <;> simp at h
  | put key value version =>
    refine ⟨⟨key, value, version, rfl⟩, ?_⟩
    simp only [handlerReply, Call.answer] at h
    split at h
    · split at h
      · exact absurd (by simpa using h.symm) hmaybe
      · rename_i hwrong _
        simp only [putReply] at h hwrong
        split at h
        · simpa using h
        · rename_i hcommand
          simp [hcommand] at hwrong
    · contradiction

theorem Call.answer_get {call : Call} {op : Op} {response : RaftReplyMsg} {reply : GetReply}
    (h : call.answer (handlerReply op (.ok response)) = some (.get reply)) :
    (∃ key, op = .get key) ∧ reply = getReply (.ok response) := by
  cases op with
  | get key =>
    simp only [handlerReply, Call.answer] at h
    split at h
    · exact ⟨⟨key, rfl⟩, by simpa using h.symm⟩
    · contradiction
  | put key value version =>
    simp only [handlerReply, Call.answer] at h
    split at h <;> simp at h

/-- A `Get` that is executed is answered with what its key has. -/
theorem getReply_doOp {kv : KVServer} {key : String} {seqNum clientId : Int64}
    (hnone : kv.cached clientId seqNum = none) :
    getReply (.ok (kv.doOp (.raftReq ⟨.get, key, "", seqNum, clientId, 0⟩)).2) =
      readReply (kv.cache.lookup key) := by
  cases hlook : kv.cache.lookup key with
  | some kvPair => simp [KVServer.doOp, hnone, execute, hlook, getReply, readReply]
  | none => simp [KVServer.doOp, hnone, execute, hlook, getReply, readReply]

/-- The first command of a call decides: its reply is the one that the Clerk was answered with, and
the other commands of the call are answered from the table. -/
structure Decides (log : List (Nat × Request)) (c : Int64) (call : Call) (answer : Reply) (j : Nat)
    (req : Request) : Prop where
  position : ∃ a, log[j]? = some (a, req)
  clientId : req.clientId = c
  number : req.call = call.number
  op : req.op = call.op
  executed : (replayed (commands log) j).cached req.clientId req.seqNum = none
  answered : call.answer (handlerReply req.op (.ok (replyAt log j req))) = some answer
  copies : ∀ k a req', log[k]? = some (a, req') → req'.clientId = c → req'.call = call.number →
    req'.raftReq = req.raftReq ∧
      (k ≠ j → ((replayed (commands log) k).cached req.clientId req.seqNum).isSome)

theorem exists_decides {u t : State} (hu : Inv u) (ht : Inv t) (horder : InOrder t.log)
    (hlog : u.log <+: t.log) {a : Action} {c : Int64} {call : Call} {answer : Reply}
    (hret : u.returned a = some (c, call, answer)) :
    ∃ j req, j < u.log.length ∧ Decides t.log c call answer j req := by
  obtain ⟨i, req, hi, hclient, hnumber, hop, hanswer⟩ := hu.returned hret
  obtain ⟨hi', hreply⟩ := getElem?_extends hlog hi
  have hmem := List.mem_of_getElem? hi'
  obtain ⟨j, hji, hj, hnone, hothers⟩ :=
    (ht.calls.wellNumbered horder).exists_first (commands_getElem? hi')
  -- the first copy is of the same call
  obtain ⟨b, first, hfirst, hsame⟩ := exists_of_commands hj
  have hmem' := List.mem_of_getElem? hfirst
  have hclient' : first.clientId = req.clientId := by
    rw [← Request.raftReq_clientId, hsame, Request.raftReq_clientId]
  have hseq' : first.seqNum = req.seqNum := by
    rw [← Request.raftReq_seqNum, hsame, Request.raftReq_seqNum]
  have hcall' := ht.calls.same_call hmem' hmem hseq'
  have hop' : first.op = req.op :=
    ht.calls.op _ (List.mem_of_getElem? (ht.calls.committed _ _ hmem').1) _
      (List.mem_of_getElem? (ht.calls.committed _ _ hmem).1) hclient' hcall'
  rw [Request.raftReq_clientId, Request.raftReq_seqNum] at hnone
  refine ⟨j, first, lt_of_le_of_lt hji (List.getElem?_eq_some_iff.mp hi).1, ⟨b, hfirst⟩,
    hclient'.trans hclient, hcall'.trans hnumber, hop'.trans hop, ?_, ?_, ?_⟩
  · rwa [hclient', hseq']
  · have hdecided : replyAt t.log j first = replyAt t.log i req := by
      unfold replyAt
      rw [hsame]
      by_cases hij : i = j
      · rw [hij]
      · obtain ⟨-, hcached⟩ := hothers i (commands_getElem? hi') hij
        simp only [KVServer.doOp, hcached]
    rw [hdecided, hreply, hop', hanswer]
  · intro k a' req' hk hclient'' hcall''
    have hcopy : req'.raftReq = req.raftReq := ht.calls.same_command (List.mem_of_getElem? hk) hmem
      (hclient''.trans hclient.symm) (hcall''.trans hnumber.symm)
    refine ⟨hcopy.trans hsame.symm, fun hne => ?_⟩
    have hk' := commands_getElem? hk
    rw [hcopy] at hk'
    obtain ⟨-, hcached⟩ := hothers k hk' hne
    rw [Request.raftReq_clientId, Request.raftReq_seqNum] at hcached
    rw [hclient', hseq', hcached]
    rfl

namespace Decides

variable {log : List (Nat × Request)} {c : Int64} {call : Call} {answer : Reply} {j : Nat}
  {req : Request}

/-- A call changes the store where its first command succeeds, and nowhere else. -/
theorem changesAt_iff (h : Decides log c call answer j req) (k : Nat) :
    ChangesAt log c call.number k ↔
      k = j ∧ (replayed (commands log) j).Succeeds req.raftReq := by
  refine ⟨?_, ?_⟩
  · rintro ⟨a, req', hk, hclient, hcall, hchanges⟩
    obtain ⟨hcopy, hcached⟩ := h.copies k a req' hk hclient hcall
    rw [hcopy] at hchanges
    have hsucceeds := hchanges.succeeds
    obtain rfl : k = j := by
      by_contra hne
      have hsome := hcached hne
      have hnone := hsucceeds.2.1
      rw [Request.raftReq_clientId, Request.raftReq_seqNum] at hnone
      rw [hnone] at hsome
      contradiction
    exact ⟨rfl, hsucceeds⟩
  · rintro ⟨rfl, hsucceeds⟩
    obtain ⟨a, hk⟩ := h.position
    exact ⟨a, req, hk, h.clientId, h.number, hsucceeds.changes⟩

theorem put_ok (h : Decides log c call (.put ⟨.ok⟩) j req) (k : Nat) :
    ChangesAt log c call.number k ↔ k = j := by
  obtain ⟨⟨key, value, version, hop⟩, herr⟩ := Call.answer_put h.answered (by simp)
  have hsucceeds : (replayed (commands log) j).Succeeds req.raftReq := by
    refine ⟨by simp [Request.raftReq, hop], ?_, herr⟩
    rw [Request.raftReq_clientId, Request.raftReq_seqNum]
    exact h.executed
  rw [h.changesAt_iff]
  exact and_iff_left hsucceeds

theorem put_errVersion (h : Decides log c call (.put ⟨.errVersion⟩) j req) (k : Nat) :
    ¬ ChangesAt log c call.number k := by
  intro hchanges
  obtain ⟨-, -, -, hok⟩ := (h.changesAt_iff k).mp hchanges
  obtain ⟨-, herr⟩ := Call.answer_put h.answered (by simp)
  rw [replyAt, hok] at herr
  contradiction

theorem get {reply : GetReply} (h : Decides log c call (.get reply) j req) :
    ∃ key, call.op = .get key ∧ reply = readReply ((replayed (commands log) j).cache.lookup key) := by
  obtain ⟨⟨key, hop⟩, rfl⟩ := Call.answer_get h.answered
  refine ⟨key, h.op.symm.trans hop, ?_⟩
  rw [replyAt, Request.raftReq, hop]
  exact getReply_doOp h.executed

end Decides

/-- In every run, whatever the replicas, the network and the leaders do, when the numbers of a client
never fall in the log. -/
theorem truthful {servers : Nat} {tr : List (State × Action)} {t : State}
    (h : (kvraft servers).Run .initial tr t) (horder : InOrder t.log) : Truthful tr t := by
  have hinv := Inv.of_run h horder
  have ht := hinv t (by simp [visited])
  have hdecides : ∀ d u c call answer, ReturnsAt tr d u c call answer →
      ∃ j req, j < u.log.length ∧ Decides t.log c call answer j req := by
    rintro d u c call answer ⟨a, hd, hret⟩
    have hu := List.mem_of_getElem? (visited_of_step (t := t) hd)
    exact exists_decides (hinv u hu) ht horder (log_of_visited h hu) hret
  refine ⟨?_, ?_, ?_, ?_⟩
  · intro r key
    rw [(ht.copies.replica r).2.cache]
  · intro d u c call hret
    obtain ⟨j, req, hj, hdec⟩ := hdecides d u c call _ hret
    exact ⟨j, hj, hdec.put_ok⟩
  · intro d u c call hret
    obtain ⟨j, req, -, hdec⟩ := hdecides d u c call _ hret
    exact hdec.put_errVersion
  · intro d u c call reply hret
    obtain ⟨j, req, hj, hdec⟩ := hdecides d u c call _ hret
    obtain ⟨key, hop, hreply⟩ := hdec.get
    obtain ⟨a, hd, hreturned⟩ := hret
    obtain ⟨-, hcall, -⟩ := State.returned_eq_some hreturned
    obtain ⟨p, v, hcalled⟩ := exists_call (h.at_step hd).1 hcall
    obtain ⟨hpd, hcalled⟩ := hcalled.of_take
    obtain ⟨b, hfirst⟩ := hdec.position
    have hv := List.mem_of_getElem? (visited_of_step (t := t) hcalled.1)
    exact ⟨key, p, v, j, hop, hcalled, hpd, hcalled.committed_later (hinv v hv).calls
      (log_of_visited h hv) hfirst hdec.clientId hdec.number, hj, hreply⟩

/-- A `Put` that is committed at server 0 and answered ErrWrongLeader there, sent again to server 1,
which has a snapshot of server 0 by then, and committed again; then a `Get`, and a `Put` with a
version that is ahead. -/
def refusedFirst : List Action :=
  [.call 1 (.put "k" "v" 0), .commit 0, .refuse 0, .deliver 1, .apply 0, .snapshot 0, .restore 1 0,
    .commit 1, .apply 1, .succeed 1, .deliver 1,
    .call 2 (.get "k"), .commit 2, .apply 0, .apply 0, .succeed 2, .deliver 2,
    .call 2 (.put "k" "w" 5), .commit 3, .apply 0, .succeed 3, .deliver 2]

theorem truthful_refusedFirst :
    ReturnsAt (traceOf (State.step 2) .initial refusedFirst) 10
        (after (State.step 2) .initial (refusedFirst.take 10)) 1
        ⟨1, .put "k" "v" 0, 1, some 1, false, 1⟩ (.put ⟨.ok⟩) ∧
      ReturnsAt (traceOf (State.step 2) .initial refusedFirst) 16
        (after (State.step 2) .initial (refusedFirst.take 16)) 2
        ⟨1, .get "k", 1, none, false, 2⟩ (.get ⟨"v", 1, .ok⟩) ∧
      ReturnsAt (traceOf (State.step 2) .initial refusedFirst) 21
        (after (State.step 2) .initial (refusedFirst.take 21)) 2
        ⟨2, .put "k" "w" 5, 2, none, false, 3⟩ (.put ⟨.errVersion⟩) ∧
      (after (State.step 2) .initial refusedFirst).log.length = 4 ∧
      Truthful (traceOf (State.step 2) .initial refusedFirst)
        (after (State.step 2) .initial refusedFirst) := by
  have hrun : (kvraft 2).Run .initial (traceOf (State.step 2) .initial refusedFirst)
      (after (State.step 2) .initial refusedFirst) :=
    Lts.run_of_steps (fun _ _ _ h => h) (by decide)
  refine ⟨⟨.deliver 1, rfl, by decide⟩, ⟨.deliver 2, rfl, by decide⟩, ⟨.deliver 2, rfl, by decide⟩,
    by decide, truthful hrun ?_⟩
  decide

end DistSys.Kvraft1
