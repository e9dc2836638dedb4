import DistSys.Lib.Linearizable
import DistSys.Kvraft1.Checker
import DistSys.Kvraft1.Truthful
import DistSys.Kvtest1.OpLog

/- The replicated store is linearizable.

   The order is that of the log: of the commands of a call only the first is executed, and its
   place in the log is the place of the call. It was committed after the call was made and, if the
   call returned, before that, so the order keeps to real time. What the call returned is what the
   model of its key accepts there: the reply of the execution, or ErrMaybe in the place of
   ErrVersion. Calls that have not returned are in the order if a command of them was committed. -/
namespace DistSys.Kvraft1

open Lib
open Kvsrv1 (Err GetReply Op Reply)
open Models1 (KvModel.step KvModel.init)

/-! ## The calls of a run -/

/-- The call or return that a step is, of a call named by its client and number. -/
def event : State × Action → Option (Event (Int64 × Nat) Op Reply)
  | (s, .call c op) => some (.call (c, (s.clerks c).calls + 1) op)
  | (s, a) => (s.returned a).map fun x => .ret (x.1, x.2.1.number) x.2.2

/-- The calls and returns of a run. -/
def history (tr : List (State × Action)) : List (Event (Int64 × Nat) Op Reply) := tr.filterMap event

theorem event_eq_call {s : State} {a : Action} {c : Int64} {n : Nat} {op : Op} :
    event (s, a) = some (.call (c, n) op) ↔ a = .call c op ∧ (s.clerks c).calls + 1 = n := by
  cases a with
  | call d op' =>
    simp only [event, Option.some.injEq, Event.call.injEq, Prod.mk.injEq, Action.call.injEq]
    constructor
    · rintro ⟨⟨rfl, hn⟩, rfl⟩
      exact ⟨⟨rfl, rfl⟩, hn⟩
    · rintro ⟨⟨rfl, rfl⟩, hn⟩
      exact ⟨⟨rfl, hn⟩, rfl⟩
  | _ => simp [event]

theorem event_eq_ret {s : State} {a : Action} {c : Int64} {n : Nat} {answer : Reply} :
    event (s, a) = some (.ret (c, n) answer) ↔
      ∃ call, s.returned a = some (c, call, answer) ∧ call.number = n := by
  cases a with
  | call d op => simp [event, State.returned]
  | _ =>
    simp only [event, Option.map_eq_some_iff, Event.ret.injEq, Prod.mk.injEq, Prod.exists]
    constructor
    · rintro ⟨c', call, answer', hret, ⟨rfl, hn⟩, rfl⟩
      exact ⟨call, hret, hn⟩
    · rintro ⟨call, hret, hn⟩
      exact ⟨c, call, answer, hret, ⟨rfl, hn⟩, rfl⟩

theorem CalledAt.mem_history {tr : List (State × Action)} {p : Nat} {v : State} {c : Int64} {call : Call}
    (h : CalledAt tr p v c call) : .call (c, call.number) call.op ∈ history tr :=
  List.mem_filterMap.mpr ⟨_, List.mem_of_getElem? h.1, event_eq_call.mpr ⟨rfl, h.2⟩⟩

theorem exists_returnsAt {tr : List (State × Action)} {c : Int64} {n : Nat} {answer : Reply}
    (h : .ret (c, n) answer ∈ history tr) :
    ∃ d u call, ReturnsAt tr d u c call answer ∧ call.number = n := by
  obtain ⟨⟨u, a⟩, hmem, hevent⟩ := List.mem_filterMap.mp h
  obtain ⟨call, hret, hn⟩ := event_eq_ret.mp hevent
  obtain ⟨d, hd⟩ := List.mem_iff_getElem?.mp hmem
  exact ⟨d, u, call, ⟨a, hd, hret⟩, hn⟩

section Run

variable {servers : Nat} {tr : List (State × Action)} {s t : State}

/-- What a Clerk sends is of a new call, or of the one that it is in. -/
def Sends (s : State) (c : Int64) (clerk : Clerk) (call : Call) : Prop :=
  (clerk.calls = (s.clerks c).calls + 1 ∧ clerk.seqNum = (s.clerks c).seqNum + 1 ∧
      call.number = clerk.calls ∧ call.seqNum = clerk.seqNum) ∨
    (clerk = s.clerks c ∧ ∃ old, (s.clerks c).call = some old ∧ call.number = old.number ∧
      call.seqNum = old.seqNum)

/-- A step leaves the clerks and the RPCs as they are, or a call returns, or a Clerk sends. -/
theorem step_clerks {a : Action} (hstep : s.step servers a = some t) :
    (t.clerks = s.clerks ∧ t.sent = s.sent) ∨ (∃ c call, t = s.finish c call) ∨
      ∃ c clerk call, t = s.send c clerk call ∧ Sends s c clerk call := by
  cases a with
  | call c op =>
    obtain ⟨-, ht⟩ := State.step_call hstep
    exact Or.inr (Or.inr ⟨c, _, _, ht, Or.inl ⟨rfl, rfl, rfl, rfl⟩⟩)
  | commit a =>
    obtain ⟨req, -, rfl⟩ := State.step_commit hstep
    exact Or.inl ⟨rfl, rfl⟩
  | apply r =>
    obtain ⟨a, req, -, rfl⟩ := State.step_apply hstep
    exact Or.inl ⟨rfl, rfl⟩
  | snapshot r =>
    obtain ⟨data, -, rfl⟩ := State.step_snapshot hstep
    exact Or.inl ⟨rfl, rfl⟩
  | restore r i =>
    obtain ⟨data, applied, -, rfl⟩ := State.step_restore hstep
    exact Or.inl ⟨rfl, rfl⟩
  | restart r =>
    obtain rfl := State.step_restart hstep
    exact Or.inl ⟨rfl, rfl⟩
  | succeed a =>
    obtain ⟨req, result, -, -, rfl⟩ := State.step_succeed hstep
    exact Or.inl ⟨rfl, rfl⟩
  | refuse a =>
    obtain ⟨req, -, rfl⟩ := State.step_refuse hstep
    exact Or.inl ⟨rfl, rfl⟩
  | deliver c =>
    obtain ⟨call, hcall, ⟨answer, -, ht⟩ | ht⟩ := State.step_deliver hstep
    · exact Or.inr (Or.inl ⟨c, call, ht⟩)
    · exact Or.inr (Or.inr ⟨c, _, _, ht, Or.inr ⟨rfl, call, hcall, rfl, rfl⟩⟩)
  | fail c =>
    obtain ⟨call, hcall, ht⟩ := State.step_fail hstep
    exact Or.inr (Or.inr ⟨c, _, _, ht, Or.inr ⟨rfl, call, hcall, rfl, rfl⟩⟩)

theorem Sends.calls_le {c : Int64} {clerk : Clerk} {call : Call} (h : Sends s c clerk call) :
    (s.clerks c).calls ≤ clerk.calls := by
  rcases h with ⟨hcalls, -⟩ | ⟨rfl, -⟩
  · omega
  · exact le_rfl

theorem step_calls_le {a : Action} (hstep : s.step servers a = some t) (c : Int64) :
    (s.clerks c).calls ≤ (t.clerks c).calls := by
  rcases step_clerks hstep with ⟨hclerks, -⟩ | ⟨d, call, rfl⟩ | ⟨d, clerk, call, rfl, hsends⟩
  · rw [hclerks]
  · by_cases hd : c = d
    · subst hd
      simp [State.finish, State.setClerk]
    · simp [State.finish, State.setClerk, hd]
  · by_cases hd : c = d
    · subst hd
      simpa [State.send, State.setClerk] using hsends.calls_le
    · simp [State.send, State.setClerk, hd]

/-- What a Clerk sends is of the call that it is in. -/
theorem step_sent {a : Action} (hstep : s.step servers a = some t) {req : Request}
    (hreq : req ∈ t.sent) : req ∈ s.sent ∨ ∃ call, (t.clerks req.clientId).call = some call ∧
      call.number = req.call ∧ call.op = req.op := by
  rcases step_clerks hstep with ⟨-, hsent⟩ | ⟨c, call, rfl⟩ | ⟨c, clerk, call, rfl, -⟩
  · rw [hsent] at hreq
    exact Or.inl hreq
  · exact Or.inl hreq
  · rcases List.mem_append.mp hreq with hold | hnew
    · exact Or.inl hold
    · obtain rfl := List.mem_singleton.mp hnew
      refine Or.inr ⟨{ call with attempt := s.sent.length }, ?_, rfl, rfl⟩
      simp [State.send, State.setClerk]

/-- An RPC was sent for a call that was made. -/
theorem exists_called (h : (kvraft servers).Run .initial tr t) {req : Request}
    (hreq : req ∈ t.sent) : .call (req.clientId, req.call) req.op ∈ history tr := by
  induction h with
  | nil => simp [State.initial] at hreq
  | @snoc tr u w a hrun hstep ih =>
    rcases step_sent hstep hreq with hold | ⟨call, hcall, hnumber, hop⟩
    · rw [history, List.filterMap_append]
      exact List.mem_append_left _ (ih hold)
    · obtain ⟨p, v, hcalled⟩ := exists_call (hrun.snoc hstep) hcall
      rw [← hnumber, ← hop]
      exact hcalled.mem_history

/-- A client that is past its call `n`. -/
def Past (c : Int64) (n : Nat) (s : State) : Prop :=
  n ≤ (s.clerks c).calls ∧ ∀ call, (s.clerks c).call = some call → n < call.number

theorem Past.step {c : Int64} {n : Nat} (h : Past c n s) {a : Action}
    (hstep : s.step servers a = some t) : Past c n t := by
  refine ⟨h.1.trans (step_calls_le hstep c), fun call hcall => ?_⟩
  rcases step_current hstep hcall with ⟨call', hcall', -, hnumber⟩ | ⟨-, hnumber⟩
  · rw [← hnumber]
    exact h.2 call' hcall'
  · rw [← hnumber]
    exact Nat.lt_succ_of_le h.1

/-- A call returns once. -/
theorem returned_once (h : (kvraft servers).Run .initial tr t) (horder : InOrder t.log)
    {c : Int64} {d d' : Nat} {u u' : State} {call call' : Call} {answer answer' : Reply}
    (hret : ReturnsAt tr d u c call answer) (hret' : ReturnsAt tr d' u' c call' answer')
    (hnumber : call.number = call'.number) : answer = answer' := by
  have hpast : ∀ {d d' : Nat} {u u' : State} {call call' : Call} {answer answer' : Reply},
      ReturnsAt tr d u c call answer → ReturnsAt tr d' u' c call' answer' →
      call.number = call'.number → ¬ d < d' := by
    rintro d d' u u' call call' answer answer' ⟨a, hd, hret⟩ ⟨a', hd', hret'⟩ hnumber hlt
    obtain ⟨rfl, hcall, reply, hreply, hanswer⟩ := State.returned_eq_some hret
    obtain ⟨-, hcall', -⟩ := State.returned_eq_some hret'
    -- after the return the client is past the call
    obtain ⟨w, hw, hstep⟩ := h.visited_succ hd
    have hu := Inv.of_run h horder u (List.mem_of_getElem? (visited_of_step hd))
    have hdone : Past c call.number w := by
      have hfinish : w = u.finish c call := by
        simp only [kvraft, State.step, hcall, hreply, Option.map_some, hanswer] at hstep
        simpa using hstep.symm
      obtain ⟨hcalls, -, -⟩ := hu.calls.current _ _ hcall
      rw [hfinish]
      refine ⟨?_, ?_⟩
      · simp [State.finish, State.setClerk, ← hcalls]
      · simp [State.finish, State.setClerk]
    have hlater := h.kept (I := Past c call.number) (fun _ _ _ hp hst => hp.step hst) hlt hw
      (visited_of_step hd') hdone
    exact absurd (hlater.2 call' hcall') (by omega)
  obtain rfl : d = d' := by
    have hle := hpast hret hret' hnumber
    have hge := hpast hret' hret hnumber.symm
    omega
  obtain ⟨a, hd, hret⟩ := hret
  obtain ⟨a', hd', hret'⟩ := hret'
  rw [hd] at hd'
  obtain ⟨rfl, rfl⟩ : u = u' ∧ a = a' := by simpa using hd'
  rw [hret] at hret'
  exact congrArg (fun x => x.2.2) (Option.some.inj hret')

end Run

/-! ## The commands that are executed -/

/-- A command at a position is executed there, and not answered from the table. -/
def Executed (log : List (Nat × Request)) (x : (Nat × Request) × Nat) : Prop :=
  (replayed (commands log) x.2).cached x.1.2.clientId x.1.2.seqNum = none

instance (log : List (Nat × Request)) (x : (Nat × Request) × Nat) : Decidable (Executed log x) :=
  inferInstanceAs (Decidable (_ = none))

/-- The commands among the first `n` that are executed, with their positions. -/
def executions (log : List (Nat × Request)) (n : Nat) : List ((Nat × Request) × Nat) :=
  (log.zipIdx.take n).filter (Executed log)

section Executed

variable {log : List (Nat × Request)} {n : Nat}

theorem mem_executions {x : (Nat × Request) × Nat} (hn : log.length ≤ n) :
    x ∈ executions log n ↔ log[x.2]? = some x.1 ∧ Executed log x := by
  have htake : log.zipIdx.take n = log.zipIdx := List.take_of_length_le (by simpa using hn)
  rw [executions, htake, List.mem_filter, List.mem_zipIdx_iff_getElem?]
  simp

theorem executions_succ {entry : Nat × Request} (hn : log[n]? = some entry) :
    executions log (n + 1) = executions log n ++ if Executed log (entry, n) then [(entry, n)] else [] := by
  have hget : log.zipIdx[n]? = some (entry, n) := by simp [hn]
  rw [executions, List.take_add_one, hget, List.filter_append, executions]
  by_cases hexec : Executed log (entry, n) <;> simp [hexec]

/-- They are listed in the order of the log. -/
theorem executions_sorted : (executions log n).Pairwise fun x y => x.2 < y.2 := by
  refine ((List.Pairwise.take ?_).filter _)
  have hrange : (log.zipIdx.map Prod.snd).Pairwise (· < ·) := by
    rw [List.zipIdx_map_snd]
    exact List.pairwise_lt_range'
  exact List.pairwise_map.mp hrange

end Executed

/-- A call that has an executed command has no other. -/
theorem executions_unique {clerks : Int64 → Clerk} {sent : List Request} {log : List (Nat × Request)}
    (hcalls : Calls clerks sent log) (horder : InOrder log) {x y : (Nat × Request) × Nat}
    (hx : log[x.2]? = some x.1) (hy : log[y.2]? = some y.1) (hxe : Executed log x)
    (hye : Executed log y) (hclient : x.1.2.clientId = y.1.2.clientId)
    (hcall : x.1.2.call = y.1.2.call) : x.2 = y.2 := by
  have hsame := hcalls.same_command (List.mem_of_getElem? hx) (List.mem_of_getElem? hy) hclient hcall
  have hx' := commands_getElem? hx
  have hy' := commands_getElem? hy
  rw [hsame] at hx'
  obtain ⟨j, -, -, -, hothers⟩ := (hcalls.wellNumbered horder).exists_first hx'
  have hfirst : ∀ k, (commands log)[k]? = some y.1.2.raftReq →
      (replayed (commands log) k).cached y.1.2.raftReq.clientId y.1.2.raftReq.seqNum = none →
      k = j := by
    intro k hk hnone
    by_contra hne
    rw [(hothers k hk hne).2] at hnone
    contradiction
  have hxj : x.2 = j := by
    refine hfirst _ hx' ?_
    rw [← hsame, Request.raftReq_clientId, Request.raftReq_seqNum]
    exact hxe
  have hyj : y.2 = j := by
    refine hfirst _ hy' ?_
    rw [Request.raftReq_clientId, Request.raftReq_seqNum]
    exact hye
  rw [hxj, hyj]

/-! ## What the model accepts -/

/-- A reply is right for a command if it is what the handler replies or what a Clerk makes of it. -/
def Right (op : Op) (reply : RaftReplyMsg) (answer : Reply) : Prop :=
  answer = handlerReply op (.ok reply) ∨
    ∃ call : Call, call.answer (handlerReply op (.ok reply)) = some answer

theorem Request.raftReq_known (req : Request) :
    req.raftReq.command = .get ∨ req.raftReq.command = .put := by
  unfold Request.raftReq
  split
  · exact Or.inl rfl
  · exact Or.inr rfl

theorem Request.raftReq_key (req : Request) : (Kvtest1.input req.op).key = req.raftReq.key := by
  unfold Request.raftReq Kvtest1.input
  cases req.op <;> rfl

theorem execute_command {cache cache' : FinMap String KVPair} {m : RaftReqMsg} {reply : RaftReplyMsg}
    (h : execute cache m = some (cache', reply)) : reply.command = m.command := by
  unfold execute at h
  cases hm : m.command with
  | get =>
    rw [hm] at h
    cases hlook : cache.lookup m.key <;> simp [hlook] at h <;> simp [← h.2]
  | put =>
    rw [hm] at h
    cases hlook : cache.lookup m.key <;> simp only [hlook] at h <;> split at h <;>
      · obtain ⟨-, rfl⟩ := Prod.mk.inj (Option.some.inj h)
        rfl
  | other name => simp [hm] at h

/-- The tests log what the handler replies as the command and its reply. -/
theorem operation_handlerReply (req : Request) {reply : RaftReplyMsg}
    (hcommand : reply.command = req.raftReq.command) :
    Kvtest1.operation req.op (handlerReply req.op (.ok reply)) = operation req.raftReq reply := by
  unfold Request.raftReq at hcommand ⊢
  cases hop : req.op with
  | get key =>
    rw [hop] at hcommand
    simp [Kvtest1.operation, Kvtest1.input, Kvtest1.output, handlerReply, getReply, operation, hcommand]
  | put key value version =>
    rw [hop] at hcommand
    simp [Kvtest1.operation, Kvtest1.input, Kvtest1.output, handlerReply, putReply, operation, hcommand]

theorem step_answer {st : Models1.KvState} {inp : Models1.KvInput} {reply answer : Reply} {call : Call}
    {st' : Option Models1.KvState} (hanswer : call.answer reply = some answer)
    (hstep : KvModel.step st inp (Kvtest1.output reply) = (true, st')) :
    KvModel.step st inp (Kvtest1.output answer) = (true, st') := by
  cases reply with
  | get reply =>
    simp only [Call.answer, Option.ite_none_right_eq_some, Option.some.injEq] at hanswer
    rwa [← hanswer.2]
  | put reply =>
    simp only [Call.answer, Option.ite_none_right_eq_some, Option.some.injEq] at hanswer
    rw [← hanswer.2]
    split
    · rename_i hmaybe
      have herr : reply = ⟨.errVersion⟩ := by rw [← hmaybe.1]
      rw [herr] at hstep
      exact Kvtest1.step_errMaybe hstep
    · exact hstep

theorem step_right {cache cache' : FinMap String KVPair} {req : Request} {reply : RaftReplyMsg}
    (h : execute cache req.raftReq = some (cache', reply)) {answer : Reply}
    (hright : Right req.op reply answer) :
    KvModel.step (stateOf cache (Kvtest1.input req.op).key) (Kvtest1.input req.op)
        (Kvtest1.output answer) = (true, some (stateOf cache' (Kvtest1.input req.op).key)) := by
  have hop := operation_handlerReply req (execute_command h)
  have hstep := (execute_step req.raftReq_known h).1
  rw [← hop, ← req.raftReq_key] at hstep
  rcases hright with rfl | ⟨call, hanswer⟩
  · exact hstep
  · exact step_answer hanswer hstep

/-- The executed commands, with right answers, lead the model to what the cache has. -/
theorem executions_leadsTo {log : List (Nat × Request)} (answers : (Nat × Request) × Nat → Reply)
    (hright : ∀ x, log[x.2]? = some x.1 → Executed log x →
      Right x.1.2.op (replyAt log x.2 x.1.2) (answers x)) {n : Nat} (hn : n ≤ log.length) :
    Kvtest1.LeadsTo ((executions log n).map fun x => (x.1.2.op, answers x))
      (stateOf (replayed (commands log) n).cache) := by
  induction n with
  | zero => exact Kvtest1.LeadsTo.nil
  | succ n ih =>
    obtain ⟨⟨a, req⟩, hget⟩ : ∃ entry, log[n]? = some entry :=
      ⟨log[n], List.getElem?_eq_getElem (by omega)⟩
    have hcommand := commands_getElem? hget
    have hbefore := ih (by omega)
    rw [executions_succ hget, List.map_append, replayed_succ hcommand]
    by_cases hexec : Executed log ((a, req), n)
    · obtain ⟨⟨cache', reply⟩, hexecute⟩ :=
        KVServer.execute_isSome (replayed (commands log) n).cache req.raftReq_known
      have hnew : (replayed (commands log) n).cached req.raftReq.clientId req.raftReq.seqNum = none := by
        rw [Request.raftReq_clientId, Request.raftReq_seqNum]
        exact hexec
      obtain ⟨hcache, hreply⟩ := KVServer.doOp_new hnew hexecute
      rw [if_pos hexec, List.map_singleton, hcache]
      have hr := hright ((a, req), n) hget hexec
      simp only [replyAt, hreply] at hr
      refine hbefore.snoc (step_right hexecute hr) ?_
      intro key hkey
      rw [req.raftReq_key] at hkey
      exact (execute_step req.raftReq_known hexecute).2 key hkey
    · have hcached : ((replayed (commands log) n).doOp (.raftReq req.raftReq)).1 =
          replayed (commands log) n := by
        obtain ⟨reply, hreply⟩ := Option.ne_none_iff_exists'.mp hexec
        have hreply' : (replayed (commands log) n).cached req.raftReq.clientId req.raftReq.seqNum =
            some reply := by
          rw [Request.raftReq_clientId, Request.raftReq_seqNum]
          exact hreply
        simp only [KVServer.doOp, hreply']
      rw [if_neg hexec, List.map_nil, List.append_nil, hcached]
      exact hbefore

/-! ## Linearizability -/

section Run

variable {servers : Nat} {tr : List (State × Action)} {t : State}

/-- The command that decides a call is executed, at the position it decides it at. -/
theorem Decides.mem_executions {log : List (Nat × Request)} {c : Int64} {call : Call} {answer : Reply}
    {j : Nat} {req : Request} (h : Decides log c call answer j req) :
    ∃ a, ((a, req), j) ∈ executions log log.length := by
  obtain ⟨a, hj⟩ := h.position
  exact ⟨a, (DistSys.Kvraft1.mem_executions le_rfl).mpr ⟨hj, h.executed⟩⟩

/-- What a call returned was decided before. -/
theorem ReturnsAt.decided (h : (kvraft servers).Run .initial tr t) (horder : InOrder t.log)
    {d : Nat} {u : State} {c : Int64} {call : Call} {answer : Reply}
    (hret : ReturnsAt tr d u c call answer) :
    ∃ j req, j < u.log.length ∧ Decides t.log c call answer j req := by
  obtain ⟨a, hd, hreturned⟩ := hret
  have hinv := Inv.of_run h horder
  have hu := List.mem_of_getElem? (visited_of_step (t := t) hd)
  exact exists_decides (hinv u hu) (hinv t (by simp [visited])) horder (log_of_visited h hu) hreturned

/-- An executed command has an answer that is right, and that is what its call returned. -/
theorem exists_answer (h : (kvraft servers).Run .initial tr t) (horder : InOrder t.log)
    (x : (Nat × Request) × Nat) (hx : t.log[x.2]? = some x.1) (hexec : Executed t.log x) :
    ∃ answer, Right x.1.2.op (replyAt t.log x.2 x.1.2) answer ∧
      ∀ answer', .ret (x.1.2.clientId, x.1.2.call) answer' ∈ history tr → answer' = answer := by
  by_cases hreturned : ∃ answer, .ret (x.1.2.clientId, x.1.2.call) answer ∈ history tr
  · obtain ⟨answer, hmem⟩ := hreturned
    obtain ⟨d, u, call, hret, hnumber⟩ := exists_returnsAt hmem
    refine ⟨answer, ?_, ?_⟩
    · obtain ⟨j, req, -, hdec⟩ := hret.decided h horder
      obtain ⟨b, hj⟩ := hdec.position
      have hcalls := (Inv.of_run h horder t (by simp [visited])).calls
      -- the command that decided is this one
      have hpos : x.2 = j := executions_unique hcalls horder (y := ((b, req), j)) hx hj hexec
        hdec.executed hdec.clientId.symm (by rw [hdec.number, hnumber])
      rw [hpos, hj] at hx
      obtain rfl : req = x.1.2 := congrArg Prod.snd (Option.some.inj hx)
      rw [hpos]
      exact Or.inr ⟨call, hdec.answered⟩
    · intro answer' hmem'
      obtain ⟨d', u', call', hret', hnumber'⟩ := exists_returnsAt hmem'
      exact returned_once h horder hret' hret (hnumber'.trans hnumber.symm)
  · exact ⟨_, Or.inl rfl, fun answer' hret => absurd ⟨answer', hret⟩ hreturned⟩

/-- In every run, whatever the replicas, the network and the leaders do, the calls of the clerks are
linearizable, when the numbers of a client never fall in the log. -/
theorem kvraft_linearizable (h : (kvraft servers).Run .initial tr t) (horder : InOrder t.log) :
    Linearizable (history tr) Kvtest1.Legal := by
  have hinv := Inv.of_run h horder
  have ht := hinv t (by simp [visited])
  have hnonempty : Nonempty Reply := ⟨.put ⟨.ok⟩⟩
  choose! answers hright hreturned using exists_answer h horder
  have hmem : ∀ {x}, x ∈ executions t.log t.log.length ↔ t.log[x.2]? = some x.1 ∧ Executed t.log x :=
    mem_executions le_rfl
  refine ⟨(executions t.log t.log.length).map fun x =>
    ((x.1.2.clientId, x.1.2.call), x.1.2.op, answers x), ?_, ?_, ?_, ?_, ?_⟩
  · -- an executed command is the only one of its call
    rw [List.map_map, List.Nodup, List.pairwise_map]
    refine executions_sorted.imp_of_mem ?_
    intro x y hx hy hxy heq
    obtain ⟨hclient, hcall⟩ := Prod.mk.inj heq
    obtain ⟨hxget, hxexec⟩ := hmem.mp hx
    obtain ⟨hyget, hyexec⟩ := hmem.mp hy
    have hsame := executions_unique ht.calls horder hxget hyget hxexec hyexec hclient hcall
    omega
  · intro y hy
    obtain ⟨x, hx, rfl⟩ := List.mem_map.mp hy
    have hcommitted := ht.calls.committed _ _ (List.mem_of_getElem? (hmem.mp hx).1)
    exact exists_called h (List.mem_of_getElem? hcommitted.1)
  · rintro ⟨c, number⟩ answer hret
    obtain ⟨d, u, call, hreturns, hnumber⟩ := exists_returnsAt hret
    obtain ⟨j, req, -, hdec⟩ := hreturns.decided h horder
    obtain ⟨b, hx⟩ := hdec.mem_executions
    obtain ⟨hget, hexec⟩ := hmem.mp hx
    have hid : (c, number) = (req.clientId, req.call) :=
      Prod.ext hdec.clientId.symm (by rw [hdec.number, hnumber])
    rw [hid] at hret
    refine ⟨req.op, List.mem_map.mpr ⟨_, hx, ?_⟩⟩
    rw [hid, hreturned _ hget hexec answer hret]
  · refine realTime_of_places Prod.snd executions_sorted _ ?_
    rintro x hx y hy op answer ⟨u, a⟩ ⟨v, a'⟩ d p hdp hd hret hp hcall
    obtain ⟨call, hret, hnumber⟩ := event_eq_ret.mp hret
    obtain ⟨rfl, hcalls⟩ := event_eq_call.mp hcall
    obtain ⟨j, req, hj, hdec⟩ := ReturnsAt.decided h horder ⟨a, hd, hret⟩
    obtain ⟨hxget, -⟩ := hmem.mp hx
    obtain ⟨hyget, hyexec⟩ := hmem.mp hy
    obtain ⟨b, hjget⟩ := hdec.position
    -- the return comes after the decision, and the call before the commands of its own
    have hplace : y.2 = j := executions_unique ht.calls horder (y := ((b, req), j)) hyget hjget hyexec
      hdec.executed hdec.clientId.symm (by rw [hdec.number, hnumber])
    have hvisited := visited_of_step (t := t) hp
    have hcalled : CalledAt tr p v x.1.2.clientId ⟨x.1.2.call, op, 0, none, false, 0⟩ := ⟨hp, hcalls⟩
    have hlater : v.log.length ≤ x.2 :=
      hcalled.committed_later (hinv v (List.mem_of_getElem? hvisited)).calls
        (log_of_visited h (List.mem_of_getElem? hvisited)) hxget rfl rfl
    have hbefore : u.log <+: v.log :=
      h.kept (I := fun w => u.log <+: w.log) (fun _ _ _ hw hst => hw.trans (State.log_extends hst))
        hdp.le (visited_of_step hd) hvisited List.prefix_rfl
    have hlength := hbefore.length_le
    omega
  · rw [List.map_map]
    exact (executions_leadsTo answers hright le_rfl).legal

/-- The run in which a `Put` is committed twice, through two servers. -/
example : history (traceOf (State.step 2) .initial refusedFirst) =
    [.call (1, 1) (.put "k" "v" 0), .ret (1, 1) (.put ⟨.ok⟩), .call (2, 1) (.get "k"),
      .ret (2, 1) (.get ⟨"v", 1, .ok⟩), .call (2, 2) (.put "k" "w" 5),
      .ret (2, 2) (.put ⟨.errVersion⟩)] ∧
    (executions (after (State.step 2) .initial refusedFirst).log 4).map Prod.snd = [0, 2, 3] := by
  decide

end Run

end DistSys.Kvraft1
