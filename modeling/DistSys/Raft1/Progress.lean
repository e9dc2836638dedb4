import DistSys.Raft1.Backup
import Mathlib.Data.Prod.Lex

/- From every state the cluster can get into, a command can still be committed and delivered.

   The state may follow any crashes, lost messages, snapshots and elections. From it an odd
   number of peers needs no more than that nothing fails for a while: a peer is elected in a
   new term, takes the command, gets it onto a majority and delivers it. Leaders do not time
   out; one that is to be elected again first steps down for another peer. Not every peer can
   play that part. To be elected it needs a log at least as up to date as those of a
   majority. To replicate it needs a majority that has compacted no further than itself, since
   with the others the negotiation of `nextIndex` may go in a circle. These are two different
   orders on the peers, and `exists_above_both` finds a peer that is high enough in both; for
   an even number there may be none. -/
namespace DistSys.Raft1

open Lib Raft

variable {n : Nat} {C D : Type} {svc : Service C D} {s t u : Cluster n C D} {me q : Fin n}
  {rf leader follower : Raft n C D}

/-! ## Without failures -/

/-- Nothing crashes, no message is lost, no snapshot is taken and no leader times out. `ticker` does
not ask for the state, so a tick that was in the channel when the peer was elected would still make
it stand again. -/
def Cluster.Smooth (s : Cluster n C D) : Action n C D → Prop
  | .event (.electionTimeout me) => (s.proc me).rf.state ≠ .leader
  | .event (.lose _) => False
  | .event (.snapshot _ _ _) => False
  | .event _ => True
  | .crash _ => False
  | .crashIn _ _ _ => False

/-- The cluster can go from `s` to `t` without failures. -/
abbrev GoesOn (svc : Service C D) (s t : Cluster n C D) : Prop :=
  (system n svc).GoesTo Cluster.Smooth s t

theorem GoesOn.exec {e : Event n C D} (he : s.Smooth (.event e)) (ht : s.exec e = some t) :
    GoesOn svc s t := by
  refine Lts.GoesTo.single he ⟨?_, ht⟩
  cases e with
  | snapshot me index data => exact absurd he not_false
  | _ => trivial

/-- The state of some run. -/
def Reached (svc : Service C D) (s : Cluster n C D) : Prop := ∃ tr, Run svc tr s

theorem Reached.goesOn (h : Reached svc s) (ht : GoesOn svc s t) : Reached svc t := by
  obtain ⟨tr, hrun⟩ := h
  obtain ⟨tr', hrun', -⟩ := ht
  exact ⟨tr ++ tr', Lts.Run.append hrun hrun'⟩

theorem Reached.coupled (h : Reached svc s) : (∃ g, Coupled svc s g) ∧ Bounded s := by
  obtain ⟨tr, hrun⟩ := h
  obtain ⟨hc, hb, -⟩ := hrun.bounded s (by simp [visited])
  exact ⟨hc, hb⟩

theorem goesOn_handle (svc : Service C D) {m : Rpc n C D} {rest : List (Rpc n C D)} (hnet : s.net = m :: rest) :
    GoesOn svc s (s.handle m rest) := by
  apply GoesOn.exec (e := .handle 0) trivial
  simp [Cluster.exec, hnet]

theorem handle_request {m : Rpc n C D} {rest : List (Rpc n C D)} {reply : Payload n C D}
    (h : Answers (s.proc m.server).rf m.payload rf reply) :
    s.handle m rest =
      s.set m.server { s.proc m.server with rf := rf } ({ m with payload := reply } :: rest) := by
  unfold Cluster.handle
  cases hp : m.payload with
  | voteReq args => rw [hp] at h; cases h; rfl
  | appendReq args => rw [hp] at h; cases h; rfl
  | snapReq args => rw [hp] at h; cases h; rfl
  | voteRep args reply => rw [hp] at h; cases h
  | appendRep args reply => rw [hp] at h; cases h
  | snapRep args reply => rw [hp] at h; cases h

theorem handle_reply {m : Rpc n C D} {rest : List (Rpc n C D)} {p : Process n C D}
    (hlife : m.incarnation = (s.proc m.caller).incarnation)
    (h : Receives m.server (s.proc m.caller) m.payload p) :
    s.handle m rest = s.set m.caller p rest := by
  unfold Cluster.handle
  cases hp : m.payload with
  | voteReq args => rw [hp] at h; cases h
  | appendReq args => rw [hp] at h; cases h
  | snapReq args => rw [hp] at h; cases h
  | voteRep args reply => rw [hp] at h; cases h; exact if_pos hlife
  | appendRep args reply => rw [hp] at h; cases h; exact if_pos hlife
  | snapRep args reply => rw [hp] at h; cases h; exact if_pos hlife

namespace Cluster

/-- The cluster with one process and the `Raft` object of another replaced. -/
def setPair (s : Cluster n C D) (me q : Fin n) (p : Process n C D) (rf : Raft n C D)
    (net : List (Rpc n C D)) : Cluster n C D :=
  (s.set q { s.proc q with rf := rf } net).set me p net

theorem setPair_me (s : Cluster n C D) (me q : Fin n) (p : Process n C D) (rf : Raft n C D)
    (net : List (Rpc n C D)) : (s.setPair me q p rf net).proc me = p :=
  Function.update_self _ _ _

theorem setPair_peer (s : Cluster n C D) (hq : q ≠ me) (p : Process n C D) (rf : Raft n C D)
    (net : List (Rpc n C D)) : (s.setPair me q p rf net).proc q = { s.proc q with rf := rf } :=
  (Function.update_of_ne hq _ _).trans (Function.update_self _ _ _)

theorem setPair_other (s : Cluster n C D) {i : Fin n} (hme : i ≠ me) (hq : i ≠ q)
    (p : Process n C D) (rf : Raft n C D) (net : List (Rpc n C D)) :
    (s.setPair me q p rf net).proc i = s.proc i :=
  (Function.update_of_ne hme _ _).trans (Function.update_of_ne hq _ _)

end Cluster

/-- A request at the head of the network is handled, and then its reply. -/
theorem goesOn_exchange (svc : Service C D) {inc : Nat} {request reply : Payload n C D}
    {rest : List (Rpc n C D)} {p : Process n C D} (hq : q ≠ me)
    (hlife : inc = (s.proc me).incarnation) (hnet : s.net = ⟨me, inc, q, request⟩ :: rest)
    (hanswer : Answers (s.proc q).rf request rf reply) (hreceive : Receives q (s.proc me) reply p) :
    GoesOn svc s (s.setPair me q p rf rest) := by
  have hfirst := goesOn_handle svc hnet
  rw [handle_request hanswer] at hfirst
  have hme : (s.set q { s.proc q with rf := rf } (⟨me, inc, q, reply⟩ :: rest)).proc me =
      s.proc me := Function.update_of_ne hq.symm _ _
  have hsecond := goesOn_handle svc
    (s := s.set q { s.proc q with rf := rf } (⟨me, inc, q, reply⟩ :: rest)) rfl
  rw [handle_reply (p := p) (by rw [hme]; exact hlife) (by rw [hme]; exact hreceive)] at hsecond
  exact hfirst.trans hsecond

/-! ## Elections -/

/-- What voters compare. -/
def Raft.logKey (rf : Raft n C D) : ℕ ×ₗ ℕ := toLex (rf.getLatestLog.term, rf.getLatestLog.index)

theorem isLogUpdateToDate_iff : rf.isLogUpdateToDate leader.getLatestLog.index
    leader.getLatestLog.term = true ↔ rf.logKey ≤ leader.logKey := by
  rw [Raft.logKey, Raft.logKey, Prod.Lex.toLex_le_toLex]
  simp only [Raft.isLogUpdateToDate, Bool.or_eq_true, Bool.and_eq_true, decide_eq_true_eq,
    beq_iff_eq, gt_iff_lt, ge_iff_le]
  rw [@eq_comm _ leader.getLatestLog.term]

/-- A peer asked for its vote in a new term enters the term, and votes by the log alone. -/
theorem requestVote_newer {args : RequestVoteArgs n} (hterm : rf.currentTerm < args.term) :
    (rf.requestVote args).1.logs = rf.logs ∧ (rf.requestVote args).1.currentTerm = args.term ∧
      (rf.requestVote args).1.state = .follower ∧ (rf.requestVote args).2.term = args.term ∧
      (rf.requestVote args).2.voteGranted =
        rf.isLogUpdateToDate args.lastLogIndex args.lastLogTerm := by
  unfold Raft.requestVote
  rw [if_neg (by omega), updateTermAndStepDown_of_lt hterm]
  have hkey : Raft.isLogUpdateToDate (Raft.persistState
      { rf with currentTerm := args.term, voteFor := none, state := .follower })
      args.lastLogIndex args.lastLogTerm =
      rf.isLogUpdateToDate args.lastLogIndex args.lastLogTerm := rfl
  simp only [hkey]
  cases hlog : rf.isLogUpdateToDate args.lastLogIndex args.lastLogTerm with
  | false => exact ⟨rfl, rfl, rfl, rfl, rfl⟩
  | true => exact ⟨rfl, rfl, rfl, rfl, rfl⟩

/-- The replies of an election, handled one after the other. -/
def Raft.tally (rf : Raft n C D) (votes : Nat) (args : RequestVoteArgs n)
    (replies : List RequestVoteReply) : Raft n C D × Nat :=
  replies.foldl (fun x reply => x.1.handleVoteReply x.2 args reply) (rf, votes)

theorem tally_leader {args : RequestVoteArgs n} (hs : rf.state = .leader) (votes : Nat)
    (replies : List RequestVoteReply) : rf.tally votes args replies = (rf, votes) := by
  have hignored : ∀ reply, rf.handleVoteReply votes args reply = (rf, votes) := by
    intro reply
    simp [Raft.handleVoteReply, Raft.isValidCandidate, hs]
  induction replies with
  | nil => rfl
  | cons reply replies ih =>
    show Raft.tally (rf.handleVoteReply votes args reply).1
      (rf.handleVoteReply votes args reply).2 args replies = _
    rw [hignored]
    exact ih

theorem handleVoteReply_logs (votes : Nat) (args : RequestVoteArgs n) (reply : RequestVoteReply) :
    (rf.handleVoteReply votes args reply).1.logs = rf.logs := by
  have hlead : (rf.changeState .leader).logs = rf.logs := by
    unfold Raft.changeState
    split <;> rfl
  have hdown : (rf.updateTermAndStepDown reply.term).logs = rf.logs := by
    rcases Nat.lt_or_ge rf.currentTerm reply.term with h | h
    · rw [updateTermAndStepDown_of_lt h]
      rfl
    · rw [updateTermAndStepDown_of_le h]
  unfold Raft.handleVoteReply
  split
  · split
    · split
      · exact hlead
      · rfl
    · split
      · exact hdown
      · rfl
  · rfl

theorem tally_logs (votes : Nat) (args : RequestVoteArgs n) (replies : List RequestVoteReply) :
    (rf.tally votes args replies).1.logs = rf.logs := by
  induction replies generalizing rf votes with
  | nil => rfl
  | cons reply replies ih =>
    show (Raft.tally (rf.handleVoteReply votes args reply).1
      (rf.handleVoteReply votes args reply).2 args replies).1.logs = _
    rw [ih, handleVoteReply_logs]

theorem changeState_leader_state (hs : rf.state = .candidate) :
    (rf.changeState .leader).state = .leader := by
  simp [Raft.changeState, hs, Raft.updateLogIndices]

/-- With a majority of votes a candidate becomes leader, whatever the other replies are. -/
theorem tally_elected {args : RequestVoteArgs n} (hs : rf.state = .candidate)
    (hterm : rf.currentTerm = args.term) {replies : List RequestVoteReply}
    (hreplies : ∀ reply ∈ replies, reply.term ≤ args.term) {votes : Nat} (hfew : votes ≤ n / 2)
    (hmany : n / 2 < votes + replies.countP (·.voteGranted)) :
    (rf.tally votes args replies).1 = rf.changeState .leader := by
  induction replies generalizing votes with
  | nil =>
    rw [List.countP_nil] at hmany
    omega
  | cons reply replies ih =>
    have hvalid : rf.isValidCandidate args.term = true := by
      simp [Raft.isValidCandidate, hs, hterm]
    have hold := hreplies reply List.mem_cons_self
    have hrest : ∀ r ∈ replies, r.term ≤ args.term := fun r hr =>
      hreplies r (List.mem_cons_of_mem _ hr)
    rw [List.countP_cons] at hmany
    show (Raft.tally (rf.handleVoteReply votes args reply).1
      (rf.handleVoteReply votes args reply).2 args replies).1 = _
    unfold Raft.handleVoteReply
    rw [if_pos hvalid]
    cases hgranted : reply.voteGranted with
    | true =>
      rw [hgranted, if_pos rfl] at hmany
      rw [if_pos rfl]
      split
      · rw [tally_leader (changeState_leader_state hs)]
      · exact ih hrest (by omega) (by omega)
    | false =>
      rw [hgranted, if_neg Bool.false_ne_true] at hmany
      rw [if_neg Bool.false_ne_true, if_neg (by omega)]
      exact ih hrest hfew (by omega)

/-- What a candidate asks the others. -/
def Raft.voteArgs (rf : Raft n C D) : RequestVoteArgs n where
  term := rf.currentTerm
  candidateId := rf.me
  lastLogIndex := rf.getLatestLog.index
  lastLogTerm := rf.getLatestLog.term

/-- `me` has just started an election, `k` terms after the one it is in in `s`. Nobody else has
done anything. -/
structure Campaigning (me : Fin n) (k : Nat) (s t : Cluster n C D) : Prop where
  others : ∀ q ≠ me, t.proc q = s.proc q
  net : ∃ rest, t.net =
    Cluster.broadcast me (t.proc me).incarnation (.voteReq (t.proc me).rf.voteArgs) ++ rest
  logs : (t.proc me).rf.logs = (s.proc me).rf.logs
  candidate : (t.proc me).rf.state = .candidate
  votes : (t.proc me).grantedVotes = 1
  term : (t.proc me).rf.currentTerm = (s.proc me).rf.currentTerm + k

theorem goesOn_timeout (svc : Service C D) (hidle : (s.proc me).rf.state ≠ .leader) :
    ∃ t, GoesOn svc s t ∧ Campaigning me 1 s t := by
  refine ⟨_, GoesOn.exec (e := .electionTimeout me) hidle rfl, ?_⟩
  refine ⟨fun q hq => Function.update_of_ne hq _ _, ⟨s.net, ?_⟩, ?_, ?_, ?_, ?_⟩ <;>
    simp only [Cluster.set, Function.update_self, electionTimeout_eq] <;> rfl

theorem goesOn_timeouts (svc : Service C D) (hidle : (s.proc me).rf.state ≠ .leader) (k : Nat) :
    ∃ t, GoesOn svc s t ∧ Campaigning me (k + 1) s t := by
  induction k with
  | zero => exact goesOn_timeout svc hidle
  | succ k ih =>
    -- The replies to the last election have not been handled, so the peer is still a candidate.
    obtain ⟨u, hgo, hu⟩ := ih
    have hidle' : (u.proc me).rf.state ≠ .leader := by simp [hu.candidate]
    obtain ⟨t, hgo', ht⟩ := goesOn_timeout svc hidle'
    refine ⟨t, hgo.trans hgo', fun q hq => (ht.others q hq).trans (hu.others q hq), ht.net,
      ht.logs.trans hu.logs, ht.candidate, ht.votes, ?_⟩
    rw [ht.term, hu.term]
    omega

/-- All requests of an election and their replies. -/
theorem goesOn_votes (svc : Service C D) {inc : Nat} {args : RequestVoteArgs n}
    {rest : List (Rpc n C D)} {peers : List (Fin n)} (hnodup : peers.Nodup) (hme : me ∉ peers)
    (s : Cluster n C D) (hinc : inc = (s.proc me).incarnation)
    (hnet : s.net = peers.map (fun q => ⟨me, inc, q, .voteReq args⟩) ++ rest) :
    ∃ t, GoesOn svc s t ∧ (∀ p ≠ me, p ∉ peers → t.proc p = s.proc p) ∧
      (∀ q ∈ peers, (t.proc q).rf = ((s.proc q).rf.requestVote args).1) ∧
      (t.proc me).rf = ((s.proc me).rf.tally (s.proc me).grantedVotes args
        (peers.map fun q => ((s.proc q).rf.requestVote args).2)).1 := by
  induction peers generalizing s with
  | nil => exact ⟨s, .refl s, fun _ _ _ => rfl, fun q hq => by simp at hq, rfl⟩
  | cons q peers ih =>
    obtain ⟨hqs, hnodup⟩ := List.nodup_cons.mp hnodup
    obtain ⟨hqme, hme⟩ := List.ne_and_not_mem_of_not_mem_cons hme
    have hgo := goesOn_exchange svc (Ne.symm hqme) hinc hnet (.vote args) (.vote args _)
    generalize hu : s.setPair me q _ _ _ = u at hgo
    have hume := (congrArg (fun u => u.proc me) hu).symm.trans (s.setPair_me ..)
    have huq : (u.proc q).rf = ((s.proc q).rf.requestVote args).1 := by
      rw [← hu, s.setPair_peer (Ne.symm hqme)]
    have hothers : ∀ p ≠ me, p ≠ q → u.proc p = s.proc p := by
      intro p hp hpq
      rw [← hu, s.setPair_other hp hpq]
    obtain ⟨t, hgo', hothers', hvoters, htme⟩ := ih hnodup hme u (by rw [hume]; exact hinc)
      (by rw [← hu]; rfl)
    have hkept : ∀ p ∈ peers, u.proc p = s.proc p := by
      intro p hp
      exact hothers p (fun h => hme (h ▸ hp)) (fun h => hqs (h ▸ hp))
    refine ⟨t, hgo.trans hgo', fun p hp hps => ?_, fun p hp => ?_, ?_⟩
    · obtain ⟨hpq, hps⟩ := List.ne_and_not_mem_of_not_mem_cons hps
      rw [hothers' p hp hps, hothers p hp hpq]
    · rcases List.mem_cons.mp hp with rfl | hp
      · rw [hothers' p (Ne.symm hqme) hqs, huq]
      · rw [hvoters p hp, hkept p hp]
    · have hreplies : peers.map (fun p => ((u.proc p).rf.requestVote args).2) =
          peers.map fun p => ((s.proc p).rf.requestVote args).2 :=
        List.map_congr_left fun p hp => by rw [hkept p hp]
      rw [htme, hreplies, hume]
      rfl

/-- The election that `me` started last in `u`, beyond all terms of `s`, is over in `t`: the others
have been asked and their replies are counted. -/
structure Stood (me : Fin n) (s u t : Cluster n C D) : Prop where
  campaigning : ∃ k, Campaigning me k s u
  newer : ∀ q, (s.proc q).rf.currentTerm < (u.proc me).rf.currentTerm
  asked : ∀ q ≠ me, (t.proc q).rf = ((s.proc q).rf.requestVote (u.proc me).rf.voteArgs).1
  counted : (t.proc me).rf = ((u.proc me).rf.tally 1 (u.proc me).rf.voteArgs
    (((List.finRange n).filter (· ≠ me)).map fun q =>
      ((s.proc q).rf.requestVote (u.proc me).rf.voteArgs).2)).1

theorem Stood.logs (h : Stood me s u t) (q : Fin n) :
    (t.proc q).rf.logs = (s.proc q).rf.logs := by
  by_cases hq : q = me
  · obtain ⟨k, hk⟩ := h.campaigning
    rw [hq, h.counted, tally_logs, hk.logs]
  · rw [h.asked q hq]
    exact (requestVote_newer (h.newer q)).1

/-- Whatever its log is, a peer that does not lead can stand in a term beyond all others. -/
theorem goesOn_stood (svc : Service C D) (hidle : (s.proc me).rf.state ≠ .leader) :
    ∃ u t, GoesOn svc s t ∧ Stood me s u t := by
  obtain ⟨u, hgo, hu⟩ := goesOn_timeouts svc hidle
    (Finset.univ.sup fun q => (s.proc q).rf.currentTerm)
  have hnewer : ∀ q, (s.proc q).rf.currentTerm < (u.proc me).rf.currentTerm := by
    intro q
    have hle := Finset.le_sup (f := fun q => (s.proc q).rf.currentTerm) (Finset.mem_univ q)
    rw [hu.term]
    omega
  obtain ⟨rest, hnet⟩ := hu.net
  have hnodup : ((List.finRange n).filter (· ≠ me)).Nodup := (List.nodup_finRange n).filter _
  obtain ⟨t, hgo', -, hvoted, hme⟩ := goesOn_votes svc hnodup (by simp) u rfl hnet
  refine ⟨u, t, hgo.trans hgo', ⟨_, hu⟩, hnewer, fun q hq => ?_, ?_⟩
  · rw [hvoted q (by simpa using hq), hu.others q hq]
  · rw [hme, hu.votes]
    refine congrArg (fun replies => (Raft.tally _ 1 _ replies).1) (List.map_congr_left fun q hq => ?_)
    rw [hu.others q (by simpa using hq)]

/-- `me` leads a new term, in which all peers are. No log has changed. -/
structure Elected (me : Fin n) (s t : Cluster n C D) : Prop where
  leads : (t.proc me).rf.state = .leader
  newer : ∀ q, (s.proc q).rf.currentTerm < (t.proc me).rf.currentTerm
  term : ∀ q, (t.proc q).rf.currentTerm = (t.proc me).rf.currentTerm
  logs : ∀ q, (t.proc q).rf.logs = (s.proc q).rf.logs

/-- The votes of those whose logs are not more up to date than the candidate's. -/
theorem Stood.granted (h : Stood me s u t)
    (hvoters : IsMajority {q | (s.proc q).rf.logKey ≤ (s.proc me).rf.logKey}) :
    n / 2 < 1 + (((List.finRange n).filter (· ≠ me)).map fun q =>
      ((s.proc q).rf.requestVote (u.proc me).rf.voteArgs).2).countP (·.voteGranted) := by
  have hkey : (u.proc me).rf.logKey = (s.proc me).rf.logKey := by
    obtain ⟨k, hk⟩ := h.campaigning
    rw [Raft.logKey, Raft.getLatestLog, hk.logs]
    rfl
  have hsub : (Finset.univ.filter fun q => (s.proc q).rf.logKey ≤ (s.proc me).rf.logKey).erase me ⊆
      (((List.finRange n).filter (· ≠ me)).filter fun q =>
        ((s.proc q).rf.requestVote (u.proc me).rf.voteArgs).2.voteGranted).toFinset := by
    intro q hq
    obtain ⟨hne, hq⟩ := Finset.mem_erase.mp hq
    have hle := (Finset.mem_filter.mp hq).2
    simp only [List.mem_toFinset, List.mem_filter, List.mem_finRange, true_and]
    refine ⟨by simpa using hne, ?_⟩
    rw [(requestVote_newer (h.newer q)).2.2.2.2]
    exact isLogUpdateToDate_iff.mpr (hkey ▸ hle)
  have hcard := (Finset.card_le_card hsub).trans (List.toFinset_card_le _)
  have hself : me ∈ Finset.univ.filter fun q => (s.proc q).rf.logKey ≤ (s.proc me).rf.logKey :=
    Finset.mem_filter.mpr ⟨Finset.mem_univ me, le_rfl⟩
  have herase := Finset.card_erase_of_mem hself
  have hmany := isMajority_fin.mp hvoters
  rw [List.countP_map, List.countP_eq_length_filter]
  simp only [Function.comp_def]
  omega

/-- A peer whose log is up to date for a majority has been elected when it has stood. -/
theorem Stood.elected (h : Stood me s u t) (hn : 1 < n)
    (hvoters : IsMajority {q | (s.proc q).rf.logKey ≤ (s.proc me).rf.logKey}) : Elected me s t := by
  obtain ⟨k, hu⟩ := h.campaigning
  have hreplies : ∀ reply ∈ ((List.finRange n).filter (· ≠ me)).map fun q =>
      ((s.proc q).rf.requestVote (u.proc me).rf.voteArgs).2,
      reply.term ≤ (u.proc me).rf.voteArgs.term := by
    intro reply hreply
    obtain ⟨q, -, rfl⟩ := List.mem_map.mp hreply
    exact (requestVote_newer (h.newer q)).2.2.2.1.le
  have hme := h.counted
  rw [tally_elected hu.candidate rfl hreplies (by omega) (h.granted hvoters)] at hme
  have hterm : (t.proc me).rf.currentTerm = (u.proc me).rf.currentTerm := by
    rw [hme]
    simp [Raft.changeState, hu.candidate, Raft.updateLogIndices]
  refine ⟨by rw [hme]; exact changeState_leader_state hu.candidate, fun q => ?_, fun q => ?_, h.logs⟩
  · rw [hterm]
    exact h.newer q
  · by_cases hq : q = me
    · rw [hq]
    · rw [h.asked q hq, hterm]
      exact (requestVote_newer (h.newer q)).2.1

/-- Not all peers lead at once: a majority voted for the leader of the newest term, and a voter that
still led would lead that term too. -/
theorem Coupled.exists_not_leader {g : Ghost n C D} (hc : Coupled svc s g) (hn : 1 < n) :
    ∃ v, (s.proc v).rf.state ≠ .leader := by
  by_contra hall
  have hleads : ∀ v, (s.proc v).rf.state = .leader := fun v => not_not.mp fun h => hall ⟨v, h⟩
  obtain ⟨me, -, hmax⟩ := Finset.exists_max_image Finset.univ (fun v => (s.proc v).rf.currentTerm)
    ⟨⟨0, by omega⟩, Finset.mem_univ _⟩
  obtain ⟨hled, -⟩ := (hc.node me).leads hc.inv (hleads me)
  obtain ⟨-, Q, -, -, -, hQ, hballots⟩ := hc.inv.led_camp hled
  obtain ⟨v, hv, hne⟩ := Finset.exists_mem_ne (a := me) (s := Q) (by
    have := isMajority_fin.mp hQ
    omega)
  obtain ⟨hled', hterm, -⟩ := (hc.node v).leads hc.inv (hleads v)
  have hle := hmax v (Finset.mem_univ v)
  have hsame : (s.proc v).rf.currentTerm = (s.proc me).rf.currentTerm := by
    rcases hc.inv.ballot_term (hballots v hv).1 with hlt | ⟨heq, -⟩ <;> omega
  rw [hsame, hled] at hled'
  exact hne (congrArg Prod.fst (Option.some.inj hled')).symm

/-- A peer whose log is up to date for a majority can be elected. -/
theorem goesOn_elected (h : Reached svc s) (hn : 1 < n) (me : Fin n)
    (hvoters : IsMajority {q | (s.proc q).rf.logKey ≤ (s.proc me).rf.logKey}) :
    ∃ t, GoesOn svc s t ∧ Elected me s t := by
  obtain ⟨⟨g, hc⟩, -⟩ := h.coupled
  obtain ⟨v, hv⟩ := hc.exists_not_leader hn
  by_cases hidle : (s.proc me).rf.state = .leader
  · -- Another peer stands first, and the leader steps down when it is asked for its vote.
    have hne : me ≠ v := fun heq => hv (heq ▸ hidle)
    obtain ⟨u, w, hgo, hw⟩ := goesOn_stood svc hv
    have hkey : ∀ q, (w.proc q).rf.logKey = (s.proc q).rf.logKey := by
      intro q
      rw [Raft.logKey, Raft.getLatestLog, hw.logs]
      rfl
    have hdown : (w.proc me).rf.state ≠ .leader := by
      rw [hw.asked me hne, (requestVote_newer (hw.newer me)).2.2.1]
      simp
    obtain ⟨u', t, hgo', ht⟩ := goesOn_stood svc hdown
    have hel := ht.elected hn (by simpa only [hkey] using hvoters)
    refine ⟨t, hgo.trans hgo', hel.leads, fun q => ?_, hel.term, fun q => (hel.logs q).trans (hw.logs q)⟩
    have hentered : (w.proc me).rf.currentTerm = (u.proc v).rf.currentTerm := by
      rw [hw.asked me hne]
      exact (requestVote_newer (hw.newer me)).2.1
    exact (hentered ▸ hw.newer q).trans (hel.newer me)
  · obtain ⟨u, t, hgo, ht⟩ := goesOn_stood svc hidle
    exact ⟨t, hgo, ht.elected hn hvoters⟩

/-! ## Replication -/

/-- The leader after the follower has confirmed its whole log. If then a majority has, it has
committed what it has last stored in its own term. -/
structure Confirmed (peer : Fin n) (leader rf : Raft n C D) : Prop where
  changed : ∃ next commit, rf = { leader with
    nextIndex := next
    matchIndex := Function.update leader.matchIndex peer leader.getLatestLog.index
    commitIndex := commit }
  commits : IsMajority {p | leader.getLatestLog.index ≤ rf.matchIndex p} →
    leader.getLatestLog.index ≤ rf.commitIndex

/-- A leader whose last entry is of its own term is told that the peer has its whole log. -/
theorem acceptNewLogEntries_confirmed {peer : Fin n} {args : AppendEntryArgs n C}
    (hbound : ∀ p, leader.matchIndex p ≤ leader.getLatestLog.index)
    (hown : leader.isLogMatched leader.getLatestLog.index leader.currentTerm = true)
    (hargs : args.prevLogIndex + args.entries.length = leader.getLatestLog.index) :
    Confirmed peer leader (leader.acceptNewLogEntries peer args) := by
  obtain ⟨v, hv, heq⟩ := acceptNewLogEntries_selects leader peer args
  rw [hargs] at hv heq
  refine ⟨⟨_, _, heq⟩, fun hmaj => ?_⟩
  rw [heq] at hmaj ⊢
  -- The index selected is the last one: a majority has it, and nobody has more.
  have hle : leader.getLatestLog.index ≤ v := (hv _).mp (isMajority_fin.mp hmaj)
  have hge : v ≤ leader.getLatestLog.index :=
    selected_le hv (matchIndex_updateLogIndices_le hbound peer le_rfl)
  obtain rfl : v = leader.getLatestLog.index := le_antisymm hge hle
  show leader.getLatestLog.index ≤ ite _ _ _
  split
  · exact le_rfl
  · rename_i hkept
    by_contra hlt
    exact hkept ⟨not_le.mp hlt, hown⟩

/-- A follower that has compacted no further than the leader confirms its log after some rounds. -/
theorem Compatible.confirms {peer : Fin n} (h : Compatible leader follower)
    (hkept : follower.getFirstLog.index ≤ leader.getFirstLog.index)
    (hlast : leader.nextIndex peer ≤ leader.getLatestLog.index + 1)
    (hbound : ∀ p, leader.matchIndex p ≤ leader.getLatestLog.index)
    (hown : leader.isLogMatched leader.getLatestLog.index leader.currentTerm = true) :
    ∃ k, Confirmed peer leader ((round peer)^[k] (leader, follower)).1 := by
  obtain ⟨k, rf, args, ⟨next, i, hi, rfl⟩, hargs, hk⟩ := h.accepts hlast (Or.inl hkept)
  have hfirst : leader.getFirstLog.index ≤ leader.getLatestLog.index := by
    rw [h.leaderShape.latest]
    exact Nat.le_add_right _ _
  have hbound' := matchIndex_updateLogIndices_le hbound peer (hi.trans (max_le (hbound peer) hfirst))
  obtain ⟨⟨next', commit, heq⟩, hcommits⟩ := @acceptNewLogEntries_confirmed n C D { leader with
    nextIndex := next
    matchIndex := Function.update leader.matchIndex peer i } peer args hbound' hown hargs
  refine ⟨k, hk ▸ ⟨⟨next', commit, heq.trans ?_⟩, hcommits⟩⟩
  show ({ leader with
    nextIndex := next'
    matchIndex := Function.update (Function.update leader.matchIndex peer i) peer
      leader.getLatestLog.index
    commitIndex := commit } : Raft n C D) = _
  rw [Function.update_idem]

/-- The pair of `me` and `q` replaced. -/
def Cluster.withPair (s : Cluster n C D) (me q : Fin n) (pair : Raft n C D × Raft n C D) :
    Cluster n C D :=
  s.setPair me q { s.proc me with rf := pair.1 } pair.2 s.net

theorem Cluster.withPair_self (s : Cluster n C D) (me q : Fin n) :
    s.withPair me q ((s.proc me).rf, (s.proc q).rf) = s := by
  have hq : Function.update s.proc q (s.proc q) = s.proc := Function.update_eq_self q s.proc
  have hme : Function.update s.proc me (s.proc me) = s.proc := Function.update_eq_self me s.proc
  show (⟨Function.update (Function.update s.proc q (s.proc q)) me (s.proc me), s.net⟩ :
    Cluster n C D) = s
  rw [hq, hme]

theorem Cluster.withPair_withPair (s : Cluster n C D) (hq : q ≠ me)
    (pair pair' : Raft n C D × Raft n C D) :
    (s.withPair me q pair).withPair me q pair' = s.withPair me q pair' := by
  have hproc : ((s.withPair me q pair).withPair me q pair').proc = (s.withPair me q pair').proc := by
    funext i
    by_cases hme : i = me
    · subst hme
      simp only [withPair, setPair_me]
    · by_cases hpeer : i = q
      · subst hpeer
        simp only [withPair, setPair_peer _ hq]
      · simp only [withPair, setPair_other _ hme hpeer]
  exact congrArg (fun proc => (⟨proc, s.net⟩ : Cluster n C D)) hproc

/-- A round between two peers of the cluster. -/
theorem goesOn_round (svc : Service C D) (s : Cluster n C D) (hq : q ≠ me) :
    GoesOn svc s (s.withPair me q (round q ((s.proc me).rf, (s.proc q).rf))) := by
  unfold Raft.round
  cases hsend : (s.proc me).rf.doSendAppendEntry q with
  | none =>
    show GoesOn svc s (s.withPair me q ((s.proc me).rf, (s.proc q).rf))
    rw [s.withPair_self]
    exact .refl s
  | some out =>
    cases out with
    | append args =>
      have hgo : GoesOn svc s
          { s with net := ⟨me, (s.proc me).incarnation, q, .appendReq args⟩ :: s.net } :=
        GoesOn.exec (e := .send me q) trivial (by simp [Cluster.exec, hq.symm, hsend])
      exact hgo.trans (goesOn_exchange svc hq rfl rfl (.append args) (.append args _))
    | snapshot args =>
      have hgo : GoesOn svc s
          { s with net := ⟨me, (s.proc me).incarnation, q, .snapReq args⟩ :: s.net } :=
        GoesOn.exec (e := .send me q) trivial (by simp [Cluster.exec, hq.symm, hsend])
      exact hgo.trans (goesOn_exchange svc hq rfl rfl (.snapshot args) (.snapshot args _))

theorem goesOn_rounds (svc : Service C D) (s : Cluster n C D) (hq : q ≠ me) (k : Nat) :
    GoesOn svc s (s.withPair me q ((round q)^[k] ((s.proc me).rf, (s.proc q).rf))) := by
  induction k with
  | zero =>
    show GoesOn svc s (s.withPair me q ((s.proc me).rf, (s.proc q).rf))
    rw [s.withPair_self]
    exact .refl s
  | succ k ih =>
    have hround := goesOn_round svc
      (s.withPair me q ((round q)^[k] ((s.proc me).rf, (s.proc q).rf))) hq
    rw [s.withPair_withPair hq, Cluster.withPair, s.setPair_me, s.setPair_peer hq] at hround
    rw [Function.iterate_succ_apply']
    exact ih.trans hround

/-- In a reached state, a follower that has entered the leader's term. -/
theorem Coupled.compatible {g : Ghost n C D} (hc : Coupled svc s g)
    (hleads : (s.proc me).rf.state = .leader)
    (hterm : (s.proc q).rf.currentTerm = (s.proc me).rf.currentTerm) :
    Compatible (s.proc me).rf (s.proc q).rf := by
  have hm := hc.node me
  have hf := hc.node q
  obtain ⟨hled, -, hlog⟩ := hm.leads hc.inv hleads
  -- What the follower has committed, in a term up to this one, is in the leader's log.
  have hextends : (g.core.log q).take (s.proc q).rf.commitIndex <+: g.core.log me := by
    rw [hlog]
    exact hf.log.cert.in_llog hc.inv (hf.dur.term_le.trans hterm.le) (by rw [hled]; simp)
  have hlen := hextends.length_le
  rw [List.length_take, min_eq_left hf.log.commit_le] at hlen
  have hfirst : (s.proc q).rf.getFirstLog.index = (s.proc q).rf.lastIncludedIndex := by
    rw [hf.log.first]
  have hfirst' : (s.proc me).rf.getFirstLog.index = (s.proc me).rf.lastIncludedIndex := by
    rw [hm.log.first]
  have happlied := hf.log.applied_le
  have hincluded := hf.log.first_le
  refine ⟨hleads, hterm, hc.shape me, hc.shape q, ?_, ?_, ?_, ?_⟩
  · rw [hfirst, hm.log.latest.1]
    omega
  · rw [hfirst]
    exact hincluded
  · rw [hf.log.latest.1]
    exact happlied.trans hf.log.commit_le
  · intro i hi hme _ hq
    rw [hfirst] at hq
    rw [hfirst'] at hme
    rw [Raft.logTerm, Raft.logTerm, hfirst, hfirst', (hm.log.shows.getD hme (by omega)).1,
      (hf.log.shows.getD hq (by have := hf.log.commit_le; omega)).1]
    have hcommit : i ≤ (s.proc q).rf.commitIndex := hi.trans happlied
    rw [termAt_prefix_eq hextends (by rw [List.length_take, min_eq_left hf.log.commit_le]; exact hcommit),
      termAt_take hcommit]

/-- The rounds with one follower of the leader's term. -/
theorem goesOn_confirmed (h : Reached svc s) (hq : q ≠ me)
    (hleads : (s.proc me).rf.state = .leader)
    (hown : (s.proc me).rf.isLogMatched (s.proc me).rf.getLatestLog.index
      (s.proc me).rf.currentTerm = true)
    (hterm : (s.proc q).rf.currentTerm = (s.proc me).rf.currentTerm)
    (hkept : (s.proc q).rf.getFirstLog.index ≤ (s.proc me).rf.getFirstLog.index) :
    ∃ t rf, GoesOn svc s t ∧ Confirmed q (s.proc me).rf rf ∧
      t.proc me = { s.proc me with rf := rf } ∧ ∀ p ≠ me, p ≠ q → t.proc p = s.proc p := by
  obtain ⟨⟨g, hc⟩, hb⟩ := h.coupled
  have hbound : ∀ p, (s.proc me).rf.matchIndex p ≤ (s.proc me).rf.getLatestLog.index := by
    intro p
    rw [(hc.node me).log.latest.1]
    exact (hc.node me).matchIndex_le hc.inv hleads p
  obtain ⟨k, hk⟩ := (hc.compatible hleads hterm).confirms hkept ((hb.leading me hleads).next q)
    hbound hown
  exact ⟨_, _, goesOn_rounds svc s hq k, hk, s.setPair_me .., fun p hp hpq => s.setPair_other hp hpq ..⟩

/-- The rounds with several of them. -/
theorem goesOn_confirmed_all {peers : List (Fin n)} (hne : peers ≠ []) (hnodup : peers.Nodup)
    (hme : me ∉ peers) (h : Reached svc s) (hleads : (s.proc me).rf.state = .leader)
    (hown : (s.proc me).rf.isLogMatched (s.proc me).rf.getLatestLog.index
      (s.proc me).rf.currentTerm = true)
    (hpeers : ∀ q ∈ peers, (s.proc q).rf.currentTerm = (s.proc me).rf.currentTerm ∧
      (s.proc q).rf.getFirstLog.index ≤ (s.proc me).rf.getFirstLog.index) :
    ∃ t next matchIndex commit, GoesOn svc s t ∧
      t.proc me = { s.proc me with rf := { (s.proc me).rf with
        nextIndex := next, matchIndex := matchIndex, commitIndex := commit } } ∧
      (∀ q ∈ peers, matchIndex q = (s.proc me).rf.getLatestLog.index) ∧
      (∀ q ∉ peers, matchIndex q = (s.proc me).rf.matchIndex q) ∧
      (IsMajority {q | (s.proc me).rf.getLatestLog.index ≤ matchIndex q} →
        (s.proc me).rf.getLatestLog.index ≤ commit) := by
  induction peers generalizing s with
  | nil => contradiction
  | cons q peers ih =>
    obtain ⟨hqs, hnodup⟩ := List.nodup_cons.mp hnodup
    obtain ⟨hqme, hme⟩ := List.ne_and_not_mem_of_not_mem_cons hme
    obtain ⟨hterm, hkept⟩ := hpeers q List.mem_cons_self
    obtain ⟨u, rf, hgo, ⟨⟨next, commit, rfl⟩, hcommits⟩, hume, hothers⟩ :=
      goesOn_confirmed h (Ne.symm hqme) hleads hown hterm hkept
    rcases List.eq_nil_or_concat peers with rfl | ⟨init, last, hlast⟩
    · refine ⟨u, next, _, commit, hgo, hume, fun p hp => ?_, fun p hp => ?_, hcommits⟩
      · rw [List.mem_singleton.mp hp]
        exact Function.update_self _ _ _
      · exact Function.update_of_ne (fun h => hp (List.mem_singleton.mpr h)) _ _
    · have hkept : ∀ p ∈ peers, u.proc p = s.proc p := fun p hp =>
        hothers p (fun h => hme (h ▸ hp)) (fun h => hqs (h ▸ hp))
      obtain ⟨t, next', matchIndex, commit', hgo', htme, hdone, hold, hcommits'⟩ :=
        ih (by rw [hlast]; simp) hnodup hme (h.goesOn hgo) (by rw [hume]; exact hleads)
          (by rw [hume]; exact hown) (fun p hp => by
            rw [hkept p hp, hume]
            exact hpeers p (List.mem_cons_of_mem _ hp))
      rw [hume] at htme hdone hold hcommits'
      refine ⟨t, next', matchIndex, commit', hgo.trans hgo', htme, fun p hp => ?_, fun p hp => ?_,
        hcommits'⟩
      · rcases List.mem_cons.mp hp with rfl | hp
        · rw [hold p hqs]
          exact Function.update_self _ _ _
        · exact hdone p hp
      · obtain ⟨hpq, hp⟩ := List.ne_and_not_mem_of_not_mem_cons hp
        rw [hold p hp]
        exact Function.update_of_ne hpq _ _

/-! ## Delivery -/

theorem goesOn_deliver (svc : Service C D) {m : ApplyMsg C D} (hm : (s.proc me).sending = some m) :
    GoesOn svc s (s.set me { s.proc me with
      sending := none, applyCh := (s.proc me).applyCh ++ [m] } s.net) := by
  apply GoesOn.exec (e := .deliver me) trivial
  simp [Cluster.exec, hm]

theorem goesOn_applier (svc : Service C D) (hs : (s.proc me).sending = none) :
    GoesOn svc s (s.set me { s.proc me with
      rf := (s.proc me).rf.applier.1, sending := (s.proc me).rf.applier.2 } s.net) := by
  apply GoesOn.exec (e := .applier me) trivial
  simp [Cluster.exec, hs]

/-- The applier of `me` takes the lock once, and what it then sends goes through. -/
theorem goesOn_apply (svc : Service C D) (hs : (s.proc me).sending = none) {rf : Raft n C D}
    {m : ApplyMsg C D} (happlier : (s.proc me).rf.applier = (rf, some m)) :
    ∃ t, GoesOn svc s t ∧ t.proc me = { s.proc me with
      rf := rf, applyCh := (s.proc me).applyCh ++ [m] } := by
  have hgo := goesOn_applier svc hs
  rw [happlier] at hgo
  have hsending : ((s.set me { s.proc me with rf := rf, sending := some m } s.net).proc me).sending =
      some m := by simp [Cluster.set]
  have hgo' := goesOn_deliver svc hsending
  refine ⟨_, hgo.trans hgo', ?_⟩
  simp [Cluster.set, hs]

/-- What the applier is about to send and the snapshot that waits for it go out. -/
theorem goesOn_flush (svc : Service C D) (s : Cluster n C D) (me : Fin n) :
    ∃ t sent, GoesOn svc s t ∧ t.proc me = { s.proc me with
      rf := { (s.proc me).rf with pendingSnapshot := none }
      sending := none
      applyCh := (s.proc me).applyCh ++ sent } := by
  have hsent : ∃ u sent, GoesOn svc s u ∧ u.proc me = { s.proc me with
      sending := none, applyCh := (s.proc me).applyCh ++ sent } := by
    cases hs : (s.proc me).sending with
    | none =>
      refine ⟨s, [], .refl s, ?_⟩
      rw [List.append_nil, ← hs]
    | some m => exact ⟨_, [m], goesOn_deliver svc hs, by simp [Cluster.set]⟩
  obtain ⟨u, sent, hgo, hu⟩ := hsent
  cases hp : (s.proc me).rf.pendingSnapshot with
  | none =>
    refine ⟨u, sent, hgo, hu.trans ?_⟩
    rw [← hp]
  | some m =>
    have hidle : (u.proc me).sending = none := by rw [hu]
    obtain ⟨t, hgo', ht⟩ := goesOn_apply svc hidle (applier_snapshot (by rw [hu]; exact hp))
    refine ⟨t, sent ++ [m], hgo.trans hgo', ?_⟩
    rw [ht, hu, List.append_assoc]

/-- The applier goes on until the committed entry at index `i` is delivered. -/
theorem goesOn_delivered (h : Reached svc s) (hs : (s.proc me).sending = none)
    (hp : (s.proc me).rf.pendingSnapshot = none) {e : LogEntry C} (he : e ∈ (s.proc me).rf.logs)
    (happlied : (s.proc me).rf.lastApplied < e.index)
    (hcommit : e.index ≤ (s.proc me).rf.commitIndex) :
    ∃ t sent, GoesOn svc s t ∧ t.proc me = { s.proc me with
        rf := { (s.proc me).rf with lastApplied := e.index }
        applyCh := (s.proc me).applyCh ++ sent } ∧
      { commandValid := true, command := e.command, commandIndex := e.index } ∈ sent := by
  -- Induction on how many entries are left before it.
  induction hd : e.index - (s.proc me).rf.lastApplied using Nat.strongRecOn generalizing s with
  | _ d ih =>
    obtain ⟨⟨g, hc⟩, -⟩ := h.coupled
    obtain ⟨x, k, -, -, hx, happlier⟩ := (hc.node me).log.applier_next hp (by omega)
    obtain ⟨u, hgo, hu⟩ := goesOn_apply svc hs happlier
    rcases Nat.eq_or_lt_of_le (Nat.succ_le_of_lt happlied) with hlast | hbefore
    · have heq := (hc.shape me).unique (List.mem_of_getElem? hx) he hlast
      subst heq
      exact ⟨u, _, hgo, hu, List.mem_singleton.mpr rfl⟩
    · obtain ⟨t, sent, hgo', ht, hsent⟩ := ih (e.index - ((s.proc me).rf.lastApplied + 1)) (by omega)
        (h.goesOn hgo) (by rw [hu]; exact hs) (by rw [hu]; exact hp) (by rw [hu]; exact he)
        (by rw [hu]; exact hbefore) (by rw [hu]; exact hcommit) (by rw [hu])
      refine ⟨t, { commandValid := true, command := x.cmd
                   commandIndex := (s.proc me).rf.lastApplied + 1 } :: sent,
        hgo.trans hgo', ?_, List.mem_cons_of_mem _ hsent⟩
      rw [ht, hu, List.append_assoc]
      rfl

/-! ## From any state -/

/-- `Start` at a leader. -/
theorem goesOn_start (svc : Service C D) (hleads : (s.proc me).rf.state = .leader)
    (command : Option C) :
    ∃ t, GoesOn svc s t ∧ (∀ q ≠ me, t.proc q = s.proc q) ∧
      (t.proc me).rf.state = .leader ∧
      (t.proc me).rf.currentTerm = (s.proc me).rf.currentTerm ∧
      (t.proc me).rf.logs = (s.proc me).rf.logs ++
        [⟨command, (s.proc me).rf.currentTerm, (s.proc me).rf.getLatestLog.index + 1⟩] ∧
      (t.proc me).rf.lastApplied = (s.proc me).rf.lastApplied := by
  refine ⟨_, GoesOn.exec (e := .start me command) trivial rfl,
    fun q hq => Function.update_of_ne hq _ _, ?_⟩
  simp only [Cluster.set, Function.update_self, Raft.start, hleads, ne_eq, not_true_eq_false,
    if_false]
  exact ⟨rfl, rfl, rfl, rfl⟩

/-- A leader that has stored a command of its term last, with a majority in its term that has
compacted no further than itself, can commit and deliver it. -/
theorem goesOn_committed (h : Reached svc s) (hn : 1 < n) (hleads : (s.proc me).rf.state = .leader)
    {e : LogEntry C} (he : e ∈ (s.proc me).rf.logs)
    (hlast : e.index = (s.proc me).rf.getLatestLog.index)
    (hown : e.term = (s.proc me).rf.currentTerm)
    (happlied : (s.proc me).rf.lastApplied < e.index)
    (hterm : ∀ q, (s.proc q).rf.currentTerm = (s.proc me).rf.currentTerm)
    (hkept : IsMajority {q | (s.proc q).rf.getFirstLog.index ≤ (s.proc me).rf.getFirstLog.index}) :
    ∃ t, GoesOn svc s t ∧ (t.proc me).rf.state = .leader ∧
      (t.proc me).rf.currentTerm = (s.proc me).rf.currentTerm ∧ e ∈ (t.proc me).rf.logs ∧
      e.index ≤ (t.proc me).rf.commitIndex ∧
      { commandValid := true, command := e.command, commandIndex := e.index } ∈
        (t.proc me).applyCh := by
  obtain ⟨⟨g, hc⟩, hb⟩ := h.coupled
  have hmany := isMajority_fin.mp hkept
  -- The rounds are with the others of the majority.
  obtain ⟨peers, hpeers⟩ : ∃ peers, peers = (List.finRange n).filter fun q =>
      q ≠ me ∧ (s.proc q).rf.getFirstLog.index ≤ (s.proc me).rf.getFirstLog.index := ⟨_, rfl⟩
  have hmem : ∀ q, q ∈ peers ↔ q ≠ me ∧
      (s.proc q).rf.getFirstLog.index ≤ (s.proc me).rf.getFirstLog.index := by
    intro q
    simp [hpeers]
  have hne : peers ≠ [] := by
    have hcard : 1 < (Finset.univ.filter fun q =>
        (s.proc q).rf.getFirstLog.index ≤ (s.proc me).rf.getFirstLog.index).card := by omega
    obtain ⟨q, hq, hqme⟩ := Finset.exists_mem_ne hcard me
    apply List.ne_nil_of_mem
    exact (hmem q).mpr ⟨hqme, (Finset.mem_filter.mp hq).2⟩
  have hmatched : (s.proc me).rf.isLogMatched (s.proc me).rf.getLatestLog.index
      (s.proc me).rf.currentTerm = true :=
    (hc.shape me).isLogMatched_iff_mem.mpr ⟨e, he, hlast, hown⟩
  obtain ⟨t, next, matchIndex, commit, hgo, ht, hdone, hold, hcommits⟩ :=
    goesOn_confirmed_all hne (hpeers ▸ (List.nodup_finRange n).filter _)
      (fun hin => ((hmem me).mp hin).1 rfl) h hleads hmatched
      (fun q hq => ⟨hterm q, ((hmem q).mp hq).2⟩)
  have hcommit : e.index ≤ commit := by
    rw [hlast]
    apply hcommits
    refine hkept.mono fun q hq => Finset.mem_filter.mpr ⟨Finset.mem_univ q, ?_⟩
    by_cases hqme : q = me
    · have hself := (hb.leading me hleads).own
      rw [(hc.node me).self] at hself
      rw [hqme, hold me fun hin => ((hmem me).mp hin).1 rfl, hself]
    · exact (hdone q ((hmem q).mpr ⟨hqme, (Finset.mem_filter.mp hq).2⟩)).ge
  obtain ⟨u, sent, hgo', hu⟩ := goesOn_flush svc t me
  have hidle : (u.proc me).sending = none := by rw [hu]
  obtain ⟨v, sent', hgo'', hv, hsent⟩ := goesOn_delivered ((h.goesOn hgo).goesOn hgo')
    hidle (e := e) (by rw [hu]) (by rw [hu, ht]; exact he)
    (by rw [hu, ht]; exact happlied) (by rw [hu, ht]; exact hcommit)
  refine ⟨v, (hgo.trans hgo').trans hgo'', ?_⟩
  rw [hv, hu, ht]
  exact ⟨hleads, rfl, he, hcommit, List.mem_append_right _ hsent⟩

/-- Whatever has happened before, a cluster with an odd number of peers, more than one, can elect a
leader in a new term that commits a command given to it and delivers it to its service. -/
theorem command_can_be_committed {tr : List (Cluster n C D × Action n C D)} (hodd : Odd n)
    (hn : 1 < n) (h : Run svc tr s) (command : Option C) :
    ∃ tr' t me index, (system n svc).Run s tr' t ∧ (∀ x ∈ tr', x.1.Smooth x.2) ∧
      (t.proc me).rf.state = .leader ∧
      (∀ q, (s.proc q).rf.currentTerm < (t.proc me).rf.currentTerm) ∧
      ⟨command, (t.proc me).rf.currentTerm, index⟩ ∈ (t.proc me).rf.logs ∧
      index ≤ (t.proc me).rf.commitIndex ∧
      { commandValid := true, command := command, commandIndex := index } ∈
        (t.proc me).applyCh := by
  have hr : Reached svc s := ⟨tr, h⟩
  obtain ⟨me, hvoters, hkept⟩ := exists_above_both (fun q => (s.proc q).rf.logKey)
    (fun q => (s.proc q).rf.getFirstLog.index) (by rwa [Fintype.card_fin])
  obtain ⟨u, hgo, hu⟩ := goesOn_elected hr hn me hvoters
  obtain ⟨v, hgo', hothers, hleads, hterm, hlogs, happlied⟩ := goesOn_start svc hu.leads command
  have hru := hr.goesOn hgo
  have hrv := hru.goesOn hgo'
  obtain ⟨⟨gu, hcu⟩, -⟩ := hru.coupled
  have hlatest : (v.proc me).rf.getLatestLog.index = (u.proc me).rf.getLatestLog.index + 1 := by
    rw [Raft.getLatestLog, hlogs]
    simp
  have hfirst : ∀ q, (v.proc q).rf.getFirstLog.index = (s.proc q).rf.getFirstLog.index := by
    intro q
    have hu' : (u.proc q).rf.getFirstLog = (s.proc q).rf.getFirstLog := by
      rw [Raft.getFirstLog, hu.logs q]
      rfl
    by_cases hq : q = me
    · have hpos := (hcu.shape me).pos
      subst hq
      rw [← hu', Raft.getFirstLog, hlogs, Raft.getFirstLog]
      cases hcons : (u.proc q).rf.logs with
      | nil => simp [hcons] at hpos
      | cons x rest => rfl
    · rw [hothers q hq, hu']
  obtain ⟨t, hgo'', hleads', hterm', he, hcommit, hsent⟩ := goesOn_committed hrv hn hleads
    (e := ⟨command, (u.proc me).rf.currentTerm, (u.proc me).rf.getLatestLog.index + 1⟩)
    (by rw [hlogs]; simp) hlatest.symm hterm.symm
    (by
      have hn := hcu.node me
      have hle := hn.log.applied_le.trans hn.log.commit_le
      rw [happlied, hn.log.latest.1]
      exact Nat.lt_succ_of_le hle)
    (by
      intro q
      by_cases hq : q = me
      · rw [hq]
      · rw [hothers q hq, hterm, hu.term q])
    (by simpa only [hfirst] using hkept)
  obtain ⟨tr', hrun, hsmooth⟩ := (hgo.trans hgo').trans hgo''
  refine ⟨tr', t, me, _, hrun, hsmooth, hleads', fun q => ?_, ?_, hcommit, hsent⟩
  · rw [hterm', hterm]
    exact hu.newer q
  · rw [hterm', hterm]
    exact he

/-- Peer `a` is elected and takes a command that it never sends; it crashes, and so does peer `b`
inside its own election. -/
def failing (a b : Fin 3) : List (Action 3 Nat (List (Option Nat))) :=
  [.event (.electionTimeout a), .event (.handle 0), .event (.handle 0), .event (.start a (some 7)),
    .crash a, .event (.lose 0), .crashIn b (.electionTimeout b) 1]

theorem command_can_be_committed_failing :
    ((Cluster.initial 3 Nat (List (Option Nat))).after (failing 0 1)).net = [] ∧
    ∃ tr' t me index, (system 3 logService).Run
        ((Cluster.initial 3 Nat (List (Option Nat))).after (failing 0 1)) tr' t ∧
      (∀ x ∈ tr', x.1.Smooth x.2) ∧ (t.proc me).rf.state = .leader ∧
      (∀ q, (((Cluster.initial 3 Nat (List (Option Nat))).after (failing 0 1)).proc q).rf.currentTerm <
        (t.proc me).rf.currentTerm) ∧
      ⟨some 8, (t.proc me).rf.currentTerm, index⟩ ∈ (t.proc me).rf.logs ∧
      index ≤ (t.proc me).rf.commitIndex ∧
      { commandValid := true, command := some 8, commandIndex := index } ∈ (t.proc me).applyCh := by
  have hrun : Run logService _ ((Cluster.initial 3 Nat (List (Option Nat))).after (failing 0 1)) :=
    Cluster.run_of_enabled (by decide)
  exact ⟨by rfl, command_can_be_committed (by decide) (by decide) hrun (some 8)⟩

end DistSys.Raft1
