import DistSys.Raft1.Backup
import DistSys.Raft1.Representation

/- How large terms and indices get.

   Terms, indices and their sums are `int` in raft1/raft.go and natural numbers here. Only two
   functions make a number that was not there before: the election branch of `ticker` raises a
   term by one, and `Start` the last index. All others copy what they find in the peer or in a
   message, so after `N` steps nothing is above `N`, and `nextIndex` and `ConflictIndex`, which
   may be one beyond a log, not above `N + 1` (`numbers_within_steps`). In a run of fewer than `2 ^ 63 - 1`
   steps the source therefore computes the same numbers.

   The saves in the persisters are bounded as well, also those a crash may go back to, and so is
   the index behind the entries of an append, which `acceptNewLogEntries` adds up. -/
namespace DistSys.Raft1

open Raft

variable {n N : Nat} {C D : Type} {svc : Service C D} {s t : Cluster n C D}

/-! ## The numbers in the data -/

def LogEntry.Within (N : Nat) (e : LogEntry C) : Prop := e.term ≤ N ∧ e.index ≤ N

def ApplyMsg.Within (N : Nat) (m : ApplyMsg C D) : Prop :=
  m.commandIndex ≤ N ∧ m.snapshotTerm ≤ N ∧ m.snapshotIndex ≤ N

structure RaftState.Within (N : Nat) (st : RaftState n C) : Prop where
  term : st.currentTerm ≤ N
  entries : ∀ e ∈ st.logs, e.Within N
  includedIndex : st.lastIncludedIndex ≤ N
  includedTerm : st.lastIncludedTerm ≤ N

structure Raft.Within (N : Nat) (rf : Raft n C D) : Prop where
  saves : ∀ x ∈ rf.persister.saves, x.1.Within N
  state : rf.raftState.Within N
  commit : rf.commitIndex ≤ N
  applied : rf.lastApplied ≤ N
  matched : ∀ p, rf.matchIndex p ≤ N
  next : ∀ p, rf.nextIndex p ≤ N + 1
  pending : ∀ m ∈ rf.pendingSnapshot, m.Within N

structure Process.Within (N : Nat) (p : Process n C D) : Prop where
  rf : p.rf.Within N
  sending : ∀ m ∈ p.sending, m.Within N
  applyCh : ∀ m ∈ p.applyCh, m.Within N
  bootIndex : p.bootIndex ≤ N

def RequestVoteArgs.Within (N : Nat) (args : RequestVoteArgs n) : Prop :=
  args.term ≤ N ∧ args.lastLogIndex ≤ N ∧ args.lastLogTerm ≤ N

structure AppendEntryArgs.Within (N : Nat) (args : AppendEntryArgs n C) : Prop where
  term : args.term ≤ N
  prevLogTerm : args.prevLogTerm ≤ N
  entries : ∀ e ∈ args.entries, e.Within N
  last : args.prevLogIndex + args.entries.length ≤ N
  leaderCommit : args.leaderCommit ≤ N

def AppendEntryReply.Within (N : Nat) (reply : AppendEntryReply) : Prop :=
  reply.term ≤ N ∧ reply.conflictIndex ≤ N + 1 ∧ reply.conflictTerm ≤ N

def InstallSnapShotArgs.Within (N : Nat) (args : InstallSnapShotArgs n D) : Prop :=
  args.term ≤ N ∧ args.lastIncludedIndex ≤ N ∧ args.lastIncludedTerm ≤ N

def Payload.Within (N : Nat) : Payload n C D → Prop
  | .voteReq args => args.Within N
  | .voteRep args reply => args.Within N ∧ reply.term ≤ N
  | .appendReq args => args.Within N
  | .appendRep args reply => args.Within N ∧ reply.Within N
  | .snapReq args => args.Within N
  | .snapRep args reply => args.Within N ∧ reply.term ≤ N

structure Cluster.Within (N : Nat) (s : Cluster n C D) : Prop where
  proc : ∀ q, (s.proc q).Within N
  net : ∀ m ∈ s.net, m.payload.Within N

/-! ## The functions of a peer -/

theorem Raft.mem_appendNewEntries {first : Nat} {logs entries logs' : List (LogEntry C)}
    (h : appendNewEntries first logs entries = some logs') {e : LogEntry C} (he : e ∈ logs') :
    e ∈ logs ∨ e ∈ entries := by
  induction entries with
  | nil => cases h
  | cons entry rest ih =>
    unfold appendNewEntries at h
    split at h
    · obtain rfl := Option.some.inj h
      exact (List.mem_append.mp he).imp_left List.mem_of_mem_take
    · exact (ih h).imp_right (List.mem_cons_of_mem _)

namespace Raft.Within

variable {rf : Raft n C D}

theorem getD (h : rf.Within N) (k : Nat) : (rf.logs.getD k default).Within N := by
  by_cases hk : k < rf.logs.length
  · rw [List.getD_eq_getElem _ _ hk]
    exact h.state.entries _ (List.getElem_mem hk)
  · rw [List.getD_eq_default _ _ (not_lt.mp hk)]
    exact ⟨Nat.zero_le N, Nat.zero_le N⟩

theorem getFirstLog (h : rf.Within N) : rf.getFirstLog.Within N := by
  unfold Raft.getFirstLog
  cases hlogs : rf.logs with
  | nil => exact ⟨Nat.zero_le N, Nat.zero_le N⟩
  | cons e rest => exact h.state.entries e (by simp [raftState, hlogs])

theorem getLatestLog (h : rf.Within N) : rf.getLatestLog.Within N := by
  rcases List.eq_nil_or_concat rf.logs with hlogs | ⟨init, e, hlogs⟩
  · rw [Raft.getLatestLog, hlogs]
    exact ⟨Nat.zero_le N, Nat.zero_le N⟩
  · rw [List.concat_eq_append] at hlogs
    rw [Raft.getLatestLog, hlogs, List.getLastD_concat]
    exact h.state.entries e (by simp [raftState, hlogs])

theorem persist (h : rf.Within N) (data : Option D) : (rf.persist data).Within N := by
  cases data with
  | none => exact { h with saves := List.forall_mem_cons.mpr ⟨h.state, h.saves⟩ }
  | some data => exact { h with saves := List.forall_mem_cons.mpr ⟨h.state, h.saves⟩ }

theorem setTerm (h : rf.Within N) {T : Nat} (hT : T ≤ N) (voteFor : Option (Fin n))
    (state : ServerState) :
    ({ rf with currentTerm := T, voteFor := voteFor, state := state } : Raft n C D).Within N :=
  { h with state := { h.state with term := hT } }

theorem setLogs (h : rf.Within N) {logs : List (LogEntry C)} (hlogs : ∀ e ∈ logs, e.Within N) :
    ({ rf with logs := logs } : Raft n C D).Within N :=
  { h with state := { h.state with entries := hlogs } }

theorem setNext (h : rf.Within N) (peer : Fin n) {i : Nat} (hi : i ≤ N + 1) :
    (rf.setNext peer i).Within N := by
  refine { h with next := fun p => ?_ }
  show Function.update rf.nextIndex peer i p ≤ N + 1
  rw [Function.update_apply]
  split
  · exact hi
  · exact h.next p

theorem updateLogIndices (h : rf.Within N) (peer : Fin n) {i : Nat} (hi : i ≤ N) :
    (rf.updateLogIndices peer i).Within N :=
  { h.setNext peer (Nat.succ_le_succ hi) with
    matched := matchIndex_updateLogIndices_le h.matched peer hi }

theorem lead (h : rf.Within N) : (rf.changeState .leader).Within N := by
  unfold Raft.changeState
  split
  · exact h
  · have hlast := h.getLatestLog.2
    refine Raft.Within.updateLogIndices ?_ rf.me hlast
    exact { h with matched := fun _ => Nat.zero_le N, next := fun _ => Nat.succ_le_succ hlast }

theorem stepDown (h : rf.Within N) {T : Nat} (hT : T ≤ N) :
    (rf.updateTermAndStepDown T).Within N := by
  rcases Nat.lt_or_ge rf.currentTerm T with hlt | hge
  · rw [updateTermAndStepDown_of_lt hlt]
    exact (h.setTerm hT _ _).persist none
  · rw [updateTermAndStepDown_of_le hge]
    exact h

/-! ### Elections -/

theorem electionTimeout (h : rf.Within N) (hT : rf.currentTerm < N) :
    rf.electionTimeout.1.Within N ∧ rf.electionTimeout.2.Within N := by
  have hlast := h.getLatestLog
  have hraised := (h.setTerm hT rf.voteFor .candidate).persist none
  rw [electionTimeout_eq]
  exact ⟨(hraised.setTerm hT (some rf.me) .candidate).persist none, hT, hlast.2, hlast.1⟩

theorem requestVote (h : rf.Within N) {args : RequestVoteArgs n} (hargs : args.Within N) :
    (rf.requestVote args).1.Within N ∧ (rf.requestVote args).2.term ≤ N := by
  have hdown := h.stepDown hargs.1
  unfold Raft.requestVote
  split
  · exact ⟨h, h.state.term⟩
  · simp only
    split
    · exact ⟨hdown, hdown.state.term⟩
    · exact ⟨(hdown.setTerm hdown.state.term _ _).persist none, hdown.state.term⟩

theorem handleVoteReply (h : rf.Within N) (votes : Nat) (args : RequestVoteArgs n)
    {reply : RequestVoteReply} (hreply : reply.term ≤ N) :
    (rf.handleVoteReply votes args reply).1.Within N := by
  unfold Raft.handleVoteReply
  split
  · split
    · split
      · exact h.lead
      · exact h
    · split
      · exact h.stepDown hreply
      · exact h
  · exact h

/-! ### Appends -/

theorem storeEntries (h : rf.Within N) {entries : List (LogEntry C)}
    (hentries : ∀ e ∈ entries, e.Within N) : (rf.storeEntries entries).Within N := by
  unfold Raft.storeEntries
  split
  · rename_i logs hlogs
    refine (h.setLogs fun e he => ?_).persist none
    exact (mem_appendNewEntries hlogs he).elim (h.state.entries e) (hentries e)
  · exact h

theorem advanceCommit (h : rf.Within N) (leaderCommit : Nat) :
    (rf.advanceCommit leaderCommit).Within N := by
  unfold Raft.advanceCommit
  simp only
  split
  · exact { h with commit := (min_le_right _ _).trans h.getLatestLog.2 }
  · exact h

theorem conflictReply (h : rf.Within N) {prev : Nat} (hprev : prev ≤ N) :
    (rf.conflictReply prev).Within N := by
  have hterm := h.state.term
  have hfirst := h.getFirstLog.2
  have hlast := h.getLatestLog.2
  unfold Raft.conflictReply
  simp only
  split
  · exact ⟨hterm, Nat.succ_le_succ hlast, by show (-1 : Int) ≤ N; omega⟩
  · split
    · exact ⟨hterm, hfirst.trans (Nat.le_succ N), by show (-1 : Int) ≤ N; omega⟩
    · -- the search does not go beyond the index asked for
      have hsearch := (sortSearch_boundary (prev - rf.getFirstLog.index + 1) fun index =>
        index ≥ rf.logs.length || (rf.logs.getD index default).term ≥
          (rf.logs.getD (prev - rf.getFirstLog.index) default).term).upper
      refine ⟨hterm, ?_, Int.ofNat_le.mpr (h.getD _).1⟩
      show rf.getFirstLog.index + _ ≤ N + 1
      omega

theorem appendEntry (h : rf.Within N) {args : AppendEntryArgs n C} (hargs : args.Within N) :
    (rf.appendEntry args).1.Within N ∧ (rf.appendEntry args).2.Within N := by
  have hreject : ∀ {rf : Raft n C D}, rf.Within N → rf.rejectAppendEntry.Within N := fun h =>
    ⟨h.state.term, Nat.zero_le _, Int.natCast_nonneg N⟩
  by_cases hold : args.term < rf.currentTerm
  · unfold Raft.appendEntry
    rw [if_pos hold]
    exact ⟨h, hreject h⟩
  · have hdown := h.stepDown hargs.term
    have hfollows := hdown.setTerm hdown.state.term (rf.updateTermAndStepDown args.term).voteFor
      .follower
    rw [appendEntry_of_ge hold]
    unfold Raft.appendAsFollower
    split
    · exact ⟨hfollows, hfollows.state.term, hfollows.getFirstLog.2.trans (Nat.le_succ N),
        by show (-1 : Int) ≤ N; omega⟩
    · split
      · exact ⟨hfollows, hfollows.conflictReply ((Nat.le_add_right _ _).trans hargs.last)⟩
      · have hstored := (hfollows.storeEntries hargs.entries).advanceCommit args.leaderCommit
        exact ⟨hstored, hstored.state.term, Nat.zero_le _, Int.natCast_nonneg N⟩

theorem acceptNewLogEntries (h : rf.Within N) (peer : Fin n) {args : AppendEntryArgs n C}
    (hargs : args.Within N) : (rf.acceptNewLogEntries peer args).Within N := by
  have hup := h.updateLogIndices peer hargs.last
  obtain ⟨v, hv, heq⟩ := acceptNewLogEntries_selects rf peer args
  rw [heq]
  refine { hup with commit := ?_ }
  show ite _ _ _ ≤ N
  split
  · exact selected_le hv hup.matched
  · exact h.commit

theorem handleAppendReply (h : rf.Within N) (peer : Fin n) {args : AppendEntryArgs n C}
    (hargs : args.Within N) {reply : AppendEntryReply} (hreply : reply.Within N) :
    (rf.handleAppendReply peer args reply).Within N := by
  unfold Raft.handleAppendReply
  split
  · exact h
  · split
    · split
      · exact h.stepDown hreply.1
      · obtain ⟨next, heq⟩ := rollBack_bounded rf peer args reply
        rw [heq]
        exact h.setNext peer ((min_le_right _ _).trans (Nat.succ_le_succ h.getLatestLog.2))
    · exact h.acceptNewLogEntries peer hargs

theorem start (h : rf.Within N) (hlast : rf.getLatestLog.index < N) (command : Option C) :
    (rf.start command).1.Within N := by
  unfold Raft.start
  split
  · exact h
  · refine Raft.Within.updateLogIndices ?_ rf.me hlast
    refine (h.setLogs fun e he => ?_).persist none
    rcases List.mem_append.mp he with he | he
    · exact h.state.entries e he
    · rw [List.mem_singleton.mp he]
      exact ⟨h.state.term, hlast⟩

/-! ### Snapshots -/

theorem installedLogs (h : rf.Within N) {index term : Nat} (hindex : index ≤ N) (hterm : term ≤ N) :
    ∀ e ∈ rf.installedLogs index term, e.Within N := by
  have hsingle : ∀ e ∈ (generateSingleLog index term : List (LogEntry C)), e.Within N := fun e he => by
    rw [List.mem_singleton.mp he]
    exact ⟨hterm, hindex⟩
  unfold Raft.installedLogs
  simp only
  split
  · exact hsingle
  · split
    · split
      · exact hsingle
      · split
        · intro e he
          rcases List.mem_append.mp he with he | he
          · exact hsingle e he
          · exact h.state.entries e (List.mem_of_mem_drop he)
        · exact hsingle
    · exact h.state.entries

theorem replaceBySnapShot (h : rf.Within N) {args : InstallSnapShotArgs n D} (hargs : args.Within N) :
    (rf.replaceBySnapShot args).Within N := by
  obtain ⟨-, hindex, hterm⟩ := hargs
  have hreplaced : ({ rf with
      lastIncludedIndex := args.lastIncludedIndex
      lastIncludedTerm := args.lastIncludedTerm
      logs := rf.installedLogs args.lastIncludedIndex args.lastIncludedTerm
      commitIndex := max rf.commitIndex args.lastIncludedIndex
      lastApplied := max rf.lastApplied args.lastIncludedIndex } : Raft n C D).Within N :=
    { h with
      state := ⟨h.state.term, h.installedLogs hindex hterm, hindex, hterm⟩
      commit := max_le h.commit hindex
      applied := max_le h.applied hindex }
  refine { hreplaced.persist args.data with pending := fun m hm => ?_ }
  obtain rfl := Option.mem_some_iff.mp hm
  exact ⟨Nat.zero_le N, hterm, hindex⟩

theorem installSnapShot (h : rf.Within N) {args : InstallSnapShotArgs n D} (hargs : args.Within N) :
    (rf.installSnapShot args).1.Within N ∧ (rf.installSnapShot args).2.term ≤ N := by
  have hfollows : (rf.followSnapShot args.term).Within N := by
    rcases Nat.lt_or_ge rf.currentTerm args.term with hlt | hge
    · rw [followSnapShot_of_lt hlt]
      exact h.setTerm hargs.1 _ _
    · rw [followSnapShot_of_le hge]
      exact h.setTerm h.state.term _ _
  unfold Raft.installSnapShot
  simp only
  split
  · exact ⟨h, h.state.term⟩
  · split
    · exact ⟨hfollows, h.state.term⟩
    · exact ⟨hfollows.replaceBySnapShot hargs, h.state.term⟩

theorem handleSnapShotReply (h : rf.Within N) (peer : Fin n) {args : InstallSnapShotArgs n D}
    (hargs : args.Within N) {reply : InstallSnapShotReply} (hreply : reply.term ≤ N) :
    (rf.handleSnapShotReply peer args reply).Within N := by
  unfold Raft.handleSnapShotReply
  split
  · split
    · exact h.stepDown hreply
    · exact h.updateLogIndices peer hargs.2.1
  · exact h

theorem snapshot (h : rf.Within N) (index : Nat) (data : D) : (rf.snapshot index data).Within N := by
  unfold Raft.snapshot
  simp only
  split
  · exact h
  · have hentry := h.getD (index - rf.getFirstLog.index)
    have hdrop := h.setLogs fun e (he : e ∈ rf.logs.drop (index - rf.getFirstLog.index)) =>
      h.state.entries e (List.mem_of_mem_drop he)
    have hhead := hdrop.getFirstLog
    apply Raft.Within.persist
    refine { h with state := ⟨h.state.term, ?_, hentry.2, hentry.1⟩ }
    refine List.forall_mem_cons.mpr ⟨⟨hhead.1, hhead.2⟩, fun e he => ?_⟩
    exact hdrop.state.entries e (List.mem_of_mem_tail he)

theorem applier (h : rf.Within N) :
    rf.applier.1.Within N ∧ ∀ m ∈ rf.applier.2, m.Within N := by
  have hto : ∀ {i : Nat}, i ≤ N → ({ rf with lastApplied := i } : Raft n C D).Within N := fun hi =>
    { h with applied := hi }
  have hnone : ∀ m ∈ (none : Option (ApplyMsg C D)), m.Within N := fun _ hm => by cases hm
  unfold Raft.applier
  split
  · rename_i msg hmsg
    exact ⟨{ h with pending := hnone }, fun m hm => h.pending m (hmsg ▸ hm)⟩
  · split
    · exact ⟨h, hnone⟩
    · simp only
      split
      · exact ⟨hto h.getFirstLog.2, hnone⟩
      · split
        · exact ⟨h, hnone⟩
        · rename_i hcommit
          split
          · exact ⟨hto h.getFirstLog.2, hnone⟩
          · refine ⟨hto ((not_lt.mp hcommit).trans h.commit), fun m hm => ?_⟩
            obtain rfl := Option.mem_some_iff.mp hm
            exact ⟨(h.getD _).2, Nat.zero_le N, Nat.zero_le N⟩

end Raft.Within

/-! ## The cluster -/

theorem Process.Within.withRf {p : Process n C D} (h : p.Within N) {rf : Raft n C D}
    (hrf : rf.Within N) (votes : Nat) :
    ({ p with rf := rf, grantedVotes := votes } : Process n C D).Within N :=
  { h with rf := hrf }

/-- A new incarnation starts from a save, or from nothing. -/
theorem within_boot {persister : Persister n C D} (h : ∀ x ∈ persister.saves, x.1.Within N)
    (me : Fin n) (incarnation : Nat) : (Process.boot me incarnation persister).Within N := by
  have hzero : (Raft.make me persister).Within N := by
    unfold Raft.make Raft.readPersist Persister.readRaftState
    cases hsaves : persister.saves with
    | nil =>
      refine ⟨h, ⟨Nat.zero_le N, fun e he => ?_, Nat.zero_le N, Nat.zero_le N⟩, Nat.zero_le N,
        Nat.zero_le N, fun _ => Nat.zero_le N, fun _ => Nat.le_add_left 1 N, fun _ hm => by cases hm⟩
      rw [List.mem_singleton.mp he]
      exact ⟨Nat.zero_le N, Nat.zero_le N⟩
    | cons x saves =>
      have hx := h x (hsaves ▸ List.mem_cons_self)
      have hfirst : (x.1.logs.headD default).index ≤ N := by
        cases hlogs : x.1.logs with
        | nil => exact Nat.zero_le N
        | cons e rest => exact (hx.entries e (by simp [hlogs])).2
      exact ⟨h, ⟨hx.term, hx.entries, hx.includedIndex, hx.includedTerm⟩, hfirst, hfirst,
        fun _ => Nat.zero_le N, fun _ => Nat.le_add_left 1 N, fun _ hm => by cases hm⟩
  exact ⟨hzero, fun _ hm => (by cases hm), fun _ hm => absurd hm List.not_mem_nil, hzero.getFirstLog.2⟩

/-- An append ends with the last entry of the leader. -/
theorem Coupled.sends_within {g : Ghost n C D} (hc : Coupled svc s g) (hb : Bounded s)
    {me peer : Fin n} (h : (s.proc me).rf.Within N) {args : AppendEntryArgs n C}
    (hsend : (s.proc me).rf.doSendAppendEntry peer = some (.append args)) : args.Within N := by
  obtain ⟨hfirst, hlast, rfl⟩ := hb.prev_range hsend
  obtain ⟨hterm, hprev, hprevTerm, hlen⟩ :=
    (hc.shape me).genAppendEntryArgs (Nat.le_sub_one_of_lt hfirst) (Nat.sub_le_of_le_add hlast)
  refine ⟨hterm ▸ h.state.term, ?_, fun e he => ?_, ?_, h.commit⟩
  · rw [hprevTerm]
    exact (h.getD _).1
  · exact h.state.entries e (List.mem_of_mem_drop he)
  · rw [hprev, hlen]
    exact h.getLatestLog.2

theorem Cluster.Within.answers (h : s.Within N) {m : Rpc n C D} (hm : m ∈ s.net) {rf : Raft n C D}
    {reply : Payload n C D} (hanswer : Answers (s.proc m.server).rf m.payload rf reply) :
    rf.Within N ∧ reply.Within N := by
  have hrf := (h.proc m.server).rf
  have hpayload := h.net m hm
  generalize m.payload = payload at hanswer hpayload
  cases hanswer with
  | vote args => exact ⟨(hrf.requestVote hpayload).1, hpayload, (hrf.requestVote hpayload).2⟩
  | append args => exact ⟨(hrf.appendEntry hpayload).1, hpayload, (hrf.appendEntry hpayload).2⟩
  | snapshot args =>
    exact ⟨(hrf.installSnapShot hpayload).1, hpayload, (hrf.installSnapShot hpayload).2⟩

theorem Cluster.Within.receives (h : s.Within N) {m : Rpc n C D} (hm : m ∈ s.net)
    {p : Process n C D} (hreceive : Receives m.server (s.proc m.caller) m.payload p) :
    p.Within N := by
  have hproc := h.proc m.caller
  have hpayload := h.net m hm
  generalize m.payload = payload at hreceive hpayload
  cases hreceive with
  | vote args reply => exact hproc.withRf (hproc.rf.handleVoteReply _ args hpayload.2) _
  | append args reply => exact hproc.withRf (hproc.rf.handleAppendReply m.server hpayload.1 hpayload.2) _
  | snapshot args reply =>
    exact hproc.withRf (hproc.rf.handleSnapShotReply m.server hpayload.1 hpayload.2) _

theorem Coupled.keeps_within {g : Ghost n C D} (hc : Coupled svc s g) (hb : Bounded s)
    (h : s.Within N) (hterm : ∀ q, (s.proc q).rf.currentTerm < N)
    (hlast : ∀ q, (s.proc q).rf.getLatestLog.index < N) (a : Action n C D) :
    Keeps s a (fun _ p => p.Within N) (fun m => m.payload.Within N) where
  electionTimeout me := by
    obtain ⟨hrf, hargs⟩ := (h.proc me).rf.electionTimeout (hterm me)
    exact ⟨(h.proc me).withRf hrf 1, fun _ => hargs⟩
  start me command := (h.proc me).withRf ((h.proc me).rf.start (hlast me) command) _
  sendAppend me _ _ _ _ hsend := hc.sends_within hb (h.proc me).rf hsend
  sendSnapshot me _ _ _ _ hsend := by
    obtain ⟨-, -, rfl⟩ := doSendAppendEntry_snapshot hsend
    have hrf := (h.proc me).rf
    exact ⟨hrf.state.term, hrf.getFirstLog.2, hrf.getFirstLog.1⟩
  request m hm rf reply hanswer := by
    obtain ⟨hrf, hreply⟩ := h.answers hm hanswer
    exact ⟨(h.proc m.server).withRf hrf _, hreply⟩
  reply m hm _ p hreceive := h.receives hm hreceive
  snapshot me index data := (h.proc me).withRf ((h.proc me).rf.snapshot index data) _
  applier me := by
    obtain ⟨hrf, hsending⟩ := (h.proc me).rf.applier
    exact { h.proc me with rf := hrf, sending := hsending }
  deliver me msg hsending := by
    refine { h.proc me with sending := fun _ hm => (by cases hm), applyCh := fun m hm => ?_ }
    rcases List.mem_append.mp hm with hm | hm
    · exact (h.proc me).applyCh m hm
    · rw [List.mem_singleton.mp hm]
      exact (h.proc me).sending msg hsending
  boot me p hp persister hsuffix := within_boot (fun x hx => hp.rf.saves x (hsuffix.subset hx)) me _

/-- After `tr.length` steps no term and no index is above `tr.length`: not in a peer, in its
persister, in what its service has been sent, or in a message. -/
theorem numbers_within_steps {tr : List (Cluster n C D × Action n C D)} (h : Run svc tr s) :
    s.Within tr.length := by
  -- The bounds above the length come along, so that the step need not raise them.
  suffices hall : ∀ N, tr.length ≤ N → s.Within N from hall _ le_rfl
  induction h with
  | nil => exact fun N _ => ⟨fun q => within_boot (fun _ hx => absurd hx List.not_mem_nil) q 0,
      fun _ hm => absurd hm List.not_mem_nil⟩
  | @snoc tr u w a hrun hstep ih =>
    intro N hN
    rw [List.length_append] at hN
    have hlt : tr.length < N := hN
    obtain ⟨⟨g, hc⟩, hb, -⟩ := Run.bounded hrun u (List.mem_append_right _ (List.mem_singleton_self u))
    have hlow := fun q => ((ih _ le_rfl).proc q).rf
    have hu := ih N hlt.le
    have hkeeps := hc.keeps_within hb hu (fun q => (hlow q).state.term.trans_lt hlt)
      (fun q => (hlow q).getLatestLog.2.trans_lt hlt) a
    obtain ⟨hproc, hnet⟩ := hkeeps.step hu.proc hu.net hstep.2
    exact ⟨hproc, hnet⟩

/-- A peer that times out twice is in term 2. -/
theorem numbers_within_steps_twice :
    ((sampleAt [.event (.electionTimeout 0), .event (.electionTimeout 0)]).proc 0).rf.currentTerm = 2 ∧
      (sampleAt [.event (.electionTimeout 0), .event (.electionTimeout 0)]).Within 2 := by
  have hrun := sample_run [.event (.electionTimeout 0), .event (.electionTimeout 0)] (by decide)
  exact ⟨by decide, numbers_within_steps hrun⟩

end DistSys.Raft1
