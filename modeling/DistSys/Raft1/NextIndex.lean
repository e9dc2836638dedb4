import DistSys.Raft1.Shape
import DistSys.Raft1.Simulation

/- No snapshot of nothing is sent.

   `makeInstallSnapShotArgs` takes what the persister holds, and a log that was never compacted has
   no snapshot. A leader sends one only to a peer whose `nextIndex` is not beyond the first index, so
   what is to be shown is that `nextIndex` is never 0. It is moved back to the `conflictIndex` of a
   reply, and a peer that rejects an append has found an entry of its own that differs: the search
   for the first entry of a term does not stop at the dummy entry, whose term is 0
   (`conflictReply_pos`). -/
namespace DistSys.Raft1

open Lib

variable {n : Nat} {C D : Type} {svc : Service C D} {s t : Cluster n C D} {g : Ghost n C D}

/-! ## The reply to an append -/

theorem sortSearch_pos {f : Nat → Bool} {size : Nat} (hsize : 0 < size) (hf : f 0 = false) :
    0 < Raft.sortSearch size f := by
  by_contra hzero
  have hholds := (sortSearch_boundary size f).holds (by omega)
  rw [Nat.eq_zero_of_not_pos hzero, hf] at hholds
  contradiction

/-- The terms of leaders' entries are positive. -/
theorem termAt_pos {c : Repl (Fin n) (Option C)} (hi : c.Inv) {ℓ : List (Entry (Option C))}
    (hℓ : c.Sourced ℓ) {i : Nat} (h₁ : 1 ≤ i) (h₂ : i ≤ ℓ.length) : 0 < termAt ℓ i := by
  obtain ⟨⟨k, e⟩, hk⟩ := Option.ne_none_iff_exists'.mp (hℓ i h₁ h₂).1
  obtain ⟨K, -, hK, -⟩ := hi.led_camp hk
  exact (hi.camp_term hK).1

theorem conflictReply_pos {rf : Raft n C D} {ℓ : List (Entry (Option C))} (hs : Shows ℓ rf)
    (hpos : ∀ i, 1 ≤ i → i ≤ ℓ.length → 0 < termAt ℓ i) {prev term : Nat}
    (hprev : prev = 0 → term = 0) (hfirst : rf.getFirstLog.index ≤ prev)
    (hmatch : rf.isLogMatched prev term = false) : 1 ≤ (rf.conflictReply prev).conflictIndex := by
  unfold Raft.conflictReply
  simp only [hs.first, hs.latest.1] at hfirst ⊢
  split
  · exact Nat.le_add_left 1 _
  · rename_i hlen
    have hle : prev ≤ ℓ.length := by omega
    have hvalid : rf.isValidLogIndex prev = true := by
      simp only [Raft.isValidLogIndex, hs.first, hs.length, Bool.and_eq_true, decide_eq_true_eq]
      omega
    rw [hvalid]
    simp only [Bool.not_true, Bool.false_eq_true, if_false]
    rcases Nat.eq_zero_or_pos rf.lastIncludedIndex with hzero | hcompact
    · -- the dummy entry has term 0 and the entry looked for a positive one
      have hone : 1 ≤ prev := by
        by_contra hnot
        obtain rfl : prev = 0 := by omega
        have hmatched : rf.isLogMatched 0 term = true :=
          hs.isLogMatched.mpr ⟨by omega, hle, by rw [hprev rfl, termAt_zero]⟩
        rw [hmatched] at hmatch
        contradiction
      have hterm := (hs.getD hfirst hle).1
      have hdummy := (hs.getD (le_refl _) hs.first_len).1
      rw [Nat.sub_self, hzero, termAt_zero] at hdummy
      refine Nat.le_trans ?_ (Nat.le_add_left _ _)
      refine sortSearch_pos (Nat.succ_pos _) ?_
      have hlogs := hs.length
      have hterms := hpos prev hone hle
      rw [Bool.or_eq_false_iff, decide_eq_false_iff_not, decide_eq_false_iff_not, hterm, hdummy]
      omega
    · exact hcompact.trans_le (Nat.le_add_right _ _)

theorem Shows.stepDown {rf : Raft n C D} {ℓ : List (Entry (Option C))} (h : Shows ℓ rf) (T : Nat) :
    Shows ℓ { rf.updateTermAndStepDown T with state := .follower } := by
  rcases Nat.lt_or_ge rf.currentTerm T with hlt | hge
  · rw [updateTermAndStepDown_of_lt hlt]
    exact ⟨h.logs, h.term, h.first_len⟩
  · rw [updateTermAndStepDown_of_le hge]
    exact ⟨h.logs, h.term, h.first_len⟩

/-- An append is rejected for a higher term, or with an index to go back to. -/
theorem appendEntry_reply_pos {rf : Raft n C D} {ℓ : List (Entry (Option C))} (hs : Shows ℓ rf)
    (hpos : ∀ i, 1 ≤ i → i ≤ ℓ.length → 0 < termAt ℓ i) {args : AppendEntryArgs n C}
    (hprev : args.prevLogIndex = 0 → args.prevLogTerm = 0)
    (hfail : (rf.appendEntry args).2.success = false)
    (hterm : (rf.appendEntry args).2.term ≤ args.term) :
    1 ≤ (rf.appendEntry args).2.conflictIndex := by
  by_cases hold : args.term < rf.currentTerm
  · have hreject : rf.appendEntry args = (rf, rf.rejectAppendEntry) := if_pos hold
    rw [hreject] at hterm
    have hle : rf.currentTerm ≤ args.term := hterm
    omega
  · rw [appendEntry_of_ge hold] at hfail ⊢
    unfold Raft.appendAsFollower at hfail ⊢
    split
    · rename_i hfirst
      exact Nat.one_le_of_lt hfirst
    · rename_i hfirst
      split
      · rename_i hmatch
        exact conflictReply_pos (hs.stepDown args.term) hpos hprev (not_lt.mp hfirst)
          (by simpa using hmatch)
      · rename_i hmatch
        rw [if_neg hfirst, if_neg hmatch] at hfail
        contradiction

/-! ## `nextIndex` -/

def Raft.NextPos (rf : Raft n C D) : Prop := ∀ q, 1 ≤ rf.nextIndex q

section Handlers

variable {rf : Raft n C D}

theorem Raft.NextPos.same {rf' : Raft n C D} (h : rf.NextPos) (heq : rf'.nextIndex = rf.nextIndex) :
    rf'.NextPos := by
  intro q
  rw [heq]
  exact h q

theorem Raft.NextPos.updateLogIndices (h : rf.NextPos) (peer : Fin n) (i : Nat) :
    (rf.updateLogIndices peer i).NextPos := by
  intro q
  by_cases hq : q = peer
  · subst hq
    simp [Raft.updateLogIndices]
  · simpa [Raft.updateLogIndices, hq] using h q

theorem nextIndex_stepDown (rf : Raft n C D) (T : Nat) :
    (rf.updateTermAndStepDown T).nextIndex = rf.nextIndex := by
  rcases Nat.lt_or_ge rf.currentTerm T with h | h
  · rw [updateTermAndStepDown_of_lt h]
    rfl
  · rw [updateTermAndStepDown_of_le h]

theorem nextIndex_requestVote (rf : Raft n C D) (args : RequestVoteArgs n) :
    (rf.requestVote args).1.nextIndex = rf.nextIndex := by
  unfold Raft.requestVote
  split
  · rfl
  · simp only
    split
    · exact nextIndex_stepDown rf args.term
    · exact nextIndex_stepDown rf args.term

theorem nextIndex_appendEntry (rf : Raft n C D) (args : AppendEntryArgs n C) :
    (rf.appendEntry args).1.nextIndex = rf.nextIndex := by
  have hadv : ∀ (rf : Raft n C D) (i : Nat), (rf.advanceCommit i).nextIndex = rf.nextIndex := by
    intro rf i
    unfold Raft.advanceCommit
    simp only
    split <;> rfl
  have hstore : ∀ (rf : Raft n C D) (es : List (LogEntry C)),
      (rf.storeEntries es).nextIndex = rf.nextIndex := by
    intro rf es
    unfold Raft.storeEntries
    split <;> rfl
  by_cases hcond : args.term < rf.currentTerm
  · unfold Raft.appendEntry
    rw [if_pos hcond]
  · rw [appendEntry_of_ge hcond]
    unfold Raft.appendAsFollower
    split
    · exact nextIndex_stepDown rf args.term
    · split
      · exact nextIndex_stepDown rf args.term
      · exact ((hadv _ _).trans (hstore _ _)).trans (nextIndex_stepDown rf args.term)

theorem nextIndex_installSnapShot (rf : Raft n C D) (args : InstallSnapShotArgs n D) :
    (rf.installSnapShot args).1.nextIndex = rf.nextIndex := by
  have hfollow : (rf.followSnapShot args.term).nextIndex = rf.nextIndex := by
    rcases Nat.lt_or_ge rf.currentTerm args.term with h | h
    · rw [followSnapShot_of_lt h]
    · rw [followSnapShot_of_le h]
  have hreplace : ∀ rf : Raft n C D, (rf.replaceBySnapShot args).nextIndex = rf.nextIndex := by
    intro rf
    unfold Raft.replaceBySnapShot Raft.persist
    cases args.data <;> rfl
  unfold Raft.installSnapShot
  simp only
  split
  · rfl
  · split
    · exact hfollow
    · exact (hreplace _).trans hfollow

theorem Raft.NextPos.handleVoteReply (h : rf.NextPos) (votes : Nat) (args : RequestVoteArgs n)
    (reply : RequestVoteReply) : (rf.handleVoteReply votes args reply).1.NextPos := by
  unfold Raft.handleVoteReply
  split
  · split
    · split
      · -- a new leader starts behind its last entry
        unfold Raft.changeState
        split
        · exact h
        · exact Raft.NextPos.updateLogIndices (fun q => Nat.le_add_left 1 _) _ _
      · exact h
    · split
      · exact h.same (nextIndex_stepDown rf reply.term)
      · exact h
  · exact h

theorem Raft.NextPos.handleAppendReply (h : rf.NextPos) (peer : Fin n) (args : AppendEntryArgs n C)
    {reply : AppendEntryReply}
    (hreply : reply.success = false → reply.term ≤ args.term → 1 ≤ reply.conflictIndex) :
    (rf.handleAppendReply peer args reply).NextPos := by
  unfold Raft.handleAppendReply
  split
  · exact h
  · rename_i hvalid
    obtain ⟨-, ht⟩ : rf.state = .leader ∧ rf.currentTerm = args.term := by
      simpa [Raft.isValidLeader] using hvalid
    split
    · rename_i hfail
      split
      · exact h.same (nextIndex_stepDown rf reply.term)
      · rename_i hterm
        have hconflict := hreply (by simpa using hfail) (by omega)
        intro q
        by_cases hq : q = peer
        · subst hq
          simp only [Raft.rollBackToConflictTerm, Function.update_self]
          repeat' split
          all_goals omega
        · simpa [Raft.rollBackToConflictTerm, hq] using h q
    · have hup := h.updateLogIndices peer (args.prevLogIndex + args.entries.length)
      obtain ⟨i, -, heq⟩ := acceptNewLogEntries_eq rf peer args
      rw [heq]
      exact hup.same rfl

theorem Raft.NextPos.handleSnapShotReply (h : rf.NextPos) (peer : Fin n)
    (args : InstallSnapShotArgs n D) (reply : InstallSnapShotReply) :
    (rf.handleSnapShotReply peer args reply).NextPos := by
  unfold Raft.handleSnapShotReply
  split
  · split
    · exact h.same (nextIndex_stepDown rf reply.term)
    · exact h.updateLogIndices peer args.lastIncludedIndex
  · exact h

theorem Raft.NextPos.start (h : rf.NextPos) (command : Option C) : (rf.start command).1.NextPos := by
  unfold Raft.start
  split
  · exact h
  · exact Raft.NextPos.updateLogIndices (h.same rfl) _ _

theorem nextIndex_snapshot (rf : Raft n C D) (index : Nat) (data : D) :
    (rf.snapshot index data).nextIndex = rf.nextIndex := by
  unfold Raft.snapshot
  simp only
  split <;> rfl

theorem nextIndex_applier (rf : Raft n C D) : rf.applier.1.nextIndex = rf.nextIndex := by
  unfold Raft.applier
  split
  · rfl
  · simp only
    repeat (split <;> try rfl)

theorem Raft.NextPos.make (me : Fin n) (ps : Persister n C D) : (Raft.make me ps).NextPos := by
  intro q
  unfold Raft.make Raft.readPersist
  split <;> exact le_rfl

/-- A snapshot is sent to a peer whose `nextIndex` is not beyond the first index. -/
theorem Raft.NextPos.sends (h : rf.NextPos) {peer : Fin n} {args : InstallSnapShotArgs n D}
    (hsend : rf.doSendAppendEntry peer = some (.snapshot args)) : 1 ≤ args.lastIncludedIndex := by
  obtain ⟨-, hnext, rfl⟩ := doSendAppendEntry_snapshot hsend
  exact (h peer).trans hnext

end Handlers

/-! ## The cluster -/

/-- A snapshot under way is of something, and a reply names an index to go back to. -/
def Rpc.Positive (m : Rpc n C D) : Prop :=
  match m.payload with
  | .appendRep args reply =>
    reply.success = false → reply.term ≤ args.term → 1 ≤ reply.conflictIndex
  | .snapReq args => 1 ≤ args.lastIncludedIndex
  | .snapRep args _ => 1 ≤ args.lastIncludedIndex
  | _ => True

structure Ahead (s : Cluster n C D) : Prop where
  next : ∀ q, (s.proc q).rf.NextPos
  net : ∀ m ∈ s.net, m.Positive

/-- The reply to a request keeps the promise, and the peer its `nextIndex`. -/
theorem Coupled.answers_ahead (hc : Coupled svc s g) (h : Ahead s) {m : Rpc n C D} (hm : m ∈ s.net)
    {rf' : Raft n C D} {reply : Payload n C D}
    (hanswer : Answers (s.proc m.server).rf m.payload rf' reply) :
    rf'.NextPos ∧ Rpc.Positive { m with payload := reply } := by
  have hnext := h.next m.server
  have hpositive := h.net m hm
  have hok := hc.net m hm
  unfold Rpc.Positive at hpositive
  unfold RpcOk at hok
  generalize m.payload = payload at hanswer hpositive hok
  cases hanswer with
  | vote args => exact ⟨hnext.same (nextIndex_requestVote _ args), trivial⟩
  | append args =>
    obtain ⟨P, -, -, -, hprev, -⟩ := hok
    refine ⟨hnext.same (nextIndex_appendEntry _ args), ?_⟩
    refine appendEntry_reply_pos (hc.node m.server).log.shows
      (fun i => termAt_pos hc.inv (hc.inv.log_src m.server)) fun hzero => ?_
    rw [hprev, hzero, termAt_zero]
  | snapshot args => exact ⟨hnext.same (nextIndex_installSnapShot _ args), hpositive⟩

theorem Coupled.keeps_ahead (hc : Coupled svc s g) (h : Ahead s) (a : Action n C D) :
    Keeps s a (fun _ p => p.rf.NextPos) Rpc.Positive where
  electionTimeout := fun me => by
    refine ⟨?_, fun _ => trivial⟩
    rw [electionTimeout_eq]
    exact (h.next me).same rfl
  start := fun me command => (h.next me).start command
  sendAppend := fun _ _ _ _ _ _ => trivial
  sendSnapshot := fun me _ _ _ _ hsend => (h.next me).sends hsend
  request := fun _ hm _ _ hanswer => hc.answers_ahead h hm hanswer
  reply := fun m hm _ p hreceive => by
    have hnext := h.next m.caller
    have hpositive := h.net m hm
    unfold Rpc.Positive at hpositive
    generalize m.payload = payload at hreceive hpositive
    cases hreceive with
    | vote args reply => exact hnext.handleVoteReply _ args reply
    | append args reply => exact hnext.handleAppendReply m.server args hpositive
    | snapshot args reply => exact hnext.handleSnapShotReply m.server args reply
  snapshot := fun me index data => (h.next me).same (nextIndex_snapshot _ index data)
  applier := fun me => (h.next me).same (nextIndex_applier _)
  deliver := fun me _ _ => h.next me
  boot := fun me _ _ persister _ => Raft.NextPos.make me persister

theorem ahead_step (h : Ahead s) (hc : Coupled svc s g) {a : Action n C D}
    (ht : s.step a = some t) : Ahead t := by
  obtain ⟨hnext, hnet⟩ := (hc.keeps_ahead h a).step h.next h.net ht
  exact ⟨hnext, hnet⟩

theorem ahead_initial : Ahead (Cluster.initial n C D) :=
  ⟨fun q => Raft.NextPos.make q makePersister, fun m hm => by simp [Cluster.initial] at hm⟩

end DistSys.Raft1
