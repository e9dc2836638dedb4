import DistSys.Raft1.Plain

/- One log seen twice.

   `Twin ℓ rf qf`: the peers `rf` and `qf` have the same term, vote, role, commit
   index and `matchIndex`, and both hold the log `ℓ`; `rf` from its
   `lastIncludedIndex` on, `qf` all of it. Every handler that both can run keeps
   twins twins and gives the same answer; `Snapshot` and the applier change `rf`
   only; and an accepted `InstallSnapShot` at `rf` is an `AppendEntry` of the
   entries it covers at `qf`. -/
namespace DistSys.Raft1

open Lib

variable {n : Nat} {C D : Type} {svc : Service C D}

structure Twin (ℓ : List (Entry (Option C))) (rf qf : Raft n C D) : Prop where
  me : qf.me = rf.me
  term : qf.currentTerm = rf.currentTerm
  vote : qf.voteFor = rf.voteFor
  state : qf.state = rf.state
  commit : qf.commitIndex = rf.commitIndex
  matchIndex : qf.matchIndex = rf.matchIndex
  kept : Shows ℓ rf
  whole : Shows ℓ qf
  base : qf.lastIncludedIndex = 0

/-! ## What a peer shows after a change of its log -/

section Shows
variable {ℓ P : List (Entry (Option C))} {rf : Raft n C D} {c : Repl (Fin n) (Option C)}

theorem Shows.append (h : Shows ℓ rf) (e : Entry (Option C)) :
    Shows (ℓ ++ [e]) { rf with logs := rf.logs ++ [⟨e.cmd, e.term, ℓ.length + 1⟩] } where
  logs := by rw [compact_append h.first_len, ← h.logs]
  term := by rw [termAt_prefix_eq (List.prefix_append ℓ [e]) h.first_len]; exact h.term
  first_len := h.first_len.trans (by simp)

/-- `AppendEntry` after its check of the previous entry: the log holds the whole piece and stays, or
the piece takes its place. -/
theorem Shows.storeEntries (h : Shows ℓ rf) (hℓ : c.Sourced ℓ) (hP : c.Sourced P) {j : Nat}
    (hb : rf.lastIncludedIndex ≤ j) (hj : j ≤ ℓ.length) (hjP : j ≤ P.length)
    (hag : ℓ.take j = P.take j) :
    (P <+: ℓ ∧ rf.storeEntries (tag j (P.drop j)) = rf) ∨
      (¬ P <+: ℓ ∧ rf.storeEntries (tag j (P.drop j)) =
        Raft.persistState { rf with logs := compact P rf.lastIncludedIndex }) := by
  unfold Raft.storeEntries
  rw [h.first, h.logs]
  rcases appendNewEntries_compact hℓ hP h.first_len (P.length - j) j (by omega) hb hj hag with
    ⟨hpre, heq⟩ | ⟨hpre, heq⟩
  · exact Or.inl ⟨hpre, by simp only [heq]⟩
  · exact Or.inr ⟨hpre, by simp only [heq]⟩

/-- The placeholder of a log is one of every log that agrees with it there. -/
theorem Shows.replaced (h : Shows ℓ rf) {j : Nat} (hb : rf.lastIncludedIndex ≤ j)
    (hjP : j ≤ P.length) (hag : ℓ.take j = P.take j) :
    Shows P { rf with logs := compact P rf.lastIncludedIndex } where
  logs := rfl
  term := by
    have : termAt ℓ rf.lastIncludedIndex = termAt P rf.lastIncludedIndex := by
      rw [← termAt_take hb, hag, termAt_take hb]
    exact h.term.trans this
  first_len := hb.trans hjP

theorem Shows.snapshot (h : Shows ℓ rf) (index : Nat) (data : D) :
    Shows ℓ (rf.snapshot index data) := by
  unfold Raft.snapshot
  simp only [h.first, h.latest.1]
  split
  · exact h
  · rename_i hc
    obtain ⟨hlt, hle⟩ : rf.lastIncludedIndex < index ∧ index ≤ ℓ.length := by omega
    obtain ⟨hterm, hidx⟩ := h.getD hlt.le hle
    have hlogs := compact_advance (C := C) hlt.le hle
    rw [← h.logs] at hlogs
    simp only [Raft.persist, hlogs, hterm, hidx]
    exact ⟨rfl, rfl, hle⟩

end Shows

/-! ## Handlers that both run -/

namespace Twin

variable {ℓ P : List (Entry (Option C))} {rf qf : Raft n C D} {c : Repl (Fin n) (Option C)}

theorem latest (h : Twin ℓ rf qf) : qf.getLatestLog.index = rf.getLatestLog.index ∧
    qf.getLatestLog.term = rf.getLatestLog.term := by
  rw [h.whole.latest.1, h.whole.latest.2, h.kept.latest.1, h.kept.latest.2]
  exact ⟨rfl, rfl⟩

theorem isLogMatched (h : Twin ℓ rf qf) {i : Nat} (hi : rf.lastIncludedIndex ≤ i) (t : Nat) :
    qf.isLogMatched i t = rf.isLogMatched i t := by
  rw [Bool.eq_iff_iff, h.whole.isLogMatched, h.kept.isLogMatched, h.base]
  simp [hi]

theorem isLogUpdateToDate (h : Twin ℓ rf qf) (i t : Nat) :
    qf.isLogUpdateToDate i t = rf.isLogUpdateToDate i t := by
  unfold Raft.isLogUpdateToDate
  rw [h.latest.1, h.latest.2]

theorem updateTermAndStepDown (h : Twin ℓ rf qf) (T : Nat) :
    Twin ℓ (rf.updateTermAndStepDown T) (qf.updateTermAndStepDown T) := by
  rcases Nat.lt_or_ge rf.currentTerm T with hlt | hge
  · rw [updateTermAndStepDown_of_lt hlt, updateTermAndStepDown_of_lt (by rw [h.term]; exact hlt)]
    exact ⟨h.me, rfl, rfl, rfl, h.commit, h.matchIndex, ⟨h.kept.logs, h.kept.term, h.kept.first_len⟩,
      ⟨h.whole.logs, h.whole.term, h.whole.first_len⟩, h.base⟩
  · rw [updateTermAndStepDown_of_le hge, updateTermAndStepDown_of_le (by rw [h.term]; exact hge)]
    exact h

theorem toFollower (h : Twin ℓ rf qf) :
    Twin ℓ { rf with state := .follower } { qf with state := .follower } :=
  ⟨h.me, h.term, h.vote, rfl, h.commit, h.matchIndex, ⟨h.kept.logs, h.kept.term, h.kept.first_len⟩,
    ⟨h.whole.logs, h.whole.term, h.whole.first_len⟩, h.base⟩

theorem electionTimeout (h : Twin ℓ rf qf) :
    Twin ℓ rf.electionTimeout.1 qf.electionTimeout.1 ∧
      qf.electionTimeout.2 = rf.electionTimeout.2 := by
  simp only [electionTimeout_eq]
  refine ⟨⟨h.me, ?_, ?_, rfl, h.commit, h.matchIndex, ⟨h.kept.logs, h.kept.term, h.kept.first_len⟩,
    ⟨h.whole.logs, h.whole.term, h.whole.first_len⟩, h.base⟩, ?_⟩
  · simp [persistState_eq, h.term]
  · simp [persistState_eq, h.me]
  · rw [h.term, h.me, h.latest.1, h.latest.2]

theorem requestVote (h : Twin ℓ rf qf) (args : RequestVoteArgs n) :
    Twin ℓ (rf.requestVote args).1 (qf.requestVote args).1 ∧
      (qf.requestVote args).2 = (rf.requestVote args).2 := by
  unfold Raft.requestVote
  rw [h.term, h.vote]
  split
  · exact ⟨h, by simp [Raft.rejectVote, h.term]⟩
  · have h₁ := h.updateTermAndStepDown args.term
    simp only [h₁.isLogUpdateToDate]
    split
    · exact ⟨h₁, by simp [Raft.rejectVote, h₁.term]⟩
    · refine ⟨⟨h₁.me, h₁.term, rfl, h₁.state, h₁.commit, h₁.matchIndex,
        ⟨h₁.kept.logs, h₁.kept.term, h₁.kept.first_len⟩,
        ⟨h₁.whole.logs, h₁.whole.term, h₁.whole.first_len⟩, h₁.base⟩, ?_⟩
      simp [persistState_eq, h₁.term]

theorem lead (h : Twin ℓ rf qf) (hs : rf.state = .candidate) :
    Twin ℓ (rf.changeState .leader) (qf.changeState .leader) := by
  unfold Raft.changeState
  rw [if_neg (by rw [hs]; simp), if_neg (by rw [h.state, hs]; simp)]
  refine ⟨h.me, h.term, h.vote, rfl, h.commit, ?_, ⟨h.kept.logs, h.kept.term, h.kept.first_len⟩,
    ⟨h.whole.logs, h.whole.term, h.whole.first_len⟩, h.base⟩
  simp only [Raft.updateLogIndices, h.me, h.latest.1]

theorem handleVoteReply (h : Twin ℓ rf qf) (votes : Nat) (args : RequestVoteArgs n)
    (reply : RequestVoteReply) :
    Twin ℓ (rf.handleVoteReply votes args reply).1 (qf.handleVoteReply votes args reply).1 ∧
      (qf.handleVoteReply votes args reply).2 = (rf.handleVoteReply votes args reply).2 := by
  have hvalid : qf.isValidCandidate args.term = rf.isValidCandidate args.term := by
    unfold Raft.isValidCandidate
    rw [h.state, h.term]
  unfold Raft.handleVoteReply
  rw [hvalid, h.term]
  split
  · rename_i hv
    have hs : rf.state = .candidate := by
      simp only [Raft.isValidCandidate, Bool.and_eq_true, decide_eq_true_eq] at hv
      exact hv.1
    split
    · split
      · exact ⟨h.lead hs, rfl⟩
      · exact ⟨h, rfl⟩
    · split
      · exact ⟨h.updateTermAndStepDown _, rfl⟩
      · exact ⟨h, rfl⟩
  · exact ⟨h, rfl⟩

theorem start (h : Twin ℓ rf qf) (hs : rf.state = .leader) (command : Option C) :
    Twin (ℓ ++ [⟨rf.currentTerm, command⟩]) (rf.start command).1 (qf.start command).1 := by
  unfold Raft.start
  rw [if_neg (not_not.mpr hs), if_neg (not_not.mpr (h.state.trans hs))]
  simp only [h.kept.latest.1, h.whole.latest.1, h.term]
  have hk := h.kept.append ⟨rf.currentTerm, command⟩
  have hw := h.whole.append ⟨rf.currentTerm, command⟩
  refine ⟨h.me, rfl, h.vote, h.state, h.commit, ?_, ⟨hk.logs, hk.term, hk.first_len⟩,
    ⟨hw.logs, hw.term, hw.first_len⟩, h.base⟩
  simp [Raft.updateLogIndices, persistState_eq, h.me, h.matchIndex]

theorem start_of_ne (rf : Raft n C D) (hs : rf.state ≠ .leader) (command : Option C) :
    (rf.start command).1 = rf := by
  unfold Raft.start
  rw [if_pos hs]

/-! ### AppendEntry -/

theorem storeEntries (h : Twin ℓ rf qf) (hℓ : c.Sourced ℓ) (hP : c.Sourced P) {j : Nat}
    (hb : rf.lastIncludedIndex ≤ j) (hj : j ≤ ℓ.length) (hjP : j ≤ P.length)
    (hag : ℓ.take j = P.take j) :
    ∃ L, (P <+: ℓ ∧ L = ℓ ∨ ¬ P <+: ℓ ∧ L = P) ∧
      Twin L (rf.storeEntries (tag j (P.drop j))) (qf.storeEntries (tag j (P.drop j))) := by
  have hb' : qf.lastIncludedIndex ≤ j := by rw [h.base]; omega
  rcases h.kept.storeEntries hℓ hP hb hj hjP hag with ⟨hpre, heq⟩ | ⟨hpre, heq⟩
  · rcases h.whole.storeEntries hℓ hP hb' hj hjP hag with ⟨-, heq'⟩ | ⟨hpre', -⟩
    · rw [heq, heq']
      exact ⟨ℓ, Or.inl ⟨hpre, rfl⟩, h⟩
    · exact absurd hpre hpre'
  · rcases h.whole.storeEntries hℓ hP hb' hj hjP hag with ⟨hpre', -⟩ | ⟨-, heq'⟩
    · exact absurd hpre' hpre
    · rw [heq, heq']
      have hk := h.kept.replaced hb hjP hag
      have hw := h.whole.replaced hb' hjP hag
      exact ⟨P, Or.inr ⟨hpre, rfl⟩, h.me, h.term, h.vote, h.state, h.commit, h.matchIndex,
        ⟨hk.logs, hk.term, hk.first_len⟩, ⟨hw.logs, hw.term, hw.first_len⟩, h.base⟩

theorem advanceCommit (h : Twin ℓ rf qf) (i : Nat) :
    Twin ℓ (rf.advanceCommit i) (qf.advanceCommit i) := by
  unfold Raft.advanceCommit
  simp only [h.latest.1, h.commit]
  split
  · exact ⟨h.me, h.term, h.vote, h.state, rfl, h.matchIndex,
      ⟨h.kept.logs, h.kept.term, h.kept.first_len⟩,
      ⟨h.whole.logs, h.whole.term, h.whole.first_len⟩, h.base⟩
  · exact h

/-- A follower whose log still reaches back to the previous index of the request. -/
theorem appendAsFollower (h : Twin ℓ rf qf) (hi : c.Inv) (hℓ : c.Sourced ℓ)
    {args : AppendEntryArgs n C} (hok : AppendOk c args P)
    (hb : rf.lastIncludedIndex ≤ args.prevLogIndex) :
    ∃ L, c.Sourced L ∧ Twin L (rf.appendAsFollower args).1 (qf.appendAsFollower args).1 ∧
      ((qf.appendAsFollower args).2.success = (rf.appendAsFollower args).2.success) ∧
      ((rf.appendAsFollower args).2.success = true →
        (qf.appendAsFollower args).2 = (rf.appendAsFollower args).2) := by
  obtain ⟨-, hPre, hprev, hpt, hent, -⟩ := hok
  have hP : c.Sourced P := (hi.llog_src _).shorten hPre
  unfold Raft.appendAsFollower
  rw [h.kept.first, h.whole.first, h.base, if_neg (Nat.not_lt.mpr hb), if_neg (Nat.not_lt_zero _),
    h.isLogMatched hb]
  split
  · exact ⟨ℓ, hℓ, h, by rw [conflictReply_success, conflictReply_success],
      fun hs => by simp [conflictReply_success] at hs⟩
  · rename_i hm
    obtain ⟨-, hm₂, hm₃⟩ := h.kept.isLogMatched.mp (by simpa using hm)
    have hag : ℓ.take args.prevLogIndex = P.take args.prevLogIndex :=
      hℓ.matching hP hm₂ hprev (hm₃.symm.trans hpt)
    obtain ⟨L, hL, htw⟩ := h.storeEntries hℓ hP hb hm₂ hprev hag
    rw [← hent] at htw
    have htw' := htw.advanceCommit args.leaderCommit
    refine ⟨L, ?_, htw', rfl, fun _ => by simp only [htw'.term]⟩
    rcases hL with ⟨-, rfl⟩ | ⟨-, rfl⟩
    · exact hℓ
    · exact hP

/-! ### Replies to a leader -/

theorem updateLogIndices (h : Twin ℓ rf qf) (peer : Fin n) (i : Nat) :
    Twin ℓ (rf.updateLogIndices peer i) (qf.updateLogIndices peer i) :=
  ⟨h.me, h.term, h.vote, h.state, h.commit, by simp only [Raft.updateLogIndices, h.matchIndex],
    ⟨h.kept.logs, h.kept.term, h.kept.first_len⟩, ⟨h.whole.logs, h.whole.term, h.whole.first_len⟩,
    h.base⟩

theorem acceptNewLogEntries (h : Twin ℓ rf qf) (hb : rf.lastIncludedIndex ≤ rf.commitIndex)
    (peer : Fin n) (args : AppendEntryArgs n C) :
    Twin ℓ (rf.acceptNewLogEntries peer args) (qf.acceptNewLogEntries peer args) := by
  have h₁ := h.updateLogIndices peer (args.prevLogIndex + args.entries.length)
  unfold Raft.acceptNewLogEntries
  simp only [h₁.matchIndex]
  split
  · exact h₁
  · rename_i i b _
    by_cases hlt : i > (rf.updateLogIndices peer (args.prevLogIndex + args.entries.length)).commitIndex
    · have hm := h₁.isLogMatched (i := i) (hb.trans hlt.le)
        (rf.updateLogIndices peer (args.prevLogIndex + args.entries.length)).currentTerm
      rw [h₁.term, h₁.commit, hm]
      split
      · exact ⟨h₁.me, rfl, h₁.vote, h₁.state, rfl, rfl,
          ⟨h₁.kept.logs, h₁.kept.term, h₁.kept.first_len⟩,
          ⟨h₁.whole.logs, h₁.whole.term, h₁.whole.first_len⟩, h₁.base⟩
      · exact h₁
    · rw [if_neg (fun hc => hlt hc.1), if_neg (fun hc => hlt (h₁.commit ▸ hc.1))]
      exact h₁

theorem rollBack (h : Twin ℓ rf qf) (peer : Fin n) (args : AppendEntryArgs n C)
    (reply : AppendEntryReply) : Twin ℓ (rf.rollBackToConflictTerm peer args reply) qf :=
  ⟨h.me, h.term, h.vote, h.state, h.commit, h.matchIndex,
    ⟨h.kept.logs, h.kept.term, h.kept.first_len⟩, h.whole, h.base⟩

theorem isValidLeader (h : Twin ℓ rf qf) (T : Nat) : qf.isValidLeader T = rf.isValidLeader T := by
  unfold Raft.isValidLeader
  rw [h.state, h.term]

/-- A reply that says something: the entries were stored, or the leader's term is over. -/
theorem handleAppendReply (h : Twin ℓ rf qf) (hb : rf.lastIncludedIndex ≤ rf.commitIndex)
    (peer : Fin n) (args : AppendEntryArgs n C) {reply : AppendEntryReply}
    (hr : reply.success = true ∨ args.term < reply.term) :
    Twin ℓ (rf.handleAppendReply peer args reply) (qf.handleAppendReply peer args reply) := by
  unfold Raft.handleAppendReply
  rw [h.isValidLeader, h.term]
  split
  · exact h
  · rename_i hv
    have ht : rf.currentTerm = args.term := by
      have : rf.state = .leader ∧ rf.currentTerm = args.term := by simpa [Raft.isValidLeader] using hv
      exact this.2
    split
    · rename_i hs
      rcases hr with hr | hr
      · simp [hr] at hs
      · rw [if_pos (by omega), if_pos (by omega)]
        exact h.updateTermAndStepDown _
    · exact h.acceptNewLogEntries hb peer args

/-- A rejection for another reason only moves `nextIndex`. -/
theorem handleAppendReply_rejected (h : Twin ℓ rf qf) (peer : Fin n) (args : AppendEntryArgs n C)
    {reply : AppendEntryReply} (hs : reply.success = false) (ht : reply.term ≤ args.term) :
    Twin ℓ (rf.handleAppendReply peer args reply) qf := by
  unfold Raft.handleAppendReply
  split
  · exact h
  · rename_i hv
    have hterm : rf.currentTerm = args.term := by
      have : rf.state = .leader ∧ rf.currentTerm = args.term := by simpa [Raft.isValidLeader] using hv
      exact this.2
    rw [if_pos (by simp [hs]), if_neg (by omega)]
    exact h.rollBack peer args reply

/-! ## Steps of the compacted peer alone -/

theorem snapshot (h : Twin ℓ rf qf) (index : Nat) (data : D) : Twin ℓ (rf.snapshot index data) qf := by
  have hsame : ∀ {rf' : Raft n C D}, Shows ℓ rf' → rf' = { rf with
      persister := rf'.persister, logs := rf'.logs, lastIncludedIndex := rf'.lastIncludedIndex
      lastIncludedTerm := rf'.lastIncludedTerm } → Twin ℓ rf' qf := by
    intro rf' hk heq
    rw [heq]
    exact ⟨h.me, h.term, h.vote, h.state, h.commit, h.matchIndex, ⟨hk.logs, hk.term, hk.first_len⟩,
      h.whole, h.base⟩
  apply hsame (h.kept.snapshot index data)
  unfold Raft.snapshot
  simp only
  split <;> rfl

theorem applier (h : Twin ℓ rf qf) : Twin ℓ rf.applier.1 qf := by
  have hsame : ∀ {rf' : Raft n C D}, rf' = { rf with
      lastApplied := rf'.lastApplied, pendingSnapshot := rf'.pendingSnapshot } → Twin ℓ rf' qf := by
    intro rf' heq
    rw [heq]
    exact ⟨h.me, h.term, h.vote, h.state, h.commit, h.matchIndex,
      ⟨h.kept.logs, h.kept.term, h.kept.first_len⟩, h.whole, h.base⟩
  apply hsame
  unfold Raft.applier
  split
  · rfl
  · split
    · rfl
    · simp only
      split
      · rfl
      · split
        · rfl
        · split <;> rfl

/-! ## InstallSnapShot -/

theorem followSnapShot (h : Twin ℓ rf qf) {T : Nat} (hT : rf.currentTerm ≤ T) :
    Twin ℓ (rf.followSnapShot T) { qf.updateTermAndStepDown T with state := .follower } := by
  have hq := (h.updateTermAndStepDown T).toFollower
  rcases Nat.eq_or_lt_of_le hT with heq | hlt
  · rw [followSnapShot_of_le heq.ge]
    rw [updateTermAndStepDown_of_le heq.ge] at hq
    exact hq
  · rw [followSnapShot_of_lt hlt]
    rw [updateTermAndStepDown_of_lt hlt] at hq
    exact ⟨hq.me, hq.term, hq.vote, hq.state, hq.commit, hq.matchIndex,
      ⟨h.kept.logs, h.kept.term, h.kept.first_len⟩, hq.whole, hq.base⟩

/-- The whole log takes the entries that a snapshot covers like any others. -/
theorem appendAsFollower_covered (h : Shows ℓ qf) (hb : qf.lastIncludedIndex = 0)
    {args : AppendEntryArgs n C} (h₁ : args.prevLogIndex = 0) (h₂ : args.prevLogTerm = 0) :
    qf.appendAsFollower args =
      ((qf.storeEntries args.entries).advanceCommit args.leaderCommit,
        { term := ((qf.storeEntries args.entries).advanceCommit args.leaderCommit).currentTerm
          success := true }) := by
  have hm : qf.isLogMatched 0 0 = true := h.isLogMatched.mpr ⟨by rw [hb], Nat.zero_le _, rfl⟩
  unfold Raft.appendAsFollower
  rw [h.first, h₁, h₂, hm, hb, if_neg (Nat.lt_irrefl 0)]
  rfl

/-- A snapshot that is applied already: nothing is stored and nothing committed. -/
theorem install_stale (h : Twin ℓ rf qf) (hℓ : c.Sourced ℓ) (hP : c.Sourced P) (hpre : P <+: ℓ)
    (hc : P.length ≤ rf.commitIndex) :
    (qf.storeEntries (tag 0 P)).advanceCommit P.length = qf := by
  have hstore : qf.storeEntries (tag 0 P) = qf := by
    rcases h.whole.storeEntries hℓ hP (j := 0) (by rw [h.base]) (Nat.zero_le _) (Nat.zero_le _) rfl with
      ⟨-, heq⟩ | ⟨hne, -⟩
    · exact heq
    · exact absurd hpre hne
  rw [hstore]
  unfold Raft.advanceCommit
  simp only [h.commit]
  rw [if_neg (by omega)]

/-- A snapshot that is accepted: the same entries are kept, and the commit index is the same. -/
theorem replaceBySnapShot (h : Twin ℓ rf qf) (hℓ : c.Sourced ℓ) (hP : c.Sourced P)
    {args : InstallSnapShotArgs n D} (hlen : P.length = args.lastIncludedIndex)
    (hterm : args.lastIncludedTerm = termAt P P.length)
    (hge : rf.lastIncludedIndex ≤ args.lastIncludedIndex) :
    ∃ L, c.Sourced L ∧ Twin L (rf.replaceBySnapShot args)
      ((qf.storeEntries (tag 0 P)).advanceCommit args.lastIncludedIndex) := by
  have hcase := h.kept.installedLogs hℓ hP (by omega)
  rw [← hterm, hlen] at hcase
  have hmax : ∀ (L : List (Entry (Option C))) (qf' : Raft n C D), Shows L qf' → P <+: L →
      qf'.advanceCommit args.lastIncludedIndex =
        { qf' with commitIndex := max qf'.commitIndex args.lastIncludedIndex } := by
    intro L qf' hs hpre
    have := hpre.length_le
    unfold Raft.advanceCommit
    simp only [hs.latest.1]
    rw [show min args.lastIncludedIndex L.length = args.lastIncludedIndex by omega]
    split
    · rw [max_eq_right (by omega)]
    · rw [max_eq_left (by omega)]
  have hdata : rf.replaceBySnapShot args = { rf with
      persister := (rf.replaceBySnapShot args).persister
      lastIncludedIndex := args.lastIncludedIndex
      lastIncludedTerm := args.lastIncludedTerm
      logs := rf.installedLogs args.lastIncludedIndex args.lastIncludedTerm
      commitIndex := max rf.commitIndex args.lastIncludedIndex
      lastApplied := max rf.lastApplied args.lastIncludedIndex
      pendingSnapshot := (rf.replaceBySnapShot args).pendingSnapshot } := by
    unfold Raft.replaceBySnapShot Raft.persist
    cases args.data <;> rfl
  -- both peers decide by whether the log starts with the covered entries
  have hwhole := h.whole.storeEntries hℓ hP (j := 0) (by rw [h.base]) (Nat.zero_le _)
    (Nat.zero_le _) rfl
  rw [List.drop_zero] at hwhole
  rcases hcase with ⟨hpre, hlogs⟩ | ⟨hpre, hlogs⟩
  · obtain heq : qf.storeEntries (tag 0 P) = qf := by
      rcases hwhole with ⟨-, heq⟩ | ⟨hne, -⟩
      · exact heq
      · exact absurd hpre hne
    have hple := hpre.length_le
    rw [heq, hmax ℓ qf h.whole hpre, hdata, hlogs]
    refine ⟨ℓ, hℓ, h.me, h.term, h.vote, h.state, ?_, h.matchIndex, ⟨rfl, ?_, ?_⟩,
      ⟨h.whole.logs, h.whole.term, h.whole.first_len⟩, h.base⟩
    · simp only [h.commit]
    · simp only
      rw [hterm, ← hlen, termAt_prefix_eq hpre le_rfl]
    · simp only
      omega
  · obtain heq : qf.storeEntries (tag 0 P) =
        Raft.persistState { qf with logs := compact P qf.lastIncludedIndex } := by
      rcases hwhole with ⟨hpre', -⟩ | ⟨-, heq⟩
      · exact absurd hpre' hpre
      · exact heq
    have hw := h.whole.replaced (P := P) (j := 0) (by rw [h.base]) (Nat.zero_le _) rfl
    have hw' : Shows P (Raft.persistState { qf with logs := compact P qf.lastIncludedIndex }) :=
      ⟨hw.logs, hw.term, hw.first_len⟩
    rw [heq, hmax P _ hw' List.prefix_rfl, hdata, hlogs]
    refine ⟨P, hP, h.me, h.term, h.vote, h.state, ?_, h.matchIndex, ⟨rfl, ?_, ?_⟩,
      ⟨hw.logs, hw.term, hw.first_len⟩, h.base⟩
    · simp only [persistState_eq, h.commit]
    · simp only
      rw [hterm, hlen]
    · simp only
      omega

end Twin

end DistSys.Raft1
