import DistSys.Raft1.Checked
import DistSys.Raft1.Leading

/- The representation of the log, and what index arithmetic may rely on.

   In every state of a run a node's log has its shape, its fields point into it in the
   right order, and a leader's indices stay inside it or right after it. So the functions
   that index the log never leave it, whatever message comes next and however old it is,
   and the branches that `applier` and `genAppendEntryArgs` keep for other states are never
   taken. That `commitIndex` is inside the log after a truncation or a snapshot is the
   global argument: it comes from the coupling. -/
namespace DistSys.Raft1

open Lib

variable {n : Nat} {C D : Type} {svc : Service C D} {s : Cluster n C D} {g : Ghost n C D}

/-- A node's log and the fields that point into it. -/
structure WellFormed (rf : Raft n C D) : Prop where
  shape : Shape rf.logs
  terms : ∀ e ∈ rf.logs, e.term ≤ rf.currentTerm
  index : rf.lastIncludedIndex = rf.getFirstLog.index
  term : rf.lastIncludedTerm = rf.getFirstLog.term
  first_le : rf.getFirstLog.index ≤ rf.lastApplied
  applied_le : rf.lastApplied ≤ rf.commitIndex
  commit_le : rf.commitIndex ≤ rf.getLatestLog.index

/-- A leader's indices. -/
structure PeerIndices (rf : Raft n C D) : Prop where
  own : rf.matchIndex rf.me = rf.getLatestLog.index
  match_le : ∀ peer, rf.matchIndex peer ≤ rf.getLatestLog.index
  next_pos : ∀ peer, 1 ≤ rf.nextIndex peer
  next_le : ∀ peer, rf.nextIndex peer ≤ rf.getLatestLog.index + 1

/-- No function that may run next panics: each one with bounds checks returns what it returns
without them. -/
structure InRange (s : Cluster n C D) : Prop where
  appendEntry : ∀ m ∈ s.net, ∀ args, m.payload = .appendReq args →
    (s.proc m.server).rf.appendEntryHandler? args = some ((s.proc m.server).rf.appendEntry args)
  rollBackToConflictTerm : ∀ m ∈ s.net, ∀ args reply, m.payload = .appendRep args reply →
    (s.proc m.caller).rf.isValidLeader args.term = true →
    (s.proc m.caller).rf.rollBackToConflictTerm? m.server args reply =
      some ((s.proc m.caller).rf.rollBackToConflictTerm m.server args reply)
  genAppendEntryArgs : ∀ q peer args,
    (s.proc q).rf.doSendAppendEntry peer = some (.append args) →
    (s.proc q).rf.genAppendEntryArgs? (((s.proc q).rf.nextIndex peer : Int) - 1) = some args
  snapshot : ∀ q index data,
    (s.proc q).rf.snapshot? index data = some ((s.proc q).rf.snapshot index data)
  installSnapShot : ∀ q args,
    (s.proc q).rf.installSnapShot? args = some ((s.proc q).rf.installSnapShot args)
  applier : ∀ q, (s.proc q).rf.applier? = some (s.proc q).rf.applier

/-- The defensive branches are not taken: in `applier` that `lastApplied` is behind the log or the
next entry is out of range, in `genAppendEntryArgs` that the previous index is clamped, from below
or from above, or that its term is left zero. -/
structure NoDefence (rf : Raft n C D) : Prop where
  behind : ¬ rf.lastApplied < rf.getFirstLog.index
  range : rf.lastApplied < rf.commitIndex →
    ¬ (((rf.lastApplied + 1 : Nat) : Int) - rf.getFirstLog.index < 0 ∨
      ((rf.lastApplied + 1 : Nat) : Int) - rf.getFirstLog.index ≥ rf.logs.length)
  clamp : ∀ peer args, rf.doSendAppendEntry peer = some (.append args) →
    ¬ (rf.nextIndex peer : Int) - 1 < (rf.getFirstLog.index : Int) - 1 ∧
      ¬ (rf.nextIndex peer : Int) - 1 > rf.getLatestLog.index
  prevTerm : ∀ peer args, rf.doSendAppendEntry peer = some (.append args) →
    (rf.nextIndex peer : Int) - 1 ≥ rf.getFirstLog.index ∧
      (rf.nextIndex peer : Int) - 1 - rf.getFirstLog.index < rf.logs.length

/-! ## From the coupling -/

theorem Coupled.wellFormed (hc : Coupled svc s g) (q : Fin n) : WellFormed (s.proc q).rf := by
  have hn := hc.node q
  have hfirst := hn.log.first
  refine ⟨hc.shape q, fun e he => ?_, ?_, ?_, ?_, hn.log.applied_le, ?_⟩
  · rw [hn.log.logs] at he
    rw [(mem_compact hn.log.first_len he).2.2.1]
    exact (termAt_le (hc.inv.log_term q) _).trans hn.dur.term_le
  · rw [hfirst]
  · rw [hfirst]
  · rw [hfirst]
    exact hn.log.first_le
  · rw [hn.log.latest.1]
    exact hn.log.commit_le

theorem Coupled.peerIndices (hc : Coupled svc s g) (hb : Bounded s) (ha : Ahead s) {q : Fin n}
    (hs : (s.proc q).rf.state = .leader) : PeerIndices (s.proc q).rf where
  own := (hb.leading q hs).own
  match_le := fun peer => by
    rw [(hc.node q).log.latest.1]
    exact (hc.node q).matchIndex_le hc.inv hs peer
  next_pos := ha.next q
  next_le := (hb.leading q hs).next

/-- The entries of an append in the network follow its previous index. -/
theorem AppendOk.consecutive {c : Repl (Fin n) (Option C)} {args : AppendEntryArgs n C}
    {P : List (Entry (Option C))} (h : AppendOk c args P) :
    Consecutive args.prevLogIndex args.entries := by
  obtain ⟨-, -, -, -, hentries, -⟩ := h
  intro k hk
  rw [List.getD_eq_getElem?_getD, hentries, tag_getElem?]
  rw [hentries, tag_length] at hk
  rw [List.getElem?_eq_getElem hk]
  rfl

/-- A leader's log still reaches the previous index of every append of its term. -/
theorem AppendOk.prev_le (hc : Coupled svc s g) {args : AppendEntryArgs n C}
    {P : List (Entry (Option C))} (h : AppendOk g.core args P) {q : Fin n}
    (hvalid : (s.proc q).rf.isValidLeader args.term = true) :
    args.prevLogIndex ≤ (s.proc q).rf.getLatestLog.index := by
  obtain ⟨hs, hterm⟩ : (s.proc q).rf.state = .leader ∧ (s.proc q).rf.currentTerm = args.term := by
    simpa [Raft.isValidLeader] using hvalid
  obtain ⟨-, -, hlog⟩ := (hc.node q).leads hc.inv hs
  obtain ⟨-, hpiece, hprev, -⟩ := h
  rw [(hc.node q).log.latest.1, hlog, hterm]
  exact hprev.trans hpiece.length_le

/-- The previous index of an append that a leader builds. -/
theorem Bounded.prev_range (hb : Bounded s) {q peer : Fin n}
    {args : AppendEntryArgs n C}
    (hsend : (s.proc q).rf.doSendAppendEntry peer = some (.append args)) :
    (s.proc q).rf.getFirstLog.index < (s.proc q).rf.nextIndex peer ∧
      (s.proc q).rf.nextIndex peer ≤ (s.proc q).rf.getLatestLog.index + 1 ∧
      args = (s.proc q).rf.genAppendEntryArgs ((s.proc q).rf.nextIndex peer - 1) := by
  obtain ⟨hs, hnext, heq⟩ := doSendAppendEntry_append hsend
  exact ⟨hnext, (hb.leading q hs).next peer, heq⟩

theorem Coupled.inRange (hc : Coupled svc s g) (hb : Bounded s) : InRange s where
  appendEntry := fun m hm args hp => by
    have hok := hc.net m hm
    unfold RpcOk at hok
    rw [hp] at hok
    obtain ⟨P, hP⟩ := hok
    exact (hc.shape m.server).appendEntryHandler? hP.consecutive
  rollBackToConflictTerm := fun m hm args reply hp hvalid => by
    have hok := hc.net m hm
    unfold RpcOk at hok
    rw [hp] at hok
    obtain ⟨⟨P, hP⟩, -⟩ := hok
    exact (hc.shape m.caller).rollBackToConflictTerm? m.server args reply (hP.prev_le hc hvalid)
  genAppendEntryArgs := fun q peer args hsend => by
    obtain ⟨hfirst, hlast, rfl⟩ := hb.prev_range hsend
    have hprev : ((s.proc q).rf.nextIndex peer : Int) - 1 =
      (((s.proc q).rf.nextIndex peer - 1 : Nat) : Int) := by omega
    rw [hprev]
    exact (hc.shape q).genAppendEntryArgs? (by omega) (by omega)
  snapshot := fun q index data => (hc.shape q).snapshot? index data
  installSnapShot := fun q args => (hc.shape q).installSnapShot? args
  applier := fun q => (hc.shape q).applier? (hc.wellFormed q).first_le (hc.wellFormed q).commit_le

theorem Coupled.noDefence (hc : Coupled svc s g) (hb : Bounded s) (q : Fin n) :
    NoDefence (s.proc q).rf := by
  have hwf := hc.wellFormed q
  have hfirst := hwf.first_le
  have hcommit := hwf.commit_le
  have hlen := hwf.shape.latest
  have hpos := hwf.shape.pos
  refine ⟨not_lt.mpr hfirst, fun hnew => by omega, fun peer args hsend => ?_, fun peer args hsend => ?_⟩
  · obtain ⟨hlow, hhigh, -⟩ := hb.prev_range hsend
    omega
  · obtain ⟨hlow, hhigh, -⟩ := hb.prev_range hsend
    omega

/-! ## Runs -/

/-- In every state of every run: each log is well formed, with the fields that point into it in
order, a leader's indices are inside its log or right after it, no access to a log is out of
range, and the defensive branches are not taken. -/
theorem logs_in_range {tr : List (Cluster n C D × Action n C D)} (hrun : Run svc tr s) :
    (∀ q, WellFormed (s.proc q).rf) ∧
      (∀ q, (s.proc q).rf.state = .leader → PeerIndices (s.proc q).rf) ∧
      InRange s ∧ ∀ q, NoDefence (s.proc q).rf := by
  obtain ⟨⟨g, hc⟩, hb, ha⟩ := hrun.bounded s (List.mem_append_right _ (List.mem_singleton_self s))
  exact ⟨hc.wellFormed, fun q hs => hc.peerIndices hb ha hs, hc.inRange hb, hc.noDefence hb⟩

/-- The reply to the first append is under way: peer 0 leads with one entry, and would handle a
rejection without a panic. -/
theorem logs_in_range_storing :
    ((sampleAt (electing ++ storing)).proc 0).rf.state = .leader ∧
      ((sampleAt (electing ++ storing)).proc 0).rf.matchIndex 0 = 1 ∧
      InRange (sampleAt (electing ++ storing)) := by
  obtain ⟨-, hleader, hrange, -⟩ := logs_in_range (sample_run (electing ++ storing) (by decide))
  exact ⟨by decide, (hleader 0 (by decide)).own, hrange⟩

end DistSys.Raft1
