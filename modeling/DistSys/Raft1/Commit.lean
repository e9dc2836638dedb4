import DistSys.Raft1.Incarnation
import DistSys.Raft1.Safety

/- What a commit rests on, at the moment it is made.

   A leader counts `matchIndex`, which repeats old replies; the entry it commits is
   nevertheless durable on a majority right then (`commit_rests_on_majority`), whatever
   the nodes that confirmed it have met since. A follower takes the minimum of
   `LeaderCommit` and its own last index, which may be an entry of an old leader; the
   leader that built the message has all of it (`follower_commit_vouched`), since a
   message carries the whole rest of the leader's log. -/
namespace DistSys.Raft1

open Lib

variable {n : Nat} {C D : Type} {svc : Service C D} {s v : Cluster n C D} {g : Ghost n C D}
  {tr : List (Cluster n C D × Action n C D)}

/-! ## The leader's commit -/

/-- In `v` the leader `a` can process an append reply with which `acceptNewLogEntries` raises its
commit index to `c`. -/
def RaisesTo (v : Cluster n C D) (a : Fin n) (c : Nat) : Prop :=
  ∃ m ∈ v.net, ∃ args reply, m.caller = a ∧ m.incarnation = (v.proc a).incarnation ∧
    m.payload = .appendRep args reply ∧ reply.success = true ∧
    (v.proc a).rf.isValidLeader args.term = true ∧ (v.proc a).rf.commitIndex < c ∧
    ((v.proc a).rf.acceptNewLogEntries m.server args).commitIndex = c

/-- The saved log has the entry, or starts at its index or after it. -/
def RaftState.Covers (st : RaftState n C) (e : LogEntry C) : Prop :=
  (∃ f ∈ st.logs, f.index = e.index ∧ f.term = e.term ∧ f.command = e.command) ∨
    e.index ≤ (st.logs.headD default).index

theorem Coupled.raisesTo (hc : Coupled svc v g) {a : Fin n} {c : Nat} (h : RaisesTo v a c) :
    (v.proc a).rf.state = .leader ∧ (v.proc a).rf.commitIndex < c ∧
      g.core.Committed (v.proc a).rf.currentTerm c := by
  obtain ⟨m, hm, args, reply, rfl, -, hpay, hsucc, hvalid, hlt, rfl⟩ := h
  obtain ⟨hs, hcomm⟩ := hc.reply_raises hm hpay hsucc hvalid hlt
  exact ⟨hs, hlt, hcomm⟩

/-- A node whose whole log has the entry has saved it, or a snapshot in its place. -/
theorem NodeInv.covers_saved {q : Fin n} {p : Process n C D} (h : NodeInv svc g q p) {c : Nat}
    {x : Entry (Option C)} (hx : (g.core.log q)[c - 1]? = some x) :
    p.rf.persister.state.Covers ⟨x.cmd, x.term, c⟩ := by
  unfold RaftState.Covers
  rw [h.dur.logs, h.log.logs, compact_head]
  rcases Nat.lt_or_ge p.rf.lastIncludedIndex c with hlt | hge
  · exact Or.inl ⟨_, mem_compact_of_lt hlt hx, rfl, rfl, rfl⟩
  · exact Or.inr hge

/-- Whenever a leader raises its commit index to `c`, its entry at `c` is of its own term, and more
than half of the nodes, itself included, have saved a log with that entry, or one that starts at
`c` or after it. -/
theorem commit_rests_on_majority (h : Run svc tr s) (hv : v ∈ visited tr s) {a : Fin n} {c : Nat}
    (hraise : RaisesTo v a c) :
    ∃ e ∈ (v.proc a).rf.logs, e.index = c ∧ e.term = (v.proc a).rf.currentTerm ∧
      ∃ Q : Finset (Fin n), a ∈ Q ∧ n < 2 * Q.card ∧
        ∀ q ∈ Q, (v.proc q).rf.persister.state.Covers e := by
  obtain ⟨g, -, -, hall⟩ := h.coupled
  obtain ⟨gv, -, hc⟩ := hall v hv
  obtain ⟨hs, hlt, hcomm⟩ := hc.raisesTo hraise
  have hn := hc.node a
  obtain ⟨-, -, hlog⟩ := hn.leads hc.inv hs
  obtain ⟨Q, hQ, hheld⟩ := hcomm.held hc.inv
  -- the entry, in the whole log of the leader
  obtain ⟨x, -, hx, hterm⟩ := exists_entry hcomm.1.pos hcomm.le
  have hpos := hcomm.1.pos
  have hentry : ((gv.core.llog (v.proc a).rf.currentTerm).take c)[c - 1]? = some x := by
    rw [List.getElem?_take_of_lt (by omega)]
    exact hx
  have hfirst : (v.proc a).rf.lastIncludedIndex < c :=
    (hn.log.first_le.trans hn.log.applied_le).trans_lt hlt
  refine ⟨⟨x.cmd, x.term, c⟩, ?_, rfl, hterm.symm.trans hcomm.1.2, insert a Q,
    Finset.mem_insert_self a Q, ?_, fun q hq => ?_⟩
  · rw [hn.log.logs, hlog]
    exact mem_compact_of_lt hfirst hx
  · have hmaj : IsMajority (insert a Q) := hQ.mono (Finset.subset_insert a Q)
    rwa [IsMajority, Fintype.card_fin] at hmaj
  · apply (hc.node q).covers_saved
    rcases Finset.mem_insert.mp hq with rfl | hq
    · rw [hlog]
      exact hx
    · exact getElem?_of_isPrefix (hheld q hq) hentry

/-- Peer 0 can commit the first command of the sample: both peers have saved it. -/
theorem commit_rests_on_majority_storing :
    ∃ Q : Finset (Fin 2), 0 ∈ Q ∧ 2 < 2 * Q.card ∧
      ∃ e : LogEntry Nat, e.index = 1 ∧ e.term = 1 ∧
        ∀ q ∈ Q, ((sampleAt (electing ++ storing)).proc q).rf.persister.state.Covers e := by
  have hraise : RaisesTo (sampleAt (electing ++ storing)) 0 1 :=
    ⟨⟨0, 0, 1, .appendRep ⟨1, 0, 0, 0, [⟨some 7, 1, 1⟩], 0⟩ { term := 1, success := true }⟩,
      List.mem_of_getElem? (i := 0) rfl, _, _, rfl, rfl, rfl, rfl, by decide, by decide, by decide⟩
  obtain ⟨e, -, hindex, hterm, Q, hmem, hcard, hcovers⟩ :=
    commit_rests_on_majority (sample_run (electing ++ storing) (by decide))
      (sampleStart.after_mem_visited (electing ++ storing) []) hraise
  exact ⟨Q, hmem, hcard, e, hindex, hterm, hcovers⟩

/-! ## The follower's commit -/

theorem advanceCommit_le {rf : Raft n C D} {i : Nat}
    (h : rf.commitIndex < (rf.advanceCommit i).commitIndex) : (rf.advanceCommit i).commitIndex ≤ i := by
  unfold Raft.advanceCommit at h ⊢
  simp only at h ⊢
  split
  · exact min_le_left _ _
  · rename_i hle
    rw [if_neg hle] at h
    exact absurd h (lt_irrefl _)

theorem appendEntry_commit_le {rf : Raft n C D} {args : AppendEntryArgs n C}
    (h : rf.commitIndex < (rf.appendEntry args).1.commitIndex) :
    (rf.appendEntry args).1.commitIndex ≤ args.leaderCommit := by
  by_cases hterm : args.term < rf.currentTerm
  · rw [Raft.appendEntry, if_pos hterm] at h
    exact absurd h (lt_irrefl _)
  · rw [appendEntry_of_ge hterm] at h ⊢
    rw [← updateTermAndStepDown_commitIndex rf args.term] at h
    generalize rf.updateTermAndStepDown args.term = rf₁ at h ⊢
    unfold Raft.appendAsFollower at h ⊢
    split at h
    · exact absurd h (lt_irrefl _)
    · rename_i hfirst
      rw [if_neg hfirst]
      split at h
      · exact absurd h (lt_irrefl _)
      · rename_i hmatched
        rw [if_neg hmatched]
        apply advanceCommit_le
        rw [storeEntries_commitIndex]
        exact h

/-- What a leader puts into an append. -/
theorem NodeInv.sends {me peer : Fin n} {p : Process n C D} (h : NodeInv svc g me p) (hi : g.core.Inv)
    {args : AppendEntryArgs n C} (hsend : p.rf.doSendAppendEntry peer = some (.append args)) :
    p.rf.state = .leader ∧ args.term = p.rf.currentTerm ∧ args.leaderCommit = p.rf.commitIndex ∧
      AppendOk g.core args (g.core.log me) := by
  obtain ⟨hs, hnext, rfl⟩ := doSendAppendEntry_append hsend
  rw [h.log.first] at hnext
  have hge : p.rf.lastIncludedIndex ≤ p.rf.nextIndex peer - 1 := Nat.le_pred_of_lt hnext
  refine ⟨hs, ?_, ?_, h.appendOk hi hs hge⟩
  · rw [h.log.shows.genAppendEntryArgs hge]
  · rw [h.log.shows.genAppendEntryArgs hge]

/-- The `leader` has the entries of the `follower` up to `c`: the terms and commands of those both
retain (the command where neither has a placeholder), and the commands of those the leader has
compacted in its snapshot. -/
structure Vouches (svc : Service C D) (leader follower : Raft n C D) (c : Nat) : Prop where
  reaches : c ≤ leader.getLatestLog.index
  retained : ∀ f ∈ follower.logs, f.index ≤ c → ∀ e ∈ leader.logs, e.index = f.index →
    e.term = f.term ∧ (leader.getFirstLog.index < e.index → follower.getFirstLog.index < f.index →
      e.command = f.command)
  compacted : leader.getFirstLog.index = 0 ∨ ∃ d cmds, leader.persister.readSnapshot = some d ∧
    cmds.length = leader.getFirstLog.index ∧ svc.restore d = svc.run cmds ∧
    ∀ f ∈ follower.logs, f.index ≤ c → f.index ≤ leader.getFirstLog.index →
      follower.getFirstLog.index < f.index → cmds[f.index - 1]? = some f.command

theorem NodeInv.vouches {g' : Ghost n C D} {a b : Fin n} {p p' : Process n C D}
    (h : NodeInv svc g a p) (hi : g.core.Inv) (h' : NodeInv svc g' b p') {c : Nat}
    (hsame : (g.core.log a).take c = (g'.core.log b).take c) (hle : c ≤ (g.core.log a).length) :
    Vouches svc p.rf p'.rf c := by
  refine ⟨?_, fun f hf hfc e he hidx => h.agrees h' hsame he hf hidx (by omega), ?_⟩
  · rw [h.log.latest.1]
    exact hle
  · have hfirst : p.rf.getFirstLog.index = p.rf.lastIncludedIndex := by rw [h.log.first]
    have hsnap := h.dur.saves.snap
    rw [hfirst]
    cases hd : p.rf.persister.readSnapshot with
    | none =>
      rw [hd] at hsnap
      exact Or.inl hsnap
    | some d =>
      rw [hd] at hsnap
      obtain ⟨-, q, hq, hlen, hrestore⟩ := hsnap
      refine Or.inr ⟨d, q.map Entry.cmd, rfl, by rw [List.length_map, hlen], hrestore, ?_⟩
      intro f hf hfc hfL hfirst'
      obtain ⟨-, -, -, hcmd⟩ := h'.mem_logs hf
      obtain ⟨x, hx, hxf, -⟩ := hcmd hfirst'
      -- the snapshot's prefix is the beginning of the leader's whole log
      have hpre : q <+: g.core.log a := by
        apply h.covers hi hq
        rw [hlen]
        exact h.log.first_le.trans h.log.applied_le
      have hlt : f.index - 1 < q.length := by omega
      have hget : q[f.index - 1]? = some x := by
        rw [← List.getElem?_take_of_lt (show f.index - 1 < c by omega), ← hsame,
          List.getElem?_take_of_lt (by omega)] at hx
        obtain ⟨r, hr⟩ := hpre
        rwa [← hr, List.getElem?_append_left hlt] at hx
      rw [List.getElem?_map, hget, hxf]
      rfl

/-- A peer right after it has handled an append. -/
theorem handle_append {m : Rpc n C D} {args : AppendEntryArgs n C} (hpay : m.payload = .appendReq args)
    (rest : List (Rpc n C D)) : (s.handle m rest).proc m.server =
      { s.proc m.server with rf := ((s.proc m.server).rf.appendEntry args).1 } := by
  simp only [Cluster.handle, hpay, Cluster.handleRequest, Cluster.set, Function.update_self]

/-- Whenever `AppendEntry` raises a follower's commit index, it is raised to an index that the
message reaches, and wherever in the run the message was built, the leader then had all entries
that the follower has up to it. -/
theorem follower_commit_vouched (h : Run svc tr s) {m : Rpc n C D} (hm : m ∈ s.net)
    {args : AppendEntryArgs n C} (hpay : m.payload = .appendReq args)
    (hraise : (s.proc m.server).rf.commitIndex <
      ((s.proc m.server).rf.appendEntry args).1.commitIndex) :
    ((s.proc m.server).rf.appendEntry args).1.commitIndex ≤
        args.prevLogIndex + args.entries.length ∧
      (∃ u, (u, .event (.send m.caller m.server)) ∈ tr ∧ m.BuiltIn u) ∧
      ∀ u, (u, .event (.send m.caller m.server)) ∈ tr → m.BuiltIn u →
        Vouches svc (u.proc m.caller).rf ((s.proc m.server).rf.appendEntry args).1
          ((s.proc m.server).rf.appendEntry args).1.commitIndex := by
  have hle := appendEntry_commit_le hraise
  have hout : m.outgoing = some (.append args) := by rw [Rpc.outgoing, hpay]
  obtain ⟨k, hk⟩ := List.mem_iff_getElem?.mp hm
  have hstep : s.step (.event (.handle k)) = some (s.handle m (s.net.eraseIdx k)) := by
    simp only [Cluster.step, Cluster.exec, hk, Option.map_some]
  have hnext : ((s.handle m (s.net.eraseIdx k)).proc m.server).rf =
      ((s.proc m.server).rf.appendEntry args).1 := by
    rw [handle_append hpay]
  have hallowed : Action.Allowed svc s (.event (.handle k)) := trivial
  obtain ⟨g, -, hc, hall⟩ := (h.step hallowed hstep).coupled
  have hn := hc.node m.server
  generalize (s.handle m (s.net.eraseIdx k)).proc m.server = p at hnext hn
  rw [← hnext] at hle ⊢
  -- at any moment of the run at which the message was built
  have hbuilt : ∀ u, (u, .event (.send m.caller m.server)) ∈ tr → m.BuiltIn u →
      p.rf.commitIndex ≤ args.prevLogIndex + args.entries.length ∧
        Vouches svc (u.proc m.caller).rf p.rf p.rf.commitIndex := by
    intro u hu hsend
    obtain ⟨gu, hgu, hcu⟩ := hall u
      (List.mem_append_left _ (List.mem_map.mpr ⟨_, List.mem_append_left _ hu, rfl⟩))
    have hnu := hcu.node m.caller
    obtain ⟨-, -, hcommit, hok⟩ := hnu.sends hcu.inv (hsend.2.trans hout)
    rw [hcommit] at hle
    have hlen := hle.trans hnu.log.commit_le
    refine ⟨hlen.trans hok.length.ge, hnu.vouches hcu.inv hn ?_ hlen⟩
    -- both prefixes are agreed, and of one length
    have hagreed : gu.core.AgreedBy (gu.core.term m.caller)
        ((gu.core.log m.caller).take p.rf.commitIndex) :=
      hnu.log.cert.shorten (List.take_prefix_take_left hle)
    refine Repl.Agreed.eq_of_length hc.inv (hagreed.ext hgu.1).agreed hn.log.cert.agreed ?_
    rw [List.length_take, List.length_take, min_eq_left hlen, min_eq_left hn.log.commit_le]
  obtain ⟨u, hu, hsend⟩ := (h.sentIn m hm).resolve_left (by rw [hout]; simp)
  exact ⟨(hbuilt u hu hsend).1, ⟨u, hu, hsend⟩, fun u hu hsend => (hbuilt u hu hsend).2⟩

/-- The leader of the sample has committed and sends again: peer 1 takes over its commit index. -/
theorem follower_commit_vouched_again :
    let s := sampleAt (electing ++ storing ++ committing ++ [.event (.send 0 1)])
    (s.proc 1).rf.commitIndex = 0 ∧
      ∃ m ∈ s.net, ∃ args, m.payload = .appendReq args ∧ m.caller = 0 ∧ m.server = 1 ∧
        ((s.proc 1).rf.appendEntry args).1.commitIndex = 1 ∧
        ∃ u, m.BuiltIn u ∧
          Vouches logService (u.proc 0).rf ((s.proc 1).rf.appendEntry args).1 1 := by
  have hrun := sample_run (electing ++ storing ++ committing ++ [.event (.send 0 1)]) (by decide)
  obtain ⟨-, ⟨u, hu, hbuilt⟩, hall⟩ := follower_commit_vouched hrun
    (m := ⟨0, 0, 1, .appendReq ⟨1, 0, 1, 1, [], 1⟩⟩) (List.mem_of_getElem? (i := 0) rfl) rfl (by decide)
  exact ⟨by decide, _, List.mem_of_getElem? (i := 0) rfl, _, rfl, rfl, rfl, by decide, u, hbuilt,
    hall u hu hbuilt⟩

end DistSys.Raft1
