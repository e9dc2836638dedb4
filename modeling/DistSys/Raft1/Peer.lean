import DistSys.Raft1.Frame

/- Reading and saving a coupled peer.

   The small functions of the source (`getFirstLog`, `isLogMatched`,
   `changeState`, `persist`) said once in terms of the whole log and the durable
   state, so that the handlers never unfold them. -/
namespace DistSys.Raft1

open Lib

variable {n : Nat} {C D : Type} {svc : Service C D}

/-! ## Reading the log -/

/-- The peer retains the log `ℓ` from its `lastIncludedIndex` on. -/
structure Shows (ℓ : List (Entry (Option C))) (rf : Raft n C D) : Prop where
  logs : rf.logs = compact ℓ rf.lastIncludedIndex
  term : rf.lastIncludedTerm = termAt ℓ rf.lastIncludedIndex
  first_len : rf.lastIncludedIndex ≤ ℓ.length

namespace Shows

variable {ℓ : List (Entry (Option C))} {rf : Raft n C D}

theorem first (h : Shows ℓ rf) :
    rf.getFirstLog = ⟨none, rf.lastIncludedTerm, rf.lastIncludedIndex⟩ := by
  rw [Raft.getFirstLog, h.logs, compact_head, h.term]

theorem latest (h : Shows ℓ rf) :
    rf.getLatestLog.index = ℓ.length ∧ rf.getLatestLog.term = lastTerm ℓ := by
  rw [Raft.getLatestLog, h.logs]
  exact compact_getLast h.first_len

theorem length (h : Shows ℓ rf) : rf.logs.length = ℓ.length - rf.lastIncludedIndex + 1 := by
  rw [h.logs, compact_length]

theorem getD (h : Shows ℓ rf) {i : Nat} (h₁ : rf.lastIncludedIndex ≤ i) (h₂ : i ≤ ℓ.length) :
    (rf.logs.getD (i - rf.lastIncludedIndex) default).term = termAt ℓ i ∧
      (rf.logs.getD (i - rf.lastIncludedIndex) default).index = i := by
  rw [h.logs]
  exact compact_getD h₁ h₂

theorem isLogMatched (h : Shows ℓ rf) {i t : Nat} : rf.isLogMatched i t = true ↔
    rf.lastIncludedIndex ≤ i ∧ i ≤ ℓ.length ∧ t = termAt ℓ i := by
  unfold Raft.isLogMatched Raft.isValidLogIndex
  rw [h.first, h.latest.1, h.length]
  simp only
  by_cases h₁ : rf.lastIncludedIndex ≤ i
  · by_cases h₂ : i ≤ ℓ.length
    · have hv : i - rf.lastIncludedIndex < ℓ.length - rf.lastIncludedIndex + 1 := by omega
      rw [if_neg (by omega), (h.getD h₁ h₂).1]
      simp [h₁, h₂, hv]
    · rw [if_pos (by omega)]
      simp [h₂]
  · rw [if_pos (by omega)]
    simp [h₁]

theorem isLogUpdateToDate (h : Shows ℓ rf) {K : List (Entry (Option C))} :
    rf.isLogUpdateToDate K.length (lastTerm K) = true ↔ UpToDate K ℓ := by
  unfold Raft.isLogUpdateToDate UpToDate
  rw [h.latest.1, h.latest.2]
  simp

end Shows

namespace LogInv

variable {g : Repl (Fin n) (Option C)} {me : Fin n} {rf : Raft n C D}

theorem first_len (h : LogInv g me rf) : rf.lastIncludedIndex ≤ (g.log me).length :=
  h.first_le.trans (h.applied_le.trans h.commit_le)

theorem shows (h : LogInv g me rf) : Shows (g.log me) rf := ⟨h.logs, h.term, h.first_len⟩

theorem first (h : LogInv g me rf) :
    rf.getFirstLog = ⟨none, rf.lastIncludedTerm, rf.lastIncludedIndex⟩ := h.shows.first

theorem latest (h : LogInv g me rf) :
    rf.getLatestLog.index = (g.log me).length ∧ rf.getLatestLog.term = lastTerm (g.log me) :=
  h.shows.latest

end LogInv

/-! ## Changing the role -/

theorem changeState_follower (rf : Raft n C D) :
    rf.changeState .follower = { rf with state := .follower } := by
  unfold Raft.changeState
  split
  · rename_i h
    cases rf
    simp_all
  · rfl

theorem changeState_candidate (rf : Raft n C D) :
    rf.changeState .candidate = { rf with state := .candidate } := by
  unfold Raft.changeState
  split
  · rename_i h
    cases rf
    simp_all
  · rfl

/-! ## Confirmations -/

/-- `acceptNewLogEntries` notes what the peer confirmed, and tests the largest index that more than
half of the peers have confirmed then. -/
theorem acceptNewLogEntries_selects (rf : Raft n C D) (peer : Fin n) (args : AppendEntryArgs n C) :
    ∃ v, (∀ N, n / 2 < (Finset.univ.filter (N ≤
        (rf.updateLogIndices peer (args.prevLogIndex + args.entries.length)).matchIndex ·)).card ↔
          N ≤ v) ∧
      rf.acceptNewLogEntries peer args =
        { rf.updateLogIndices peer (args.prevLogIndex + args.entries.length) with
          commitIndex := if rf.commitIndex < v ∧ rf.isLogMatched v rf.currentTerm = true then v
            else rf.commitIndex } := by
  obtain ⟨v, b, hsel, hv⟩ := quickSelect_majority
    (rf.updateLogIndices peer (args.prevLogIndex + args.entries.length)).matchIndex (Fin.pos peer)
  refine ⟨v, hv, ?_⟩
  unfold Raft.acceptNewLogEntries
  simp only [hsel]
  by_cases hraised : rf.commitIndex < v ∧ rf.isLogMatched v rf.currentTerm = true
  · rw [if_pos hraised]
    exact if_pos hraised
  · rw [if_neg hraised]
    exact if_neg hraised

/-- That index is one that some peer has confirmed. -/
theorem selected_le {confirmed : Fin n → Nat} {v bound : Nat}
    (hv : ∀ N, n / 2 < (Finset.univ.filter (N ≤ confirmed ·)).card ↔ N ≤ v)
    (hle : ∀ p, confirmed p ≤ bound) : v ≤ bound := by
  obtain ⟨p, hp⟩ := Finset.card_pos.mp (Nat.zero_lt_of_lt ((hv v).mpr le_rfl))
  exact (Finset.mem_filter.mp hp).2.trans (hle p)

theorem matchIndex_updateLogIndices_le {rf : Raft n C D} {i bound : Nat}
    (hle : ∀ p, rf.matchIndex p ≤ bound) (peer : Fin n) (hi : i ≤ bound) (p : Fin n) :
    (rf.updateLogIndices peer i).matchIndex p ≤ bound := by
  show Function.update rf.matchIndex peer i p ≤ bound
  rw [Function.update_apply]
  split
  · exact hi
  · exact hle p

/-- Apart from what the peer confirmed it may raise the commit index. -/
theorem acceptNewLogEntries_eq (rf : Raft n C D) (peer : Fin n) (args : AppendEntryArgs n C) :
    ∃ i, rf.commitIndex ≤ i ∧ rf.acceptNewLogEntries peer args =
      { rf.updateLogIndices peer (args.prevLogIndex + args.entries.length) with commitIndex := i } := by
  obtain ⟨v, -, heq⟩ := acceptNewLogEntries_selects rf peer args
  refine ⟨_, ?_, heq⟩
  split
  · rename_i hraised
    exact hraised.1.le
  · exact le_rfl

/-! ## Saving -/

theorem persistState_eq (rf : Raft n C D) : rf.persistState =
    { rf with persister := rf.persister.save rf.raftState rf.persister.readSnapshot } := rfl

@[simp] theorem readSnapshot_save (ps : Persister n C D) (st : RaftState n C) (o : Option D) :
    (ps.save st o).readSnapshot = o := by
  cases o <;> rfl

theorem Saves.save {g : Ghost n C D} {ps : Persister n C D} {i j : Nat} (h : Saves svc g ps i)
    {st : RaftState n C} {o : Option D} (ho : SnapFor svc g j o)
    (hst : (st.logs.headD default).index = j) (hidx : st.lastIncludedIndex = j) :
    Saves svc g (ps.save st o) j where
  snap := by rw [readSnapshot_save]; exact ho
  all := by
    intro sv hsv
    simp only [Persister.save, List.mem_cons] at hsv
    rcases hsv with rfl | hsv
    · exact ⟨hst.trans hidx.symm, hidx ▸ ho⟩
    · exact h.all sv hsv

/-- Saving the state again with the snapshot already there. -/
theorem Saves.again {g : Ghost n C D} {ps : Persister n C D} {i : Nat} (h : Saves svc g ps i)
    {st : RaftState n C} (hst : (st.logs.headD default).index = i) (hidx : st.lastIncludedIndex = i) :
    Saves svc g (ps.save st ps.readSnapshot) i :=
  h.save h.snap hst hidx

/-- A peer that has just saved is durable. -/
theorem Durable.of_save {g : Ghost n C D} {me : Fin n} {rf : Raft n C D} {ps : Persister n C D}
    {o : Option D} (hps : rf.persister = ps.save rf.raftState o)
    (ht : rf.currentTerm = g.core.term me) (hv : rf.voteFor = g.core.vote me)
    (hs : Saves svc g rf.persister rf.lastIncludedIndex) : Durable svc g me rf := by
  have hsaved : rf.persister.state = rf.raftState := by rw [hps]; rfl
  refine ⟨?_, ?_, ?_, ?_, ?_, hs, Or.inl ⟨ht, hv⟩⟩ <;> rw [hsaved]
  · exact ht
  · exact hv
  · rfl
  · rfl
  · rfl

/-- The saved term is never ahead of the one in memory. -/
theorem Durable.term_le {g : Ghost n C D} {me : Fin n} {rf : Raft n C D} (h : Durable svc g me rf) :
    g.core.term me ≤ rf.currentTerm := by
  rcases h.volatile with ⟨h, _⟩ | ⟨h, _⟩ <;> omega

/-- A candidate or leader is in its saved term with its saved vote. -/
theorem Durable.in_term {g : Ghost n C D} {me : Fin n} {rf : Raft n C D} (h : Durable svc g me rf)
    (hs : rf.state ≠ .follower) : rf.currentTerm = g.core.term me ∧ rf.voteFor = g.core.vote me := by
  rcases h.volatile with h | ⟨_, _, h⟩
  · exact h
  · exact absurd h hs

/-! ## Steps that do not touch the log -/

/-- The fields of the log and of the applier are the same. -/
structure SameLog (rf rf' : Raft n C D) : Prop where
  logs : rf'.logs = rf.logs
  index : rf'.lastIncludedIndex = rf.lastIncludedIndex
  term : rf'.lastIncludedTerm = rf.lastIncludedTerm
  commit : rf'.commitIndex = rf.commitIndex
  applied : rf'.lastApplied = rf.lastApplied

theorem LogInv.same {g g' : Repl (Fin n) (Option C)} {me : Fin n} {rf rf' : Raft n C D}
    (h : LogInv g me rf) (hs : SameLog rf rf') (hlog : g'.log me = g.log me) (he : g.Ext g') :
    LogInv g' me rf' where
  logs := by rw [hs.logs, hs.index, hlog]; exact h.logs
  term := by rw [hs.term, hs.index, hlog]; exact h.term
  first_le := by rw [hs.index, hs.applied]; exact h.first_le
  applied_le := by rw [hs.applied, hs.commit]; exact h.applied_le
  commit_le := by rw [hs.commit, hlog]; exact h.commit_le
  cert := by rw [hs.commit, hlog]; exact (h.cert.ext he).mono (he.term me)

theorem Pending.same {g : Ghost n C D} {rf rf' : Raft n C D} {y : Nat}
    (h : Pending svc g rf y) (hp : rf'.pendingSnapshot = rf.pendingSnapshot)
    (ha : rf'.lastApplied = rf.lastApplied) : Pending svc g rf' y := by
  unfold Pending at h ⊢
  rw [hp, ha]
  exact h

/-- The applier does not see a step that keeps `lastApplied` and the pending snapshot. -/
theorem Applying.same {g g' : Ghost n C D} {p p' : Process n C D} (h : Applying svc g p)
    (hg : g ≤ g') (hp : p'.rf.pendingSnapshot = p.rf.pendingSnapshot)
    (ha : p'.rf.lastApplied = p.rf.lastApplied) (hs : p'.sending = p.sending)
    (hc : p'.applyCh = p.applyCh) (hbi : p'.bootIndex = p.bootIndex)
    (hbs : p'.bootSnapshot = p.bootSnapshot) : Applying svc g' p' where
  boot := by rw [hbi, hbs]; exact h.boot.mono hg
  order := by rw [hbi, hc]; exact h.order
  content := by rw [hc]; exact fun m hm => (h.content m hm).mono hg
  next := by
    have := (h.mono hg).next
    rw [hs, hbi, hc]
    split
    · rename_i hsend
      rw [hsend] at this
      exact this.same hp ha
    · rename_i m hsend
      rw [hsend] at this
      exact ⟨this.1, this.2.1, this.2.2.same hp ha⟩

/-- Neither the persister nor anything it should hold changed. -/
theorem Durable.same {g g' : Ghost n C D} {me : Fin n} {rf rf' : Raft n C D}
    (h : Durable svc g me rf) (hg : g ≤ g') (hps : rf'.persister = rf.persister)
    (hlog : SameLog rf rf') (hvol : rf'.currentTerm = rf.currentTerm ∧ rf'.voteFor = rf.voteFor ∧
      rf'.state = rf.state) (hterm : g'.core.term me = g.core.term me)
    (hvote : g'.core.vote me = g.core.vote me) : Durable svc g' me rf' := by
  have hsaved : rf'.persister.state = rf.persister.state := by rw [hps]
  obtain ⟨ht, hv, hs⟩ := hvol
  refine ⟨?_, ?_, ?_, ?_, ?_, ?_, ?_⟩
  · rw [hsaved, hterm]; exact h.term
  · rw [hsaved, hvote]; exact h.vote
  · rw [hsaved, hlog.logs]; exact h.logs
  · rw [hsaved, hlog.index]; exact h.index
  · rw [hsaved, hlog.term]; exact h.lastTerm
  · rw [hps, hlog.index]; exact h.saves.mono hg
  · rw [ht, hv, hs, hterm, hvote]; exact h.volatile

/-- The head of a coupled log is the placeholder. -/
theorem LogInv.head {g : Repl (Fin n) (Option C)} {me : Fin n} {rf : Raft n C D}
    (h : LogInv g me rf) : (rf.logs.headD default).index = rf.lastIncludedIndex := by
  have := congrArg LogEntry.index h.first
  exact this

end DistSys.Raft1
