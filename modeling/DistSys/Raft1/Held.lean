import DistSys.Raft1.CrashStep

/- Which snapshot a peer holds.

   The persister has one snapshot, kept with the index that the log starts from.
   Two functions change it: `Snapshot`, when the service hands one over, and
   `InstallSnapShot`, for one beyond what is applied. Every other save repeats it. -/
namespace DistSys.Raft1

open Lib

variable {n : Nat} {C D : Type} {svc : Service C D} {g : Ghost n C D}

/-- The snapshot in the persister, and the index of the entry it ends with. -/
def Raft.held (rf : Raft n C D) : Option D × Nat := (rf.persister.readSnapshot, rf.lastIncludedIndex)

@[simp] theorem held_persistState (rf : Raft n C D) : rf.persistState.held = rf.held := by
  simp [Raft.held, persistState_eq]

@[simp] theorem held_updateTermAndStepDown (rf : Raft n C D) (T : Nat) :
    (rf.updateTermAndStepDown T).held = rf.held := by
  rcases Nat.lt_or_ge rf.currentTerm T with h | h
  · rw [updateTermAndStepDown_of_lt h, held_persistState]
    rfl
  · rw [updateTermAndStepDown_of_le h]

theorem held_changeState (rf : Raft n C D) (st : ServerState) : (rf.changeState st).held = rf.held := by
  unfold Raft.changeState
  split
  · rfl
  · cases st <;> rfl

theorem held_electionTimeout (rf : Raft n C D) : rf.electionTimeout.1.held = rf.held := by
  rw [electionTimeout_eq]
  simp only [held_persistState]
  exact held_persistState _

theorem held_start (rf : Raft n C D) (command : Option C) : (rf.start command).1.held = rf.held := by
  unfold Raft.start
  split
  · rfl
  · exact held_persistState _

theorem held_requestVote (rf : Raft n C D) (args : RequestVoteArgs n) :
    (rf.requestVote args).1.held = rf.held := by
  unfold Raft.requestVote
  split
  · rfl
  · simp only
    split
    · exact held_updateTermAndStepDown rf args.term
    · rw [held_persistState]
      exact held_updateTermAndStepDown rf args.term

theorem held_appendAsFollower (rf : Raft n C D) (args : AppendEntryArgs n C) :
    (rf.appendAsFollower args).1.held = rf.held := by
  have hadv : ∀ (rf : Raft n C D) (i : Nat), (rf.advanceCommit i).held = rf.held := by
    intro rf i
    unfold Raft.advanceCommit
    simp only
    split <;> rfl
  have hstore : ∀ (rf : Raft n C D) (es : List (LogEntry C)), (rf.storeEntries es).held = rf.held := by
    intro rf es
    unfold Raft.storeEntries
    split
    · exact held_persistState _
    · rfl
  unfold Raft.appendAsFollower
  split
  · rfl
  · split
    · rfl
    · exact (hadv _ _).trans (hstore _ _)

theorem held_appendEntry (rf : Raft n C D) (args : AppendEntryArgs n C) :
    (rf.appendEntry args).1.held = rf.held := by
  by_cases hcond : args.term < rf.currentTerm
  · unfold Raft.appendEntry
    rw [if_pos hcond]
  · rw [appendEntry_of_ge hcond, held_appendAsFollower]
    exact held_updateTermAndStepDown rf args.term

theorem held_handleVoteReply (rf : Raft n C D) (votes : Nat) (args : RequestVoteArgs n)
    (reply : RequestVoteReply) : (rf.handleVoteReply votes args reply).1.held = rf.held := by
  unfold Raft.handleVoteReply
  split
  · split
    · split
      · exact held_changeState rf .leader
      · rfl
    · split
      · exact held_updateTermAndStepDown rf reply.term
      · rfl
  · rfl

theorem held_handleAppendReply (rf : Raft n C D) (peer : Fin n) (args : AppendEntryArgs n C)
    (reply : AppendEntryReply) : (rf.handleAppendReply peer args reply).held = rf.held := by
  unfold Raft.handleAppendReply
  split
  · rfl
  · split
    · split
      · exact held_updateTermAndStepDown rf reply.term
      · rfl
    · obtain ⟨i, -, heq⟩ := acceptNewLogEntries_eq rf peer args
      rw [heq]
      rfl

theorem held_handleSnapShotReply (rf : Raft n C D) (peer : Fin n) (args : InstallSnapShotArgs n D)
    (reply : InstallSnapShotReply) : (rf.handleSnapShotReply peer args reply).held = rf.held := by
  unfold Raft.handleSnapShotReply
  split
  · split
    · exact held_updateTermAndStepDown rf reply.term
    · rfl
  · rfl

theorem held_applier (rf : Raft n C D) : rf.applier.1.held = rf.held := by
  unfold Raft.applier
  split
  · rfl
  · simp only
    repeat (split <;> try rfl)

/-- The snapshot is kept or replaced by one beyond what is applied. -/
def Holds (rf rf' : Raft n C D) : Prop :=
  rf'.held = rf.held ∨ rf.lastApplied < rf'.lastIncludedIndex

theorem holds_installSnapShot (rf : Raft n C D) (args : InstallSnapShotArgs n D) :
    Holds rf (rf.installSnapShot args).1 := by
  have hfollow : (rf.followSnapShot args.term).held = rf.held := by
    rcases Nat.lt_or_ge rf.currentTerm args.term with h | h
    · rw [followSnapShot_of_lt h]
      rfl
    · rw [followSnapShot_of_le h]
      rfl
  have hreplace : ∀ rf : Raft n C D,
      (rf.replaceBySnapShot args).lastIncludedIndex = args.lastIncludedIndex := by
    intro rf
    unfold Raft.replaceBySnapShot Raft.persist
    cases args.data <;> rfl
  unfold Raft.installSnapShot
  simp only
  split
  · exact Or.inl rfl
  · split
    · exact Or.inl hfollow
    · rename_i hnew
      right
      rw [hreplace]
      simpa using hnew

/-- `Snapshot` at a service that has reached the index: ignored for an index not beyond the one
held, otherwise saved. -/
theorem held_snapshot {me : Fin n} {p : Process n C D} (h : NodeInv svc g me p) {index : Nat}
    (hidx : index ≤ p.rf.lastApplied) (data : D) :
    (index ≤ p.rf.lastIncludedIndex ∧ p.rf.snapshot index data = p.rf) ∨
      (p.rf.lastIncludedIndex < index ∧ (p.rf.snapshot index data).held = (some data, index)) := by
  have hlen : index ≤ (g.core.log me).length := hidx.trans (h.log.applied_le.trans h.log.commit_le)
  unfold Raft.snapshot
  simp only [h.log.first, h.log.latest.1]
  split
  · rename_i hc
    exact Or.inl ⟨hc.resolve_right (by omega), rfl⟩
  · rename_i hc
    refine Or.inr ⟨by omega, ?_⟩
    have hentry := (h.log.shows.getD (i := index) (by omega) hlen).2
    simp only [Raft.held, Raft.persist, readSnapshot_save, hentry]

/-! ## The persister -/

def Persister.held (ps : Persister n C D) : Option D × Nat :=
  (ps.readSnapshot, ps.state.lastIncludedIndex)

theorem NodeInv.held {me : Fin n} {p : Process n C D} (h : NodeInv svc g me p) :
    p.rf.persister.held = p.rf.held :=
  Prod.ext rfl h.dur.index

/-- A new incarnation holds what the persister does, and its service is at the index of that. -/
theorem NodeInv.booted {me : Fin n} {inc : Nat} {ps : Persister n C D}
    (h : NodeInv svc g me (Process.boot me inc ps)) :
    (Process.boot me inc ps).rf.held = ps.held ∧ (Process.boot me inc ps).position = ps.held.2 := by
  have hheld : (Process.boot me inc ps).rf.held = ps.held := by
    rw [← h.held]
    exact congrArg Persister.held (persister_make me ps).1
  exact ⟨hheld, (congrArg LogEntry.index h.log.first).trans (congrArg Prod.snd hheld)⟩

/-- What is left of an event without its last save holds the snapshot from before it. -/
theorem Saved.held_part {rf rf' : Raft n C D} (h : Saved rf rf') (hps : rf.persister.held = rf.held)
    {k : Nat} (hpos : k ≠ 0)
    (hk : rf.persister.saves.length + k ≤ rf'.persister.saves.length) :
    Persister.held (⟨rf'.persister.saves.drop k⟩ : Persister n C D) = rf.held := by
  cases h with
  | none heq => rw [heq] at hk; omega
  | one sv heq =>
    rw [heq] at hk ⊢
    obtain rfl : k = 1 := by simp at hk; omega
    exact hps
  | two sv T v hT heq =>
    rw [heq] at hk ⊢
    obtain rfl | rfl : k = 1 ∨ k = 2 := by simp at hk; omega
    · rfl
    · exact hps

end DistSys.Raft1
