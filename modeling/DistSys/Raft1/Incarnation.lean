import DistSys.Raft1.Simulation

/- What one incarnation of a peer keeps.

   A restart takes the commit index back to the first log index. Within one incarnation
   it never goes back, and an incarnation once ended does not come back: so two states of
   a run in which a peer is in the same incarnation have no restart of it in between. -/
namespace DistSys.Raft1

open Lib

variable {n : Nat} {C D : Type} {svc : Service C D} {s t : Cluster n C D}

/-! ## The commit index -/

section CommitIndex
variable (rf : Raft n C D)

theorem updateTermAndStepDown_commitIndex (T : Nat) :
    (rf.updateTermAndStepDown T).commitIndex = rf.commitIndex := by
  rcases Nat.lt_or_ge rf.currentTerm T with h | h
  · rw [updateTermAndStepDown_of_lt h]; rfl
  · rw [updateTermAndStepDown_of_le h]

theorem requestVote_commitIndex (args : RequestVoteArgs n) :
    (rf.requestVote args).1.commitIndex = rf.commitIndex := by
  unfold Raft.requestVote
  split
  · rfl
  · have h := updateTermAndStepDown_commitIndex rf args.term
    simp only
    split <;> exact h

theorem handleVoteReply_commitIndex (votes : Nat) (args : RequestVoteArgs n)
    (reply : RequestVoteReply) :
    (rf.handleVoteReply votes args reply).1.commitIndex = rf.commitIndex := by
  have hlead : (rf.changeState .leader).commitIndex = rf.commitIndex := by
    unfold Raft.changeState
    split <;> rfl
  unfold Raft.handleVoteReply
  split
  · split
    · split
      · exact hlead
      · rfl
    · split
      · exact updateTermAndStepDown_commitIndex rf _
      · rfl
  · rfl

theorem start_commitIndex (command : Option C) : (rf.start command).1.commitIndex = rf.commitIndex := by
  unfold Raft.start
  split <;> rfl

theorem snapshot_commitIndex (index : Nat) (data : D) :
    (rf.snapshot index data).commitIndex = rf.commitIndex := by
  unfold Raft.snapshot
  simp only
  split <;> rfl

theorem applier_commitIndex : rf.applier.1.commitIndex = rf.commitIndex := by
  unfold Raft.applier
  split
  · rfl
  · split
    · rfl
    · simp only
      split
      · rfl
      · split
        · rfl
        · split <;> rfl

theorem storeEntries_commitIndex (entries : List (LogEntry C)) :
    (rf.storeEntries entries).commitIndex = rf.commitIndex := by
  unfold Raft.storeEntries
  split <;> rfl

theorem le_advanceCommit (i : Nat) : rf.commitIndex ≤ (rf.advanceCommit i).commitIndex := by
  unfold Raft.advanceCommit
  simp only
  split
  · rename_i h; exact h.le
  · exact le_rfl

theorem le_appendEntry (args : AppendEntryArgs n C) :
    rf.commitIndex ≤ (rf.appendEntry args).1.commitIndex := by
  by_cases hlt : args.term < rf.currentTerm
  · unfold Raft.appendEntry
    rw [if_pos hlt]
  · rw [appendEntry_of_ge hlt]
    have h : rf.commitIndex =
        ({ rf.updateTermAndStepDown args.term with state := .follower } : Raft n C D).commitIndex :=
      (updateTermAndStepDown_commitIndex rf _).symm
    rw [h]
    unfold Raft.appendAsFollower
    split
    · exact le_rfl
    · split
      · exact le_rfl
      · exact (storeEntries_commitIndex _ _).ge.trans (le_advanceCommit _ _)

theorem le_installSnapShot (args : InstallSnapShotArgs n D) :
    rf.commitIndex ≤ (rf.installSnapShot args).1.commitIndex := by
  have hfollow : (rf.followSnapShot args.term).commitIndex = rf.commitIndex := by
    rcases Nat.lt_or_ge rf.currentTerm args.term with h | h
    · rw [followSnapShot_of_lt h]
    · rw [followSnapShot_of_le h]
  unfold Raft.installSnapShot
  simp only
  split
  · exact le_rfl
  · split
    · exact hfollow.ge
    · rw [← hfollow]
      unfold Raft.replaceBySnapShot Raft.persist
      cases args.data <;> exact le_max_left _ _

theorem le_acceptNewLogEntries (peer : Fin n) (args : AppendEntryArgs n C) :
    rf.commitIndex ≤ (rf.acceptNewLogEntries peer args).commitIndex := by
  obtain ⟨i, hle, heq⟩ := acceptNewLogEntries_eq rf peer args
  rw [heq]
  exact hle

theorem le_handleAppendReply (peer : Fin n) (args : AppendEntryArgs n C) (reply : AppendEntryReply) :
    rf.commitIndex ≤ (rf.handleAppendReply peer args reply).commitIndex := by
  unfold Raft.handleAppendReply
  split
  · exact le_rfl
  · split
    · split
      · exact (updateTermAndStepDown_commitIndex rf _).ge
      · exact le_rfl
    · exact le_acceptNewLogEntries rf peer args

theorem handleSnapShotReply_commitIndex (peer : Fin n) (args : InstallSnapShotArgs n D)
    (reply : InstallSnapShotReply) :
    (rf.handleSnapShotReply peer args reply).commitIndex = rf.commitIndex := by
  unfold Raft.handleSnapShotReply
  split
  · split
    · exact updateTermAndStepDown_commitIndex rf _
    · rfl
  · rfl

end CommitIndex

/-! ## Steps and runs -/

/-- `p'` is a later state of `p`, in the same incarnation or a later one. -/
structure Later (p p' : Process n C D) : Prop where
  life : p.incarnation ≤ p'.incarnation
  commit : p'.incarnation = p.incarnation → p.rf.commitIndex ≤ p'.rf.commitIndex

theorem Later.refl (p : Process n C D) : Later p p := ⟨le_rfl, fun _ => le_rfl⟩

theorem Later.trans {p p' p'' : Process n C D} (h : Later p p') (h' : Later p' p'') : Later p p'' := by
  refine ⟨h.life.trans h'.life, fun heq => ?_⟩
  have hlife := h.life
  have hlife' := h'.life
  exact (h.commit (by omega)).trans (h'.commit (by omega))

theorem Later.of_rf {p p' : Process n C D} (hlife : p'.incarnation = p.incarnation)
    (hcommit : p.rf.commitIndex ≤ p'.rf.commitIndex) : Later p p' :=
  ⟨hlife.ge, fun _ => hcommit⟩

theorem keeps_later (s : Cluster n C D) (a : Action n C D) :
    Keeps s a (fun me p => Later (s.proc me) p) (fun _ => True) where
  electionTimeout := fun me => by
    refine ⟨.of_rf rfl ?_, fun _ => trivial⟩
    rw [electionTimeout_eq]
    exact le_rfl
  start := fun me command => .of_rf rfl (start_commitIndex _ command).ge
  sendAppend := fun _ _ _ _ _ _ => trivial
  sendSnapshot := fun _ _ _ _ _ _ => trivial
  request := fun m _ rf reply hanswer => by
    refine ⟨.of_rf rfl ?_, trivial⟩
    generalize m.payload = payload at hanswer
    cases hanswer with
    | vote args => exact (requestVote_commitIndex _ args).ge
    | append args => exact le_appendEntry _ args
    | snapshot args => exact le_installSnapShot _ args
  reply := fun m _ _ p hreceive => by
    generalize m.payload = payload at hreceive
    cases hreceive with
    | vote args reply => exact .of_rf rfl (handleVoteReply_commitIndex _ _ args reply).ge
    | append args reply => exact .of_rf rfl (le_handleAppendReply _ _ args reply)
    | snapshot args reply => exact .of_rf rfl (handleSnapShotReply_commitIndex _ _ args reply).ge
  snapshot := fun me index data => .of_rf rfl (snapshot_commitIndex _ index data).ge
  applier := fun me => .of_rf rfl (applier_commitIndex _).ge
  deliver := fun me _ _ => .of_rf rfl le_rfl
  boot := fun _ _ _ _ _ => by
    refine ⟨Nat.le_succ _, fun heq => ?_⟩
    exact absurd heq (Nat.succ_ne_self _)

theorem step_later {a : Action n C D} (ht : s.step a = some t) (q : Fin n) :
    Later (s.proc q) (t.proc q) :=
  ((keeps_later s a).step (fun _ => .refl _) (fun _ _ => trivial) ht).1 q

theorem Run.later {tr : List (Cluster n C D × Action n C D)} (h : (system n svc).Run s tr t)
    (q : Fin n) : Later (s.proc q) (t.proc q) := by
  induction h with
  | nil => exact .refl _
  | snoc _ hstep ih => exact ih.trans (step_later hstep.2 q)

theorem exec_life {e : Event n C D} (ht : s.exec e = some t) (q : Fin n) :
    (t.proc q).incarnation = (s.proc q).incarnation := by
  rcases exec_proc ht with ⟨-, heq⟩ | ⟨me, p, -, heq, htouch⟩
  · rw [heq]
  · rw [heq]
    by_cases hq : q = me
    · subst hq
      rw [Function.update_self]
      exact htouch.life
    · rw [Function.update_of_ne hq]

/-- No event takes a commit index back. -/
theorem exec_commitIndex {e : Event n C D} (ht : s.exec e = some t) (q : Fin n) :
    (s.proc q).rf.commitIndex ≤ (t.proc q).rf.commitIndex := by
  have hlater := step_later (a := .event e) ht q
  exact hlater.commit (exec_life ht q)

end DistSys.Raft1
