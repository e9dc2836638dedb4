import DistSys.Raft1.ApplyStep

/- Crashes: restarting from what the persister holds.

   A restart is coupled to the protocol state that the persister stands for
   (`Restartable`): nothing that was only in memory was ever part of it. A crash
   inside an event leaves one of the saves of the event as the last. All of them
   or none are the event having happened or not; the only events with two saves
   are those that raise the term first, and the first save is then a raised
   term by itself (`Saved`). -/
namespace DistSys.Raft1

open Lib

variable {n : Nat} {C D : Type} {svc : Service C D} {s : Cluster n C D} {g : Ghost n C D}

/-! ## Restarting -/

/-- The persister holds the durable state of `me`. -/
structure Restartable (svc : Service C D) (g : Ghost n C D) (me : Fin n) (ps : Persister n C D) :
    Prop where
  term : ps.state.currentTerm = g.core.term me
  vote : ps.state.voteFor = g.core.vote me
  logs : ps.state.logs = compact (g.core.log me) ps.state.lastIncludedIndex
  lastTerm : ps.state.lastIncludedTerm = termAt (g.core.log me) ps.state.lastIncludedIndex
  index_le : ps.state.lastIncludedIndex ≤ (g.core.log me).length
  cert : g.core.AgreedBy (g.core.term me) ((g.core.log me).take ps.state.lastIncludedIndex)
  saves : Saves svc g ps ps.state.lastIncludedIndex

theorem NodeInv.restartable {me : Fin n} {p : Process n C D} (h : NodeInv svc g me p) :
    Restartable svc g me p.rf.persister := by
  have hidx : p.rf.persister.state.lastIncludedIndex = p.rf.lastIncludedIndex := h.dur.index
  refine ⟨h.dur.term, h.dur.vote, ?_, ?_, ?_, ?_, ?_⟩ <;> rw [hidx]
  · exact h.dur.logs.trans h.log.logs
  · exact h.dur.lastTerm.trans h.log.term
  · exact h.log.first_len
  · exact h.log.cert.shorten (List.take_prefix_take_left (h.log.first_le.trans h.log.applied_le))
  · exact h.dur.saves

theorem make_eq (me : Fin n) (ps : Persister n C D) (h : ps.state.lastIncludedIndex =
    (ps.state.logs.headD default).index) : Raft.make me ps =
      { persister := ps
        me := me
        currentTerm := ps.state.currentTerm
        voteFor := ps.state.voteFor
        commitIndex := ps.state.lastIncludedIndex
        lastApplied := ps.state.lastIncludedIndex
        state := .follower
        nextIndex := fun _ => 1
        matchIndex := fun _ => 0
        logs := ps.state.logs
        lastIncludedIndex := ps.state.lastIncludedIndex
        lastIncludedTerm := ps.state.lastIncludedTerm
        pendingSnapshot := none } := by
  unfold Raft.make Raft.readPersist
  unfold Persister.state at h ⊢
  cases hps : ps.readRaftState with
  | none => rfl
  | some st =>
    rw [hps] at h
    simp only [Option.getD_some] at h ⊢
    simp only [Raft.getFirstLog, ← h]

theorem persister_make (me : Fin n) (ps : Persister n C D) :
    (Raft.make me ps).persister = ps ∧ (Raft.make me ps).state = .follower := by
  unfold Raft.make Raft.readPersist
  split <;> exact ⟨rfl, rfl⟩

theorem Restartable.boot {me : Fin n} {ps : Persister n C D} (h : Restartable svc g me ps)
    (inc : Nat) : NodeInv svc g me (Process.boot me inc ps) := by
  have hhead : ps.state.lastIncludedIndex = (ps.state.logs.headD default).index := by
    rw [h.logs, compact_head]
  have hmake := make_eq me ps hhead
  have hfirst : (Raft.make me ps).getFirstLog.index = ps.state.lastIncludedIndex := by
    rw [hmake, hhead]
    rfl
  unfold Process.boot
  simp only [hfirst]
  rw [hmake]
  refine ⟨rfl, ⟨h.logs, h.lastTerm, le_rfl, le_rfl, h.index_le, h.cert⟩, ?_,
    ⟨fun hs => by simp at hs, fun hs => by simp at hs⟩, ?_⟩
  · exact ⟨h.term, h.vote, rfl, rfl, rfl, h.saves, Or.inl ⟨h.term, h.vote⟩⟩
  · exact ⟨h.saves.snap, trivial, by simp, rfl⟩

/-- A peer restarts on a persister that some steps of its own account for; messages may be lost
with it. -/
theorem Coupled.restart (h : Coupled svc s g) {g' : Ghost n C D} {me : Fin n}
    {ps : Persister n C D} {net : List (Rpc n C D)} (hmv : Evolves me g g')
    (hps : Restartable svc g' me ps) (hsub : net.Sublist s.net) :
    Coupled svc (s.restart me ps net) g' := by
  have hsub' := hsub.filterMap Rpc.voteKey
  refine h.set hmv (hps.boot _) (fun m hm => (h.net m (hsub.subset hm)).mono hmv.le)
    (h.keys.sublist hsub') (fun x hx _ => hsub'.subset hx) (counted_of_ne ?_)
  simp [Process.boot, (persister_make me ps).2]

theorem coupled_crash (h : Coupled svc s g) (me : Fin n) {t : Cluster n C D}
    (ht : s.step (.crash me) = some t) : Coupled svc t g := by
  simp only [Cluster.step, Option.some.injEq] at ht
  subst ht
  exact h.restart (Moves.refl me g).toEvolves (h.node me).restartable (List.Sublist.refl _)

/-! ## The saves of an event -/

/-- What one event may add to the persister: nothing, one save, or two of which the first only
raises the term. -/
inductive Saved (rf : Raft n C D) : Raft n C D → Prop where
  | none {rf' : Raft n C D} (h : rf'.persister.saves = rf.persister.saves) : Saved rf rf'
  | one {rf' : Raft n C D} (sv : RaftState n C × Option D)
      (h : rf'.persister.saves = sv :: rf.persister.saves) : Saved rf rf'
  | two {rf' : Raft n C D} (sv : RaftState n C × Option D) (T : Nat) (v : Option (Fin n))
      (hT : rf.currentTerm < T) (h : rf'.persister.saves = sv ::
        ({ rf.raftState with currentTerm := T, voteFor := v }, rf.persister.readSnapshot) ::
          rf.persister.saves) : Saved rf rf'

theorem Saved.refl (rf : Raft n C D) : Saved rf rf := .none rfl

theorem Saved.congr {rf rf₁ rf₂ : Raft n C D} (h : Saved rf rf₁)
    (hp : rf₂.persister = rf₁.persister) : Saved rf rf₂ := by
  cases h with
  | none h => exact .none (by rw [hp]; exact h)
  | one sv h => exact .one sv (by rw [hp]; exact h)
  | two sv T v hT h => exact .two sv T v hT (by rw [hp]; exact h)

theorem saved_updateTermAndStepDown (rf : Raft n C D) (T : Nat) :
    Saved rf (rf.updateTermAndStepDown T) := by
  rcases Nat.lt_or_ge rf.currentTerm T with h | h
  · rw [updateTermAndStepDown_of_lt h]
    exact .one _ rfl
  · rw [updateTermAndStepDown_of_le h]
    exact .refl rf

/-- A save after `updateTermAndStepDown`. -/
theorem saved_after_stepDown {rf rf' : Raft n C D} {T : Nat} {sv : RaftState n C × Option D}
    (h : rf'.persister.saves = sv :: (rf.updateTermAndStepDown T).persister.saves) :
    Saved rf rf' := by
  rcases Nat.lt_or_ge rf.currentTerm T with hlt | hge
  · rw [updateTermAndStepDown_of_lt hlt] at h
    exact .two sv T none hlt h
  · rw [updateTermAndStepDown_of_le hge] at h
    exact .one sv h

theorem saved_electionTimeout (rf : Raft n C D) : Saved rf rf.electionTimeout.1 := by
  rw [electionTimeout_eq]
  exact .two _ (rf.currentTerm + 1) rf.voteFor (Nat.lt_succ_self _) rfl

theorem saved_requestVote (rf : Raft n C D) (args : RequestVoteArgs n) :
    Saved rf (rf.requestVote args).1 := by
  unfold Raft.requestVote
  split
  · exact .refl rf
  · simp only
    split
    · exact saved_updateTermAndStepDown rf args.term
    · exact saved_after_stepDown (T := args.term) rfl

theorem saved_appendEntry (rf : Raft n C D) (args : AppendEntryArgs n C) :
    Saved rf (rf.appendEntry args).1 := by
  by_cases hcond : args.term < rf.currentTerm
  · unfold Raft.appendEntry
    rw [if_pos hcond]
    exact .refl rf
  · rw [appendEntry_of_ge hcond]
    have hkeep : Saved rf { rf.updateTermAndStepDown args.term with state := .follower } :=
      (saved_updateTermAndStepDown rf args.term).congr rfl
    have hadv : ∀ (rf : Raft n C D) (i : Nat), (rf.advanceCommit i).persister = rf.persister := by
      intro rf i
      unfold Raft.advanceCommit
      simp only
      split <;> rfl
    unfold Raft.appendAsFollower
    split
    · exact hkeep
    · split
      · exact hkeep
      · simp only
        unfold Raft.storeEntries
        split
        · exact (saved_after_stepDown (T := args.term) rfl).congr (hadv _ _)
        · exact hkeep.congr (hadv _ _)

theorem saved_installSnapShot (rf : Raft n C D) (args : InstallSnapShotArgs n D) :
    Saved rf (rf.installSnapShot args).1 := by
  unfold Raft.installSnapShot
  simp only
  split
  · exact .refl rf
  · split
    · exact .none (by simp)
    · have hp := followSnapShot_persister rf args.term
      generalize rf.followSnapShot args.term = rf₁ at *
      have : ∃ sv, (rf₁.replaceBySnapShot args).persister.saves = sv :: rf₁.persister.saves := by
        unfold Raft.replaceBySnapShot Raft.persist
        cases args.data with
        | none => exact ⟨_, rfl⟩
        | some d => exact ⟨_, rfl⟩
      obtain ⟨sv, hsv⟩ := this
      exact .one sv (by rw [hsv, hp])

theorem saved_snapshot (rf : Raft n C D) (index : Nat) (data : D) :
    Saved rf (rf.snapshot index data) := by
  unfold Raft.snapshot
  simp only
  split
  · exact .refl rf
  · exact .one _ rfl

theorem saved_start (rf : Raft n C D) (command : Option C) : Saved rf (rf.start command).1 := by
  unfold Raft.start
  split
  · exact .refl rf
  · exact .one _ rfl

theorem saved_handleVoteReply (rf : Raft n C D) (votes : Nat) (args : RequestVoteArgs n)
    (reply : RequestVoteReply) : Saved rf (rf.handleVoteReply votes args reply).1 := by
  unfold Raft.handleVoteReply
  split
  · split
    · split
      · refine .none ?_
        unfold Raft.changeState
        split <;> rfl
      · exact .refl rf
    · split
      · exact saved_updateTermAndStepDown rf reply.term
      · exact .refl rf
  · exact .refl rf

theorem saved_handleAppendReply (rf : Raft n C D) (peer : Fin n) (args : AppendEntryArgs n C)
    (reply : AppendEntryReply) : Saved rf (rf.handleAppendReply peer args reply) := by
  unfold Raft.handleAppendReply
  split
  · exact .refl rf
  · split
    · split
      · exact saved_updateTermAndStepDown rf reply.term
      · exact .none rfl
    · obtain ⟨i, -, heq⟩ := acceptNewLogEntries_eq rf peer args
      rw [heq]
      exact .none rfl

theorem saved_handleSnapShotReply (rf : Raft n C D) (peer : Fin n)
    (args : InstallSnapShotArgs n D) (reply : InstallSnapShotReply) :
    Saved rf (rf.handleSnapShotReply peer args reply) := by
  unfold Raft.handleSnapShotReply
  split
  · split
    · exact saved_updateTermAndStepDown rf reply.term
    · exact .none rfl
  · exact .refl rf

theorem saved_applier (rf : Raft n C D) : Saved rf rf.applier.1 := by
  refine .none ?_
  unfold Raft.applier
  split
  · rfl
  · simp only
    repeat (split <;> try rfl)

end DistSys.Raft1
