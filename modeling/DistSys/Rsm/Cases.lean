import DistSys.Rsm.Node

/- What the functions of one replica come to when they are enabled.

   A function of `Submit` is enabled at one stage of its call. Each lemma says what that
   stage is and what the replica is afterwards, so that no invariant of the calls has to
   look into the functions again. -/
namespace DistSys.Rsm.RSM

open Kvsrv1

variable {n : Nat} {Q R : Type} {M : StateMachine Q R} {rsm rsm' : RSM n M} {c : Nat}

/-! ## Submit -/

theorem submitDone_cases (h : rsm.submitDone c = some rsm') :
    ∃ call err result, rsm.calls[c]? = some call ∧
      ((call.stage = .refused ∧ err = .errWrongLeader ∧ result = none) ∨
        ∃ p index term, call.stage = .returned p index term err result) ∧
      rsm' = { rsm with calls := rsm.calls.set c { call with answer := some (err, result) } } := by
  unfold submitDone at h
  split at h
  · rename_i hcall
    exact ⟨_, _, _, hcall, Or.inl ⟨rfl, rfl, rfl⟩, (Option.some.inj h).symm⟩
  · rename_i hcall
    exact ⟨_, _, _, hcall, Or.inr ⟨_, _, _, rfl⟩, (Option.some.inj h).symm⟩
  · contradiction

theorem submitTimeout_cases (h : rsm.submitTimeout c = some rsm') :
    ∃ call, rsm.calls[c]? = some call ∧ rsm' = { rsm with
      calls := rsm.calls.set c { call with answer := some (.errWrongLeader, none) } } := by
  unfold submitTimeout at h
  split at h
  · rename_i hcall
    exact ⟨_, hcall, (Option.some.inj h).symm⟩
  · contradiction

theorem doSubmitNumber_cases (h : rsm.doSubmitNumber c = some rsm') :
    ∃ call, rsm.calls[c]? = some call ∧ call.stage = .entered ∧
      (rsm' = rsm.setStage c .refused ∨
        rsm' = { rsm with opId := rsm.opId + 1 }.setStage c
          (.numbered { me := rsm.me, id := rsm.opId + 1, req := call.req })) := by
  unfold doSubmitNumber at h
  split at h
  · rename_i req answer hcall
    refine ⟨_, hcall, rfl, ?_⟩
    split at h
    · exact Or.inl (Option.some.inj h).symm
    · exact Or.inr (Option.some.inj h).symm
  · contradiction

theorem doSubmitStarted_cases {start : Option (Nat × Nat)}
    (h : rsm.doSubmitStarted c start = some rsm') :
    ∃ op, rsm.stage c = some (.numbered op) ∧
      ((start = none ∧ rsm' = rsm.setStage c .refused) ∨
        ∃ index term, start = some (index, term) ∧ rsm' = rsm.setStage c
          (.started { op := op, result := none, done := none } index term)) := by
  unfold doSubmitStarted at h
  split at h
  · rename_i op hst
    refine ⟨op, hst, ?_⟩
    split at h
    · exact Or.inl ⟨rfl, (Option.some.inj h).symm⟩
    · exact Or.inr ⟨_, _, rfl, (Option.some.inj h).symm⟩
  · contradiction

/-- A change of the pending op at an index changes the calls only. -/
theorem updateAt_eq (rsm : RSM n M) (index : Nat) (f : PendingOp n Q R → PendingOp n Q R) :
    rsm.updateAt index f = { rsm with calls := (rsm.updateAt index f).calls } := by
  unfold updateAt
  split <;> rfl

theorem doSubmitRegister_cases (h : rsm.doSubmitRegister c = some rsm') :
    ∃ p index term, rsm.stage c = some (.started p index term) ∧
      ((rsm.shutdown = true ∧ rsm' = rsm.setStage c .refused) ∨ (rsm.shutdown = false ∧
        rsm' = { rsm.updateAt index fun existingOp => existingOp.send false with
          pendingOps := fun i => if i = index then some c else rsm.pendingOps i }.setStage c
            (.waiting p index term))) := by
  unfold doSubmitRegister at h
  split at h
  · rename_i p index term hst
    refine ⟨p, index, term, hst, ?_⟩
    split at h
    · rename_i hshutdown
      exact Or.inl ⟨hshutdown, (Option.some.inj h).symm⟩
    · rename_i hshutdown
      refine Or.inr ⟨by simpa using hshutdown, ?_⟩
      have hpending : ∀ f, (rsm.updateAt index f).pendingOps = rsm.pendingOps := by
        intro f
        rw [updateAt_eq]
      rw [← Option.some.inj h, hpending]
  · contradiction

theorem waitDone_cases (h : rsm.waitDone c = some rsm') :
    ∃ p index term err result, rsm.stage c = some (.waiting p index term) ∧
      ((p.done = some true ∧ err = .ok ∧ result = p.result) ∨
        (p.done = some false ∧ err = .errWrongLeader ∧ result = none)) ∧
      rsm' = rsm.setStage c (.leaving { p with done := none } index term err result) := by
  unfold waitDone at h
  split at h
  · rename_i p index term hst
    split at h
    · contradiction
    · rename_i hdone
      exact ⟨p, index, term, _, _, hst, Or.inl ⟨hdone, rfl, rfl⟩, (Option.some.inj h).symm⟩
    · rename_i hdone
      exact ⟨p, index, term, _, _, hst, Or.inr ⟨hdone, rfl, rfl⟩, (Option.some.inj h).symm⟩
  · contradiction

theorem waitShutdown_cases (h : rsm.waitShutdown c = some rsm') :
    ∃ p index term, rsm.stage c = some (.waiting p index term) ∧
      rsm' = rsm.setStage c (.leaving p index term .errWrongLeader none) := by
  unfold waitShutdown at h
  split at h
  · rename_i p index term hst
    obtain ⟨-, h⟩ := Option.ite_none_right_eq_some.mp h
    exact ⟨p, index, term, hst, (Option.some.inj h).symm⟩
  · contradiction

theorem waitTimer_cases {currentTerm : Nat} {isLeader : Bool}
    (h : rsm.waitTimer c currentTerm isLeader = some rsm') :
    rsm' = rsm ∨ ∃ p index term, rsm.stage c = some (.waiting p index term) ∧
      rsm' = rsm.setStage c (.leaving p index term .errWrongLeader none) := by
  unfold waitTimer at h
  split at h
  · rename_i p index term hst
    split at h
    · exact Or.inr ⟨p, index, term, hst, (Option.some.inj h).symm⟩
    · exact Or.inl (Option.some.inj h).symm
  · contradiction

theorem doSubmitRemove_cases (h : rsm.doSubmitRemove c = some rsm') :
    ∃ p index term err result, rsm.stage c = some (.leaving p index term err result) ∧
      rsm' = { rsm with
        pendingOps := fun i => if i = index then none else rsm.pendingOps i }.setStage c
          (.returned p index term err result) := by
  unfold doSubmitRemove at h
  split at h
  · rename_i p index term err result hst
    exact ⟨p, index, term, err, result, hst, (Option.some.inj h).symm⟩
  · contradiction

/-! ## The reader -/

theorem applySnapshot_cases {snapshotIndex : Nat} {data : Blob M.Bytes}
    (h : rsm.applySnapshot snapshotIndex data = some rsm') :
    (snapshotIndex ≤ rsm.lastApplied ∧ rsm' = rsm) ∨
      (rsm.lastApplied < snapshotIndex ∧ data.lastApplied = snapshotIndex ∧
        rsm' = { rsm with
          opId := data.opId
          lastApplied := snapshotIndex
          sm := M.restore rsm.sm data.smSnapshot }.notify (fun index => index ≤ snapshotIndex)
            false) := by
  unfold applySnapshot at h
  split at h
  · rename_i hle
    exact Or.inl ⟨hle, (Option.some.inj h).symm⟩
  · rename_i hlt
    split at h
    · contradiction
    · rename_i heq
      exact Or.inr ⟨by omega, Decidable.not_not.mp heq, (Option.some.inj h).symm⟩

end DistSys.Rsm.RSM
