import DistSys.Rsm.Replay
import DistSys.Rsm.Calls

/- What a step of the cluster does to the calls of a replica.

   Most steps give out no id, register nothing and leave the reader where it is
   (`RSM.Quiet`); the six that do one of these are left to the results that are about
   them. `System.ok_step` is the step lemma for what a replica keeps of its calls
   (`RSM.Ok`), whatever a good answer is. -/
namespace DistSys.Rsm

variable {n : Nat} {Q R : Type} {M : StateMachine Q R}

/-! ## Stages after an update -/

/-- The op that a call takes to `Start`. -/
def Stage.toStart : Stage n Q R → Option (Op n Q)
  | .numbered op => some op
  | _ => none

namespace RSM

variable {rsm rsm' : RSM n M} {c : Nat}

theorem stage_setStage (rsm : RSM n M) (c d : Nat) (st : Stage n Q R) :
    (rsm.setStage c st).stage d = if d = c then (rsm.stage c).map fun _ => st else rsm.stage d := by
  simp only [stage, setStage, List.getElem?_modify]
  by_cases hd : d = c
  · subst hd
    cases rsm.calls[d]? <;> simp
  · cases rsm.calls[d]? <;> simp [hd, Ne.symm hd]

theorem stage_setPending (rsm : RSM n M) (c d : Nat) (f : PendingOp n Q R → PendingOp n Q R) :
    (rsm.setPending c f).stage d =
      if d = c then (rsm.stage c).map (Stage.mapPending f) else rsm.stage d := by
  simp only [stage, setPending, List.getElem?_modify]
  by_cases hd : d = c
  · subst hd
    cases rsm.calls[d]? <;> simp [Call.mapPending]
  · cases rsm.calls[d]? <;> simp [hd, Ne.symm hd]

theorem stage_notify (rsm : RSM n M) (at_ : Nat → Bool) (res : Bool) (d : Nat) :
    (rsm.notify at_ res).stage d = (rsm.stage d).map fun st =>
      if (rsm.registeredAt d).any at_ then st.mapPending (·.send res) else st := by
  simp only [stage, notify, List.getElem?_mapIdx, Option.map_map]
  cases rsm.calls[d]? with
  | none => rfl
  | some call =>
    cases rsm.registeredAt d with
    | none => rfl
    | some index =>
      simp only [Option.map_some, Function.comp_apply, Option.any_some]
      split <;> rfl

/-! ## Quiet steps -/

/-- No id is given out, nothing is registered, and the reader stays where it is. -/
structure Quiet (rsm rsm' : RSM n M) : Prop where
  opId : rsm'.opId = rsm.opId
  lastApplied : rsm'.lastApplied = rsm.lastApplied
  made : rsm'.made = rsm.made
  numbered : ∀ c op, rsm'.stage c = some (.numbered op) → rsm.stage c = some (.numbered op)
  pending : ∀ i c, rsm'.pendingOps i = some c → rsm.pendingOps i = some c

namespace Quiet

theorem refl (rsm : RSM n M) : rsm.Quiet rsm :=
  ⟨rfl, rfl, rfl, fun _ _ h => h, fun _ _ h => h⟩

/-- Only the calls change, and no stage becomes `numbered`. -/
theorem of_calls {calls : List (Call n Q R)}
    (h : ∀ (d : Nat) (call : Call n Q R) (op : Op n Q), calls[d]? = some call →
      call.stage = .numbered op → rsm.stage d = some (.numbered op)) :
    rsm.Quiet { rsm with calls := calls } where
  opId := rfl
  lastApplied := rfl
  made := rfl
  numbered := by
    intro d op hd
    obtain ⟨call, hcall, hstage⟩ := Option.map_eq_some_iff.mp hd
    exact h d call op hcall hstage
  pending := fun _ _ hi => hi

theorem setStage {st : Stage n Q R} (hst : st.toStart = none) :
    rsm.Quiet (rsm.setStage c st) where
  opId := rfl
  lastApplied := rfl
  made := rfl
  numbered := by
    intro d op hd
    rw [stage_setStage] at hd
    split at hd
    · obtain ⟨-, -, rfl⟩ := Option.map_eq_some_iff.mp hd
      contradiction
    · exact hd
  pending := fun _ _ hi => hi

theorem submit (rsm : RSM n M) (req : Q) : rsm.Quiet (rsm.submit req) := by
  have happend : ∀ call : Call n Q R, call.stage.toStart = none →
      rsm.Quiet { rsm with calls := rsm.calls ++ [call] } := by
    intro call hcall
    apply of_calls
    intro d call' op hd hstage
    rcases Nat.lt_or_ge d rsm.calls.length with hlt | hge
    · rw [List.getElem?_append_left hlt] at hd
      rw [stage, hd, ← hstage]
      rfl
    · rw [List.getElem?_append_right hge] at hd
      obtain rfl : call' = call := List.mem_singleton.mp (List.mem_of_getElem? hd)
      rw [hstage] at hcall
      contradiction
  unfold RSM.submit
  split
  · exact happend _ rfl
  · exact happend _ rfl

/-- `Submit` returns. -/
theorem answer {call : Call n Q R} (hcall : rsm.calls[c]? = some call)
    {answer : Option (Kvsrv1.Err × Option R)} :
    rsm.Quiet { rsm with calls := rsm.calls.set c { call with answer := answer } } := by
  apply of_calls
  intro d call' op hd hstage
  by_cases hdc : d = c
  · subst hdc
    rw [List.getElem?_set_self (List.getElem?_eq_some_iff.mp hcall).1] at hd
    obtain rfl := Option.some.inj hd
    rw [stage, hcall, ← hstage]
    rfl
  · rw [List.getElem?_set_ne (Ne.symm hdc)] at hd
    rw [stage, hd, ← hstage]
    rfl

theorem submitDone (h : rsm.submitDone c = some rsm') : rsm.Quiet rsm' := by
  obtain ⟨call, err, result, hcall, -, rfl⟩ := submitDone_cases h
  exact answer hcall

theorem submitTimeout (h : rsm.submitTimeout c = some rsm') : rsm.Quiet rsm' := by
  obtain ⟨call, hcall, rfl⟩ := submitTimeout_cases h
  exact answer hcall

theorem doSubmitStarted {start : Option (Nat × Nat)} (h : rsm.doSubmitStarted c start = some rsm') :
    rsm.Quiet rsm' := by
  obtain ⟨op, -, ⟨-, rfl⟩ | ⟨index, term, -, rfl⟩⟩ := doSubmitStarted_cases h
  · exact setStage rfl
  · exact setStage rfl

theorem waitDone (h : rsm.waitDone c = some rsm') : rsm.Quiet rsm' := by
  obtain ⟨p, index, term, err, result, -, -, rfl⟩ := waitDone_cases h
  exact setStage rfl

theorem waitShutdown (h : rsm.waitShutdown c = some rsm') : rsm.Quiet rsm' := by
  obtain ⟨p, index, term, -, rfl⟩ := waitShutdown_cases h
  exact setStage rfl

theorem waitTimer {currentTerm : Nat} {isLeader : Bool}
    (h : rsm.waitTimer c currentTerm isLeader = some rsm') : rsm.Quiet rsm' := by
  rcases waitTimer_cases h with rfl | ⟨p, index, term, -, rfl⟩
  · exact refl rsm'
  · exact setStage rfl

theorem doSubmitRemove (h : rsm.doSubmitRemove c = some rsm') : rsm.Quiet rsm' := by
  obtain ⟨p, index, term, err, result, -, rfl⟩ := doSubmitRemove_cases h
  obtain ⟨hopId, hlast, hmade, hnumbered, -⟩ :=
    @setStage n Q R M rsm c (.returned p index term err result) rfl
  refine ⟨hopId, hlast, hmade, hnumbered, ?_⟩
  intro i d hd
  have hd : (if i = index then none else rsm.pendingOps i) = some d := hd
  split at hd
  · contradiction
  · exact hd

theorem numbered_notify {at_ : Nat → Bool} {res : Bool} {op : Op n Q}
    (h : (rsm.notify at_ res).stage c = some (.numbered op)) : rsm.stage c = some (.numbered op) := by
  rw [stage_notify] at h
  obtain ⟨st, hst, heq⟩ := Option.map_eq_some_iff.mp h
  split at heq
  · rw [hst, Stage.mapPending_eq_numbered heq]
  · rw [hst, heq]

theorem doShutdown (rsm : RSM n M) : rsm.Quiet rsm.doShutdown where
  opId := rfl
  lastApplied := rfl
  made := rfl
  numbered := fun _ _ h => numbered_notify h
  pending := by
    intro i d hd
    have hd : none = some d := hd
    contradiction

end Quiet

/-! ## The reader -/

/-- What `applyCommand` does to the pending op at the index of a command. -/
def answer (rsm : RSM n M) (op : Op n Q) (pendingOp : PendingOp n Q R) : PendingOp n Q R :=
  if pendingOp.op.id = op.id ∧ pendingOp.op.me = rsm.me then
    { pendingOp with result := some (M.doOp rsm.sm op.req).2 }.send true
  else pendingOp.send false

theorem numbered_updateAt {index : Nat} {f : PendingOp n Q R → PendingOp n Q R} {op : Op n Q}
    (h : (rsm.updateAt index f).stage c = some (.numbered op)) :
    rsm.stage c = some (.numbered op) := by
  unfold updateAt at h
  split at h
  · rw [stage_setPending] at h
    split at h
    · rename_i heq
      obtain ⟨st, hst, hmap⟩ := Option.map_eq_some_iff.mp h
      rw [heq, hst, Stage.mapPending_eq_numbered hmap]
    · exact h
  · exact h

/-- An old command is skipped, a new one is executed and answered. -/
theorem applyCommand_cases (rsm : RSM n M) (index : Nat) (op : Op n Q) (large : Bool) :
    (index ≤ rsm.lastApplied ∧ rsm.applyCommand index op large = rsm) ∨
    (rsm.lastApplied < index ∧ ∃ due, rsm.applyCommand index op large =
      { rsm with
        sm := (M.doOp rsm.sm op.req).1
        lastApplied := index
        calls := (rsm.updateAt index (rsm.answer op)).calls
        snapshotDue := due }) := by
  rcases Nat.lt_or_ge rsm.lastApplied index with hnew | hold
  · refine Or.inr ⟨hnew, ?_⟩
    unfold applyCommand
    rw [if_neg (not_le.mpr hnew)]
    dsimp only
    generalize hanswered : RSM.updateAt _ index _ = answered
    have heq : answered = { rsm with
        sm := (M.doOp rsm.sm op.req).1
        lastApplied := index
        calls := (rsm.updateAt index (rsm.answer op)).calls } := by
      rw [← hanswered, updateAt, updateAt]
      cases rsm.pendingOps index <;> rfl
    rw [heq]
    split
    · exact ⟨_, rfl⟩
    · exact ⟨_, rfl⟩
  · exact Or.inl ⟨hold, if_pos hold⟩

theorem numbered_applySnapshot {snapshotIndex : Nat} {data : Blob M.Bytes} {op : Op n Q}
    (h : rsm.applySnapshot snapshotIndex data = some rsm')
    (hop : rsm'.stage c = some (.numbered op)) : rsm.stage c = some (.numbered op) := by
  rcases applySnapshot_cases h with ⟨-, rfl⟩ | ⟨-, -, rfl⟩
  · exact hop
  · exact Quiet.numbered_notify hop

theorem stage_readSnapshot (rsm : RSM n M) (snapshot : Option (Blob M.Bytes)) (c : Nat) :
    (rsm.readSnapshot snapshot).stage c = rsm.stage c := by
  unfold readSnapshot
  dsimp only
  split
  · split <;> rfl
  · rfl

theorem made_readSnapshot (rsm : RSM n M) (snapshot : Option (Blob M.Bytes)) :
    (rsm.readSnapshot snapshot).made = true := by
  unfold readSnapshot
  dsimp only
  split
  · split <;> rfl
  · rfl

/-- A call that goes to `Start` has its op before, and not after. -/
theorem doSubmitStarted_leaves {start : Option (Nat × Nat)}
    (h : rsm.doSubmitStarted c start = some rsm') :
    ∃ op, rsm.stage c = some (.numbered op) ∧ ∀ op', rsm'.stage c ≠ some (.numbered op') := by
  obtain ⟨op, hst, ⟨-, rfl⟩ | ⟨index, term, -, rfl⟩⟩ := doSubmitStarted_cases h
  · exact ⟨op, hst, by simp [stage_setStage, hst]⟩
  · exact ⟨op, hst, by simp [stage_setStage, hst]⟩

end RSM

/-! ## Steps of the cluster -/

/-- The steps that give out no id, register nothing and do not move a reader. -/
def Action.isQuiet : Action n Q → Bool
  | .number _ _ => false
  | .register _ _ => false
  | .deliver _ _ => false
  | .deliverSnapshot _ _ => false
  | .restart _ => false
  | .readSnapshot _ => false
  | _ => true

namespace System

variable {s t : System n M} {a : Action n Q}

theorem quiet_setReplica {r : Fin n} {rsm : RSM n M} (h : (s.replica r).Quiet rsm) (j : Fin n) :
    (s.replica j).Quiet ((s.setReplica r rsm).replica j) := by
  by_cases hj : j = r
  · subst hj
    simpa [setReplica] using h
  · simpa [setReplica, hj] using RSM.Quiet.refl (s.replica j)

theorem quiet_local {r : Fin n} {o : Option (RSM n M)} (hs : s.local_ r o = some t)
    (ho : ∀ rsm, o = some rsm → (s.replica r).Quiet rsm) :
    (∀ j, (s.replica j).Quiet (t.replica j)) ∧ t.life = s.life := by
  obtain ⟨rsm, hrsm, rfl⟩ := Option.map_eq_some_iff.mp hs
  exact ⟨quiet_setReplica (ho rsm hrsm), rfl⟩

theorem quiet_step (hs : s.step a = some t) (ha : a.isQuiet = true) :
    (∀ j, (s.replica j).Quiet (t.replica j)) ∧ t.life = s.life := by
  cases a with
  | submit r req =>
    obtain ⟨-, hs⟩ := Option.ite_none_right_eq_some.mp hs
    obtain rfl := Option.some.inj hs
    exact ⟨quiet_setReplica (RSM.Quiet.submit _ req), rfl⟩
  | submitDone r c => exact quiet_local hs fun _ => RSM.Quiet.submitDone
  | submitTimeout r c => exact quiet_local hs fun _ => RSM.Quiet.submitTimeout
  | number r c => contradiction
  | start r c answer =>
    cases answer with
    | none => exact quiet_local hs fun _ => RSM.Quiet.doSubmitStarted
    | some answer =>
      obtain ⟨op, raft, rsm, -, -, hrsm, rfl⟩ := start_cases hs
      exact ⟨@quiet_setReplica n Q R M { s with raft := raft } r rsm (RSM.Quiet.doSubmitStarted hrsm),
        rfl⟩
  | register r c => contradiction
  | waitDone r c => exact quiet_local hs fun _ => RSM.Quiet.waitDone
  | waitShutdown r c => exact quiet_local hs fun _ => RSM.Quiet.waitShutdown
  | waitTimer r c currentTerm isLeader => exact quiet_local hs fun _ => RSM.Quiet.waitTimer
  | remove r c => exact quiet_local hs fun _ => RSM.Quiet.doSubmitRemove
  | commit k =>
    obtain ⟨raft, -, rfl⟩ := Option.map_eq_some_iff.mp hs
    exact ⟨fun j => RSM.Quiet.refl (s.replica j), rfl⟩
  | deliver r large => contradiction
  | createSnapshot r =>
    have hskip := quiet_setReplica (s := s)
      (show (s.replica r).Quiet { s.replica r with snapshotDue := none } from
        ⟨rfl, rfl, rfl, fun _ _ h => h, fun _ _ h => h⟩)
    obtain ⟨index, -, rfl | ⟨i, data, -, rfl⟩⟩ := createSnapshot_cases hs
    · exact ⟨hskip, rfl⟩
    · exact ⟨hskip, rfl⟩
  | install r k =>
    obtain ⟨raft, -, rfl⟩ := Option.map_eq_some_iff.mp hs
    exact ⟨fun j => RSM.Quiet.refl (s.replica j), rfl⟩
  | deliverSnapshot r k => contradiction
  | kill r =>
    obtain rfl := Option.some.inj hs
    exact ⟨quiet_setReplica (RSM.Quiet.doShutdown _), rfl⟩
  | restart r => contradiction
  | readSnapshot r => contradiction

/-! ## A replica that is being made -/

/-- Nobody calls `Submit` before `MakeRSM` returns. -/
def NoCallsYet (s : System n M) : Prop :=
  ∀ r, (s.replica r).made = false → (s.replica r).calls = []

theorem NoCallsYet.initial (maxraftstate : Int) :
    (System.initial n M maxraftstate).NoCallsYet := by
  intro r _
  show (RSM.readSnapshot _ none).calls = []
  unfold RSM.readSnapshot
  dsimp only
  split <;> rfl

theorem NoCallsYet.setReplica (h : s.NoCallsYet) {r : Fin n} {rsm : RSM n M}
    (hr : rsm.made = false → rsm.calls = []) : (s.setReplica r rsm).NoCallsYet := by
  intro j
  by_cases hj : j = r
  · subst hj
    simpa [System.setReplica] using hr
  · simpa [System.setReplica, hj] using h j

/-- A call that does something exists. -/
theorem NoCallsYet.local_ (h : s.NoCallsYet) {r : Fin n} {o : Option (RSM n M)}
    (hs : s.local_ r o = some t) (hmade : ∀ rsm, o = some rsm → rsm.made = (s.replica r).made)
    (hcalls : (s.replica r).calls = [] → o = none) : t.NoCallsYet := by
  obtain ⟨rsm, rfl, rfl⟩ := Option.map_eq_some_iff.mp hs
  apply h.setReplica
  intro hnew
  rw [hmade rsm rfl] at hnew
  exact absurd (hcalls (h r hnew)) (by simp)

theorem NoCallsYet.step (h : s.NoCallsYet) (hs : s.step a = some t) : t.NoCallsYet := by
  cases a with
  | submit r req =>
    obtain ⟨hmade, hs⟩ := Option.ite_none_right_eq_some.mp hs
    obtain rfl := Option.some.inj hs
    apply h.setReplica
    rw [(RSM.Quiet.submit (s.replica r) req).made, hmade]
    exact fun hnew => absurd hnew (by decide)
  | submitDone r c =>
    exact h.local_ hs (fun _ ho => (RSM.Quiet.submitDone ho).made) fun hnil => by
      simp [RSM.submitDone, hnil]
  | submitTimeout r c =>
    exact h.local_ hs (fun _ ho => (RSM.Quiet.submitTimeout ho).made) fun hnil => by
      simp [RSM.submitTimeout, hnil]
  | number r c =>
    exact h.local_ hs (fun _ ho => congrArg View.made (RSM.view_doSubmitNumber ho)) fun hnil => by
      simp [RSM.doSubmitNumber, hnil]
  | start r c answer =>
    cases answer with
    | none =>
      exact h.local_ hs (fun _ ho => (RSM.Quiet.doSubmitStarted ho).made) fun hnil => by
        simp [RSM.doSubmitStarted, RSM.stage, hnil]
    | some answer =>
      obtain ⟨op, raft, rsm, hst, -, hrsm, rfl⟩ := start_cases hs
      refine @NoCallsYet.setReplica n Q R M { s with raft := raft } h r rsm ?_
      rw [(RSM.Quiet.doSubmitStarted hrsm).made]
      intro hnew
      simp [RSM.stage, h r hnew] at hst
  | register r c =>
    exact h.local_ hs (fun _ ho => congrArg View.made (RSM.view_doSubmitRegister ho)) fun hnil => by
      simp [RSM.doSubmitRegister, RSM.stage, hnil]
  | waitDone r c =>
    exact h.local_ hs (fun _ ho => (RSM.Quiet.waitDone ho).made) fun hnil => by
      simp [RSM.waitDone, RSM.stage, hnil]
  | waitShutdown r c =>
    exact h.local_ hs (fun _ ho => (RSM.Quiet.waitShutdown ho).made) fun hnil => by
      simp [RSM.waitShutdown, RSM.stage, hnil]
  | waitTimer r c currentTerm isLeader =>
    exact h.local_ hs (fun _ ho => (RSM.Quiet.waitTimer ho).made) fun hnil => by
      simp [RSM.waitTimer, RSM.stage, hnil]
  | remove r c =>
    exact h.local_ hs (fun _ ho => (RSM.Quiet.doSubmitRemove ho).made) fun hnil => by
      simp [RSM.doSubmitRemove, RSM.stage, hnil]
  | commit k =>
    obtain ⟨raft, -, rfl⟩ := Option.map_eq_some_iff.mp hs
    exact h
  | deliver r large =>
    obtain ⟨index, op, hreading, -, rfl⟩ := deliver_cases hs
    refine @NoCallsYet.setReplica n Q R M { s with raft := s.raft.advance r index } h r _ ?_
    have hmade : ((s.replica r).applyCommand index op large).made = true := by
      rcases (s.replica r).applyCommand_cases index op large with ⟨-, heq⟩ | ⟨-, due, heq⟩
      · rw [heq]
        exact made_of_reading hreading
      · rw [heq]
        exact made_of_reading hreading
    exact fun hnew => absurd (hmade.symm.trans hnew) (by decide)
  | createSnapshot r =>
    obtain ⟨index, -, rfl | ⟨i, data, -, rfl⟩⟩ := createSnapshot_cases hs
    · exact h.setReplica (h r)
    · exact @NoCallsYet.setReplica n Q R M s h r { s.replica r with snapshotDue := none } (h r)
  | install r k =>
    obtain ⟨index, data, -, -, rfl⟩ := install_cases hs
    exact h
  | deliverSnapshot r k =>
    obtain ⟨index, data, rsm, hreading, -, hrsm, rfl⟩ := deliverSnapshot_cases hs
    refine @NoCallsYet.setReplica n Q R M { s with raft := s.raft.advance r index } h r rsm ?_
    have hmade : rsm.made = true := by
      rcases RSM.view_applySnapshot hrsm with ⟨-, rfl⟩ | ⟨-, -, hview⟩
      · exact made_of_reading hreading
      · exact (congrArg View.made hview).trans (made_of_reading hreading)
    exact fun hnew => absurd (hmade.symm.trans hnew) (by decide)
  | kill r =>
    obtain rfl := Option.some.inj hs
    apply h.setReplica
    intro hnew
    have hnil : (s.replica r).calls = [] := h r hnew
    simp [RSM.doShutdown, RSM.notify, hnil]
  | restart r =>
    obtain rfl := Option.some.inj hs
    exact @NoCallsYet.setReplica n Q R M s h r (RSM.newRSM M r (s.replica r).maxraftstate) fun _ => rfl
  | readSnapshot r =>
    obtain ⟨-, hs⟩ := Option.ite_none_left_eq_some.mp hs
    obtain rfl := Option.some.inj hs
    apply h.setReplica
    rw [RSM.made_readSnapshot]
    exact fun hnew => absurd hnew (by decide)

/-! ## The log -/

/-- Only `Start` and agreement change what Raft has recorded. -/
theorem raft_cases (hs : s.step a = some t) :
    (t.raft.started = s.raft.started ∧ t.raft.agreed = s.raft.agreed) ∨
    (∃ r c index term op, a = .start r c (some (index, term)) ∧
      (s.replica r).stage c = some (.numbered op) ∧ s.raft.start r index term op = some t.raft) ∨
    ∃ k, s.raft.commit k = some t.raft := by
  have hlocal : ∀ {r : Fin n} {o : Option (RSM n M)}, s.local_ r o = some t →
      t.raft.started = s.raft.started ∧ t.raft.agreed = s.raft.agreed := by
    intro r o hs
    obtain ⟨rsm, -, rfl⟩ := Option.map_eq_some_iff.mp hs
    exact ⟨rfl, rfl⟩
  cases a with
  | submit r req =>
    obtain ⟨-, hs⟩ := Option.ite_none_right_eq_some.mp hs
    obtain rfl := Option.some.inj hs
    exact Or.inl ⟨rfl, rfl⟩
  | start r c answer =>
    cases answer with
    | none => exact Or.inl (hlocal hs)
    | some answer =>
      obtain ⟨index, term⟩ := answer
      obtain ⟨op, raft, rsm, hst, hraft, -, rfl⟩ := start_cases hs
      exact Or.inr (Or.inl ⟨r, c, index, term, op, rfl, hst, hraft⟩)
  | commit k =>
    obtain ⟨raft, hraft, rfl⟩ := Option.map_eq_some_iff.mp hs
    exact Or.inr (Or.inr ⟨k, hraft⟩)
  | deliver r large =>
    obtain ⟨index, op, -, -, rfl⟩ := deliver_cases hs
    exact Or.inl ⟨rfl, rfl⟩
  | createSnapshot r =>
    left
    obtain ⟨index, -, rfl | ⟨i, data, -, rfl⟩⟩ := createSnapshot_cases hs
    · exact ⟨rfl, rfl⟩
    · show (s.raft.snapshot r i data).started = _ ∧ (s.raft.snapshot r i data).agreed = _
      unfold SafeRaft.snapshot
      split <;> exact ⟨rfl, rfl⟩
  | install r k =>
    obtain ⟨index, data, -, -, rfl⟩ := install_cases hs
    exact Or.inl ⟨rfl, rfl⟩
  | deliverSnapshot r k =>
    obtain ⟨index, data, rsm, -, -, -, rfl⟩ := deliverSnapshot_cases hs
    exact Or.inl ⟨rfl, rfl⟩
  | kill r =>
    obtain rfl := Option.some.inj hs
    exact Or.inl ⟨rfl, rfl⟩
  | restart r =>
    obtain rfl := Option.some.inj hs
    exact Or.inl ⟨rfl, rfl⟩
  | readSnapshot r =>
    obtain ⟨-, hs⟩ := Option.ite_none_left_eq_some.mp hs
    obtain rfl := Option.some.inj hs
    exact Or.inl ⟨rfl, rfl⟩
  | _ => exact Or.inl (hlocal hs)

/-- Only a restart begins a new life. -/
theorem life_step (hs : s.step a = some t) {j : Fin n} (hj : a ≠ .restart j) :
    t.life j = s.life j := by
  cases ha : a.isQuiet with
  | true => rw [(quiet_step hs ha).2]
  | false =>
    cases a with
    | number r c =>
      obtain ⟨rsm, -, rfl⟩ := Option.map_eq_some_iff.mp hs
      rfl
    | register r c =>
      obtain ⟨rsm, -, rfl⟩ := Option.map_eq_some_iff.mp hs
      rfl
    | deliver r large =>
      obtain ⟨index, op, -, -, rfl⟩ := deliver_cases hs
      rfl
    | deliverSnapshot r k =>
      obtain ⟨index, data, rsm, -, -, -, rfl⟩ := deliverSnapshot_cases hs
      rfl
    | restart r =>
      obtain rfl := Option.some.inj hs
      apply Function.update_of_ne
      rintro rfl
      exact hj rfl
    | readSnapshot r =>
      obtain ⟨-, hs⟩ := Option.ite_none_left_eq_some.mp hs
      obtain rfl := Option.some.inj hs
      rfl
    | _ => contradiction

/-! ## The calls -/

section Ok

variable {St : Fin n → Nat → Nat → Op n Q → Prop}
  {Good : Fin n → Nat → Nat → Op n Q → Option R → Prop}

theorem ok_setReplica {r : Fin n} {rsm : RSM n M}
    (h : ∀ j, j ≠ r → (s.replica j).Ok (St j) (Good j) j) (hr : rsm.Ok (St r) (Good r) r) (j : Fin n) :
    ((s.setReplica r rsm).replica j).Ok (St j) (Good j) j := by
  by_cases hj : j = r
  · subst hj
    simpa [setReplica] using hr
  · simpa [setReplica, hj] using h j hj

theorem ok_local (h : ∀ j, (s.replica j).Ok (St j) (Good j) j) {r : Fin n} {o : Option (RSM n M)}
    (hs : s.local_ r o = some t)
    (ho : ∀ rsm, o = some rsm → (s.replica r).Ok (St r) (Good r) r → rsm.Ok (St r) (Good r) r) :
    ∀ j, (t.replica j).Ok (St j) (Good j) j := by
  obtain ⟨rsm, hrsm, rfl⟩ := Option.map_eq_some_iff.mp hs
  exact ok_setReplica (fun j _ => h j) (ho rsm hrsm (h r))

/-- A step keeps the calls in order, if an accepted `Start` is recorded and what the test of
`applyCommand` accepts is good. A replica that restarts has no calls to keep. -/
theorem ok_step (h : ∀ j, (∀ r, a = .restart r → j ≠ r) → (s.replica j).Ok (St j) (Good j) j)
    (hs : s.step a = some t)
    (hstart : ∀ r c index term op, a = .start r c (some (index, term)) →
      (s.replica r).stage c = some (.numbered op) → St r index term op)
    (hgood : ∀ r large index op, a = .deliver r large → s.raft.next r = some (index, op) →
      (s.replica r).lastApplied < index → ∀ c p term, (s.replica r).pendingOps index = some c →
      ((s.replica r).stage c).bind Stage.own = some (p, index, term) → p.op.id = op.id →
      p.op.me = r → St r index term p.op →
      Good r index term p.op (some (M.doOp (s.replica r).sm op.req).2)) :
    ∀ j, (t.replica j).Ok (St j) (Good j) j := by
  cases a with
  | restart r =>
    obtain rfl := Option.some.inj hs
    refine ok_setReplica (fun j hj => h j ?_) (RSM.Ok.newRSM r _)
    rintro r' ⟨rfl⟩
    exact hj
  | submit r req =>
    obtain ⟨-, hs⟩ := Option.ite_none_right_eq_some.mp hs
    obtain rfl := Option.some.inj hs
    exact ok_setReplica (fun j _ => h j (by simp)) ((h r (by simp)).submit req)
  | submitDone r c => exact ok_local (fun j => h j (by simp)) hs fun _ ho hok => hok.submitDone ho
  | submitTimeout r c =>
    exact ok_local (fun j => h j (by simp)) hs fun _ ho hok => hok.submitTimeout ho
  | number r c => exact ok_local (fun j => h j (by simp)) hs fun _ ho hok => hok.doSubmitNumber ho
  | start r c answer =>
    cases answer with
    | none =>
      exact ok_local (fun j => h j (by simp)) hs fun _ ho hok => hok.doSubmitStarted (by simp) ho
    | some answer =>
      obtain ⟨index, term⟩ := answer
      obtain ⟨op, raft, rsm, hst, -, hrsm, rfl⟩ := start_cases hs
      refine @ok_setReplica n Q R M { s with raft := raft } St Good r rsm (fun j _ => h j (by simp)) ?_
      apply (h r (by simp)).doSubmitStarted _ hrsm
      intro op' index' term' hst' heq
      obtain ⟨rfl, rfl⟩ := Prod.mk.inj (Option.some.inj heq)
      exact hstart r c index term op' rfl hst'
  | register r c =>
    exact ok_local (fun j => h j (by simp)) hs fun _ ho hok => hok.doSubmitRegister ho
  | waitDone r c => exact ok_local (fun j => h j (by simp)) hs fun _ ho hok => hok.waitDone ho
  | waitShutdown r c =>
    exact ok_local (fun j => h j (by simp)) hs fun _ ho hok => hok.waitShutdown ho
  | waitTimer r c currentTerm isLeader =>
    exact ok_local (fun j => h j (by simp)) hs fun _ ho hok => hok.waitTimer ho
  | remove r c => exact ok_local (fun j => h j (by simp)) hs fun _ ho hok => hok.doSubmitRemove ho
  | commit k =>
    obtain ⟨raft, -, rfl⟩ := Option.map_eq_some_iff.mp hs
    exact fun j => h j (by simp)
  | deliver r large =>
    obtain ⟨index, op, -, hnext, rfl⟩ := deliver_cases hs
    refine @ok_setReplica n Q R M { s with raft := s.raft.advance r index } St Good r _
      (fun j _ => h j (by simp)) ?_
    apply (h r (by simp)).applyCommand
    exact hgood r large index op rfl hnext
  | createSnapshot r =>
    have hskip := ok_setReplica (s := s) (fun j _ => h j (by simp))
      (show ({ s.replica r with snapshotDue := none } : RSM n M).Ok (St r) (Good r) r from
        (h r (by simp)).congr rfl rfl rfl)
    obtain ⟨index, -, rfl | ⟨i, data, -, rfl⟩⟩ := createSnapshot_cases hs
    · exact hskip
    · exact hskip
  | install r k =>
    obtain ⟨raft, -, rfl⟩ := Option.map_eq_some_iff.mp hs
    exact fun j => h j (by simp)
  | deliverSnapshot r k =>
    obtain ⟨index, data, rsm, -, -, hrsm, rfl⟩ := deliverSnapshot_cases hs
    exact @ok_setReplica n Q R M { s with raft := s.raft.advance r index } St Good r rsm
      (fun j _ => h j (by simp)) ((h r (by simp)).applySnapshot hrsm)
  | kill r =>
    obtain rfl := Option.some.inj hs
    exact ok_setReplica (fun j _ => h j (by simp)) (h r (by simp)).doShutdown
  | readSnapshot r =>
    obtain ⟨-, hs⟩ := Option.ite_none_left_eq_some.mp hs
    obtain rfl := Option.some.inj hs
    exact ok_setReplica (fun j _ => h j (by simp)) ((h r (by simp)).readSnapshot _)

end Ok

/-- The calls are in order, whatever a good answer is. -/
def Orderly (s : System n M) : Prop :=
  ∀ r, (s.replica r).Ok (fun _ _ _ => True) (fun _ _ _ _ => True) r

theorem Orderly.initial (maxraftstate : Int) : (System.initial n M maxraftstate).Orderly :=
  fun r => (RSM.Ok.newRSM r maxraftstate).readSnapshot none

theorem Orderly.step (h : s.Orderly) (hs : s.step a = some t) : t.Orderly :=
  ok_step (fun j _ => h j) hs (fun _ _ _ _ _ _ _ => trivial)
    (fun _ _ _ _ _ _ _ _ _ _ _ _ _ _ _ => trivial)

end System

end DistSys.Rsm
