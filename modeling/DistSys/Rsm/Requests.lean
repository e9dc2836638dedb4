import DistSys.Rsm.Deployed
import DistSys.Rsm.Steps

/- What the functions of a replica leave of the requests and of the answers of its calls.

   A call keeps its place and its request. It goes from the stages before `Start` to those after it
   and never back, so a request is handed to Raft once; and what `doSubmit` and `Submit` return is OK
   or ErrWrongLeader. Each function is looked at once (`RSM.Follows`). -/
namespace DistSys.Rsm

open Kvsrv1

variable {n : Nat} {Q R : Type} {M : StateMachine Q R}

/-- `doSubmit` has not got to `Start`. -/
def Stage.isEarly : Stage n Q R → Bool
  | .entered => true
  | .numbered _ => true
  | _ => false

theorem Stage.isEarly_mapPending (f : PendingOp n Q R → PendingOp n Q R) (st : Stage n Q R) :
    (st.mapPending f).isEarly = st.isEarly := by
  cases st <;> rfl

/-- The errors that are returned. -/
def Plain (answer : Option (Err × Option R)) : Prop :=
  ∀ err v, answer = some (err, v) → err = .ok ∨ err = .errWrongLeader

theorem Plain.none : Plain (R := R) none := by
  intro err v h
  contradiction

theorem Plain.wrongLeader (v : Option R) : Plain (some (.errWrongLeader, v)) := by
  intro err v' h
  obtain ⟨rfl, -⟩ := Prod.mk.inj (Option.some.inj h)
  exact Or.inr rfl

def Call.Plain (call : Call n Q R) : Prop := Rsm.Plain call.stage.outcome ∧ Rsm.Plain call.answer

/-- What a call becomes. -/
structure Call.Follows (old new : Call n Q R) : Prop where
  req : new.req = old.req
  early : new.stage.isEarly = true → old.stage.isEarly = true
  plain : old.Plain → new.Plain

namespace Call.Follows

theorem refl (call : Call n Q R) : call.Follows call := ⟨rfl, id, id⟩

theorem trans {call call' call'' : Call n Q R} (h : call.Follows call') (h' : call'.Follows call'') :
    call.Follows call'' :=
  ⟨h'.req.trans h.req, fun he => h.early (h'.early he), fun hp => h'.plain (h.plain hp)⟩

theorem mapPending (call : Call n Q R) (f : PendingOp n Q R → PendingOp n Q R) :
    call.Follows (call.mapPending f) where
  req := rfl
  early := fun h => by rwa [Call.mapPending, Stage.isEarly_mapPending] at h
  plain := fun h => by
    refine ⟨?_, h.2⟩
    rw [Call.mapPending, Stage.outcome_mapPending]
    exact h.1

theorem stage (call : Call n Q R) {st : Stage n Q R}
    (hearly : st.isEarly = true → call.stage.isEarly = true)
    (hplain : Rsm.Plain call.stage.outcome → Rsm.Plain st.outcome) :
    call.Follows { call with stage := st } :=
  ⟨rfl, hearly, fun h => ⟨hplain h.1, h.2⟩⟩

theorem answer (call : Call n Q R) {answer : Option (Err × Option R)}
    (h : Rsm.Plain call.stage.outcome → Rsm.Plain answer) :
    call.Follows { call with answer := answer } :=
  ⟨rfl, id, fun hplain => ⟨hplain.1, h hplain.1⟩⟩

end Call.Follows

namespace RSM

variable {rsm rsm' rsm'' : RSM n M} {c : Nat}

/-- The calls are those that were there before, at the same places. -/
structure Follows (rsm rsm' : RSM n M) : Prop where
  length : rsm'.calls.length = rsm.calls.length
  calls : ∀ (c : Nat) (call' : Call n Q R), rsm'.calls[c]? = some call' →
    ∃ call : Call n Q R, rsm.calls[c]? = some call ∧ call.Follows call'

namespace Follows

theorem of_calls (h : rsm'.calls = rsm.calls) : rsm.Follows rsm' := by
  refine ⟨congrArg List.length h, ?_⟩
  intro c call hcall
  rw [h] at hcall
  exact ⟨call, hcall, .refl call⟩

theorem trans (h : rsm.Follows rsm') (h' : rsm'.Follows rsm'') : rsm.Follows rsm'' := by
  refine ⟨h'.length.trans h.length, ?_⟩
  intro c call'' hcall''
  obtain ⟨call', hcall', hnew⟩ := h'.calls c call'' hcall''
  obtain ⟨call, hcall, hold⟩ := h.calls c call' hcall'
  exact ⟨call, hcall, hold.trans hnew⟩

/-- No call is lost. -/
theorem kept (h : rsm.Follows rsm') {call : Call n Q R} (hcall : rsm.calls[c]? = some call) :
    ∃ call' : Call n Q R, rsm'.calls[c]? = some call' ∧ call.Follows call' := by
  have hlt := (List.getElem?_eq_some_iff.mp hcall).1
  rw [← h.length] at hlt
  obtain ⟨old, hold, hfollows⟩ := h.calls c _ (List.getElem?_eq_getElem hlt)
  rw [hcall] at hold
  obtain rfl := Option.some.inj hold
  exact ⟨_, List.getElem?_eq_getElem hlt, hfollows⟩

theorem modify {f : Call n Q R → Call n Q R} (h : rsm'.calls = rsm.calls.modify c f)
    (hf : ∀ call, rsm.calls[c]? = some call → call.Follows (f call)) : rsm.Follows rsm' := by
  refine ⟨by rw [h, List.length_modify], ?_⟩
  intro d call' hcall'
  rw [h, List.getElem?_modify] at hcall'
  obtain ⟨call, hcall, rfl⟩ := Option.map_eq_some_iff.mp hcall'
  refine ⟨call, hcall, ?_⟩
  split
  · rename_i hd
    subst hd
    exact hf call hcall
  · exact .refl call

theorem setStage {old st : Stage n Q R} (hold : rsm.stage c = some old)
    (hearly : st.isEarly = true → old.isEarly = true) (hplain : Plain old.outcome → Plain st.outcome) :
    rsm.Follows (rsm.setStage c st) := by
  refine modify rfl ?_
  intro call hcall
  obtain rfl : call.stage = old := by
    rw [RSM.stage, hcall] at hold
    exact Option.some.inj hold
  exact .stage call hearly hplain

theorem setPending (rsm : RSM n M) (c : Nat) (f : PendingOp n Q R → PendingOp n Q R) :
    rsm.Follows (rsm.setPending c f) :=
  modify rfl fun call _ => .mapPending call f

theorem updateAt (rsm : RSM n M) (index : Nat) (f : PendingOp n Q R → PendingOp n Q R) :
    rsm.Follows (rsm.updateAt index f) := by
  unfold RSM.updateAt
  split
  · exact setPending rsm _ f
  · exact of_calls rfl

theorem notify (rsm : RSM n M) (at_ : Nat → Bool) (res : Bool) : rsm.Follows (rsm.notify at_ res) := by
  refine ⟨List.length_mapIdx, ?_⟩
  intro c call' hcall'
  rw [RSM.notify, List.getElem?_mapIdx] at hcall'
  obtain ⟨call, hcall, rfl⟩ := Option.map_eq_some_iff.mp hcall'
  refine ⟨call, hcall, ?_⟩
  split
  · split
    · exact .mapPending call _
    · exact .refl call
  · exact .refl call

/-- `Submit` returns. -/
theorem setAnswer {call : Call n Q R} (hcall : rsm.calls[c]? = some call)
    {answer : Option (Err × Option R)} (h : Plain call.stage.outcome → Plain answer) :
    rsm.Follows { rsm with calls := rsm.calls.set c { call with answer := answer } } := by
  refine ⟨List.length_set, ?_⟩
  intro d call' hcall'
  have hcall' : (rsm.calls.set c { call with answer := answer })[d]? = some call' := hcall'
  by_cases hd : c = d
  · subst hd
    rw [List.getElem?_set_self (List.getElem?_eq_some_iff.mp hcall).1] at hcall'
    obtain rfl := Option.some.inj hcall'
    exact ⟨call, hcall, .answer call h⟩
  · rw [List.getElem?_set_ne hd] at hcall'
    exact ⟨call', hcall', .refl call'⟩

/-! ## The functions -/

theorem submitDone (h : rsm.submitDone c = some rsm') : rsm.Follows rsm' := by
  obtain ⟨call, err, result, hcall, hstage, rfl⟩ := submitDone_cases h
  refine setAnswer hcall fun hplain => ?_
  rcases hstage with ⟨-, rfl, -⟩ | ⟨p, index, term, hstage⟩
  · exact .wrongLeader _
  · rw [hstage] at hplain
    exact hplain

theorem submitTimeout (h : rsm.submitTimeout c = some rsm') : rsm.Follows rsm' := by
  obtain ⟨call, hcall, rfl⟩ := submitTimeout_cases h
  exact setAnswer hcall fun _ => .wrongLeader _

theorem doSubmitNumber (h : rsm.doSubmitNumber c = some rsm') : rsm.Follows rsm' := by
  obtain ⟨call, hcall, hentered, hrsm⟩ := doSubmitNumber_cases h
  have hstage : rsm.stage c = some .entered := by rw [RSM.stage, hcall, Option.map_some, hentered]
  rcases hrsm with rfl | rfl
  · exact setStage hstage (fun _ => rfl) fun _ => .wrongLeader _
  · have hsame : rsm.Follows { rsm with opId := rsm.opId + 1 } := of_calls rfl
    exact hsame.trans (setStage hstage (fun _ => rfl) id)

/-- The call has gone to `Start`. -/
theorem doSubmitStarted {start : Option (Nat × Nat)} (h : rsm.doSubmitStarted c start = some rsm') :
    rsm.Follows rsm' ∧ ∀ st, rsm'.stage c = some st → st.isEarly = false := by
  obtain ⟨op, hst, ⟨-, rfl⟩ | ⟨index, term, -, rfl⟩⟩ := doSubmitStarted_cases h
  · refine ⟨setStage hst (fun _ => rfl) fun _ => .wrongLeader _, ?_⟩
    intro st hnew
    rw [stage_setStage, if_pos rfl, hst] at hnew
    obtain rfl := Option.some.inj hnew
    rfl
  · refine ⟨setStage hst (fun _ => rfl) id, ?_⟩
    intro st hnew
    rw [stage_setStage, if_pos rfl, hst] at hnew
    obtain rfl := Option.some.inj hnew
    rfl

theorem doSubmitRegister (h : rsm.doSubmitRegister c = some rsm') : rsm.Follows rsm' := by
  obtain ⟨p, index, term, hst, ⟨-, rfl⟩ | ⟨-, rfl⟩⟩ := doSubmitRegister_cases h
  · exact setStage hst (fun he => by simp [Stage.isEarly] at he) fun _ => .wrongLeader _
  · -- the op that was registered at the index is told to give up first
    refine (updateAt rsm index fun existingOp => existingOp.send false).trans ?_
    refine modify rfl fun call _ => .stage call (fun he => by simp [Stage.isEarly] at he) fun _ => .none

theorem waitDone (h : rsm.waitDone c = some rsm') : rsm.Follows rsm' := by
  obtain ⟨p, index, term, err, result, hst, hdone, rfl⟩ := waitDone_cases h
  refine setStage hst (fun he => by simp [Stage.isEarly] at he) fun _ => ?_
  rintro err' v heq
  obtain ⟨rfl, -⟩ := Prod.mk.inj (Option.some.inj heq)
  rcases hdone with ⟨-, rfl, -⟩ | ⟨-, rfl, -⟩
  · exact Or.inl rfl
  · exact Or.inr rfl

theorem waitShutdown (h : rsm.waitShutdown c = some rsm') : rsm.Follows rsm' := by
  obtain ⟨p, index, term, hst, rfl⟩ := waitShutdown_cases h
  exact setStage hst (fun he => by simp [Stage.isEarly] at he) fun _ => .wrongLeader _

theorem waitTimer {currentTerm : Nat} {isLeader : Bool}
    (h : rsm.waitTimer c currentTerm isLeader = some rsm') : rsm.Follows rsm' := by
  rcases waitTimer_cases h with rfl | ⟨p, index, term, hst, rfl⟩
  · exact of_calls rfl
  · exact setStage hst (fun he => by simp [Stage.isEarly] at he) fun _ => .wrongLeader _

theorem doSubmitRemove (h : rsm.doSubmitRemove c = some rsm') : rsm.Follows rsm' := by
  obtain ⟨p, index, term, err, result, hst, rfl⟩ := doSubmitRemove_cases h
  have hsame : rsm.Follows { rsm with
      pendingOps := fun i => if i = index then none else rsm.pendingOps i } := of_calls rfl
  exact hsame.trans (setStage hst (fun he => by simp [Stage.isEarly] at he) id)

theorem applyCommand (rsm : RSM n M) (index : Nat) (op : Op n Q) (large : Bool) :
    rsm.Follows (rsm.applyCommand index op large) := by
  rcases rsm.applyCommand_cases index op large with ⟨-, heq⟩ | ⟨-, due, heq⟩
  · rw [heq]
    exact of_calls rfl
  · rw [heq]
    exact (updateAt rsm index (rsm.answer op)).trans (of_calls rfl)

theorem applySnapshot {snapshotIndex : Nat} {data : Blob M.Bytes}
    (h : rsm.applySnapshot snapshotIndex data = some rsm') : rsm.Follows rsm' := by
  rcases applySnapshot_cases h with ⟨-, rfl⟩ | ⟨-, -, rfl⟩
  · exact of_calls rfl
  · have hsame : rsm.Follows { rsm with
        opId := data.opId
        lastApplied := snapshotIndex
        sm := M.restore rsm.sm data.smSnapshot } := of_calls rfl
    exact hsame.trans (notify _ _ _)

theorem readSnapshot (rsm : RSM n M) (snapshot : Option (Blob M.Bytes)) :
    rsm.Follows (rsm.readSnapshot snapshot) := by
  refine of_calls ?_
  unfold RSM.readSnapshot
  dsimp only
  split
  · split <;> rfl
  · rfl

theorem doShutdown (rsm : RSM n M) : rsm.Follows rsm.doShutdown := by
  have hsame : rsm.Follows { rsm with shutdown := true } := of_calls rfl
  exact (hsame.trans (notify _ (fun _ => true) false)).trans (of_calls rfl)

theorem reader {D : Type} {codec : Deployed.Codec M.Bytes D} {msg : Raft1.ApplyMsg (Op n Q) D}
    {large : Bool} (h : Deployed.reader codec rsm msg large = .ok rsm') : rsm.Follows rsm' := by
  unfold Deployed.reader at h
  split at h
  · unfold Deployed.applyCommand at h
    split at h
    · contradiction
    · obtain rfl := Except.ok.inj h
      exact applyCommand rsm _ _ large
  · split at h
    · unfold Deployed.applySnapshot at h
      split at h
      · obtain rfl := Except.ok.inj h
        exact of_calls rfl
      · split at h
        · contradiction
        · split at h
          · contradiction
          · rename_i happly
            obtain rfl := Except.ok.inj h
            exact applySnapshot happly
    · obtain rfl := Except.ok.inj h
      exact of_calls rfl

/-- `MakeRSM` goes on. -/
theorem makes {D : Type} {codec : Deployed.Codec M.Bytes D} {snapshot : Option D}
    (h : Deployed.readSnapshot codec rsm snapshot = .ok rsm') : rsm.Follows rsm' := by
  unfold Deployed.readSnapshot at h
  split at h
  · split at h
    · obtain rfl := Except.ok.inj h
      exact readSnapshot rsm none
    · split at h
      · contradiction
      · obtain rfl := Except.ok.inj h
        exact readSnapshot rsm _
  · obtain rfl := Except.ok.inj h
    exact readSnapshot rsm none

/-- Every step of the calls but a new one. -/
theorem callStep {state : Nat × Bool} {a : Deployed.CallStep Q}
    (h : Deployed.callStep rsm state a = some rsm') (hsubmit : ∀ req, a ≠ .submit req) :
    rsm.Follows rsm' := by
  cases a with
  | submit req => exact absurd rfl (hsubmit req)
  | submitDone c => exact submitDone h
  | submitTimeout c => exact submitTimeout h
  | number c => exact doSubmitNumber h
  | register c => exact doSubmitRegister h
  | waitDone c => exact waitDone h
  | waitShutdown c => exact waitShutdown h
  | waitTimer c => exact waitTimer h
  | remove c => exact doSubmitRemove h
  | kill =>
    obtain ⟨-, h⟩ := Option.ite_none_right_eq_some.mp h
    obtain rfl := Option.some.inj h
    exact doShutdown rsm

end Follows

/-- `Submit` is a new call, after those that are there. -/
theorem submit_calls (rsm : RSM n M) (req : Q) : ∃ call : Call n Q R,
    (rsm.submit req).calls = rsm.calls ++ [call] ∧ call.req = req ∧ call.Plain := by
  unfold submit
  split
  · exact ⟨_, rfl, rfl, .wrongLeader _, .wrongLeader _⟩
  · exact ⟨_, rfl, rfl, .none, .none⟩

end RSM

/-- A step of the calls of one server. -/
theorem Deployed.act_call {D : Type} {codec : Deployed.Codec M.Bytes D} {s t : Deployed.State n M D}
    {r : Fin n} {a : Deployed.CallStep Q} (h : s.act codec (.call r a) = some t) :
    ∃ rsm, Deployed.callStep (s.server r).rsm (s.raft.proc r).rf.getState a = some rsm ∧
      t = s.setServer r { s.server r with rsm := rsm } := by
  obtain ⟨-, h⟩ := Option.ite_none_left_eq_some.mp h
  obtain ⟨rsm, hrsm, rfl⟩ := Option.map_eq_some_iff.mp h
  exact ⟨rsm, hrsm, rfl⟩

/-- The calls stay in order through every step of theirs. -/
theorem RSM.Ok.callStep {St : Nat → Nat → Op n Q → Prop} {Good : Nat → Nat → Op n Q → Option R → Prop}
    {me : Fin n} {rsm rsm' : RSM n M} (h : rsm.Ok St Good me) {state : Nat × Bool}
    {a : Deployed.CallStep Q} (hs : Deployed.callStep rsm state a = some rsm') :
    rsm'.Ok St Good me := by
  cases a with
  | submit req =>
    obtain ⟨-, hs⟩ := Option.ite_none_right_eq_some.mp hs
    obtain rfl := Option.some.inj hs
    exact h.submit req
  | submitDone c => exact h.submitDone hs
  | submitTimeout c => exact h.submitTimeout hs
  | number c => exact h.doSubmitNumber hs
  | register c => exact h.doSubmitRegister hs
  | waitDone c => exact h.waitDone hs
  | waitShutdown c => exact h.waitShutdown hs
  | waitTimer c => exact h.waitTimer hs
  | remove c => exact h.doSubmitRemove hs
  | kill =>
    obtain ⟨-, hs⟩ := Option.ite_none_right_eq_some.mp hs
    obtain rfl := Option.some.inj hs
    exact h.doShutdown

end DistSys.Rsm
