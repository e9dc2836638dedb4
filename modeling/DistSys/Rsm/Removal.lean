import DistSys.Rsm.WakeUp

/- Whether a registered op stays in the map.

   `doSubmit` ends by deleting what is in `pendingOps` at its index, whoever registered it.
   A call that gets the index of an older one in a later term replaces it and tells it to give
   up; the older one then wakes up and deletes the registration of the newer
   (`older_removes_newer`), which the reader does not find any more.

   What counts is small: the index that each call between its registration and its
   removal holds, the map, and the shutdown flag (`Slots`). Only four kinds of step change
   it (`slots_step`). As long as nobody registers at an index that is taken (`Vacant`), every call
   that holds an index is in the map there, so a removal finds only its own. -/
namespace DistSys.Rsm

open Lib

variable {n : Nat} {Q R : Type} {M : StateMachine Q R}

/-! ## What is to be shown -/

/-- The replica, the index and the call of a registration. -/
def registers (s : System n M) : Action n Q → Option (Fin n × Nat × Nat)
  | .register r c =>
    match (s.replica r).shutdown, (s.replica r).stage c with
    | false, some (.started _ index _) => some (r, index, c)
    | _, _ => none
  | _ => none

/-- The steps that may end the registration of a call at an index: its own removal, another
registration there, the shutdown, and a restart. -/
def ends (r : Fin n) (i c : Nat) (x : System n M × Action n Q) : Bool :=
  match x.2 with
  | .remove j d => j = r && d = c
  | .kill j => j = r
  | .restart j => j = r
  | a => (registers x.1 a).any fun y => y.1 = r && y.2.1 = i

/-- Every registration of a run that no step has ended is in the map. -/
def Stays (tr : Trace n M) (s : System n M) : Prop :=
  ∀ before x rest r i c, tr = before ++ x :: rest → registers x.1 x.2 = some (r, i, c) →
    (∀ y ∈ rest, ends r i c y = false) → (s.replica r).pendingOps i = some c

/-- The index that a call registers at is not taken. -/
def Vacant (s : System n M) (a : Action n Q) : Prop :=
  ∀ x ∈ registers s a, (s.replica x.1).pendingOps x.2.1 = none

instance (s : System n M) (a : Action n Q) : Decidable (Vacant s a) := Option.decidableForallMem _

/-! ## Slots -/

/-- The index that a call is registered at and has not removed yet. -/
def Stage.held : Stage n Q R → Option Nat
  | waiting _ index _ => some index
  | leaving _ index _ _ _ => some index
  | _ => none

@[simp] theorem Stage.held_mapPending (f : PendingOp n Q R → PendingOp n Q R) (st : Stage n Q R) :
    (st.mapPending f).held = st.held := by
  cases st <;> rfl

/-- Who holds which index, the map, and the flag. -/
@[ext] structure Slots where
  held : Nat → Option Nat
  pending : Nat → Option Nat
  shutdown : Bool

namespace Slots

def register (z : Slots) (c i : Nat) : Slots :=
  { z with held := Function.update z.held c (some i), pending := Function.update z.pending i (some c) }

def remove (z : Slots) (c i : Nat) : Slots :=
  { z with held := Function.update z.held c none, pending := Function.update z.pending i none }

def shut (z : Slots) : Slots := { z with pending := fun _ => none, shutdown := true }

def new : Slots := { held := fun _ => none, pending := fun _ => none, shutdown := false }

/-- Whoever is in the map holds the index. -/
def Listed (z : Slots) : Prop := ∀ i c, z.pending i = some c → z.held c = some i

/-- Whoever holds an index is in the map, up to the shutdown. -/
def Kept (z : Slots) : Prop := z.shutdown = false → ∀ i c, z.held c = some i → z.pending i = some c

variable {z : Slots} {c i : Nat}

theorem Listed.register (h : z.Listed) (hc : z.held c = none) : (z.register c i).Listed := by
  intro j d hd
  by_cases hj : j = i
  · subst hj
    obtain rfl : c = d := by simpa [Slots.register] using hd
    exact Function.update_self _ _ _
  · have hbefore : z.pending j = some d := by simpa [Slots.register, hj] using hd
    have hne : d ≠ c := by
      rintro rfl
      rw [h j d hbefore] at hc
      contradiction
    exact (Function.update_of_ne hne _ _).trans (h j d hbefore)

theorem Listed.remove (h : z.Listed) (hc : z.held c = some i) : (z.remove c i).Listed := by
  intro j d hd
  have hj : j ≠ i := by
    rintro rfl
    simp [Slots.remove] at hd
  have hbefore : z.pending j = some d := by simpa [Slots.remove, hj] using hd
  have hne : d ≠ c := by
    rintro rfl
    rw [h j d hbefore] at hc
    exact hj (Option.some.inj hc)
  exact (Function.update_of_ne hne _ _).trans (h j d hbefore)

theorem Kept.register (h : z.Kept) (hi : z.pending i = none) : (z.register c i).Kept := by
  intro hup j d hd
  by_cases hdc : d = c
  · subst hdc
    obtain rfl : i = j := by simpa [Slots.register] using hd
    exact Function.update_self _ _ _
  · have hbefore : z.held d = some j := by simpa [Slots.register, hdc] using hd
    have hne : j ≠ i := by
      rintro rfl
      rw [h hup j d hbefore] at hi
      contradiction
    exact (Function.update_of_ne hne _ _).trans (h hup j d hbefore)

theorem Kept.remove (h : z.Kept) (hc : z.held c = some i) : (z.remove c i).Kept := by
  intro hup j d hd
  have hdc : d ≠ c := by
    rintro rfl
    simp [Slots.remove] at hd
  have hbefore : z.held d = some j := by simpa [Slots.remove, hdc] using hd
  -- two calls that hold one index would both be in the map there
  have hne : j ≠ i := by
    rintro rfl
    have hsame := (h hup j d hbefore).symm.trans (h hup j c hc)
    exact hdc (Option.some.inj hsame)
  exact (Function.update_of_ne hne _ _).trans (h hup j d hbefore)

end Slots

/-! ## The code of one replica -/

namespace RSM

def slots (rsm : RSM n M) : Slots where
  held := fun c => (rsm.stage c).bind Stage.held
  pending := rsm.pendingOps
  shutdown := rsm.shutdown

variable {rsm rsm' : RSM n M} {c : Nat}

theorem slots_setStage {old st : Stage n Q R} (hold : rsm.stage c = some old)
    (hst : st.held = old.held) : (rsm.setStage c st).slots = rsm.slots := by
  refine Slots.ext (funext fun d => ?_) rfl rfl
  show ((rsm.setStage c st).stage d).bind Stage.held = (rsm.stage d).bind Stage.held
  rw [stage_setStage]
  by_cases hd : d = c
  · subst hd
    rw [if_pos rfl, hold]
    exact hst
  · rw [if_neg hd]

/-- A stage that holds another index than before. -/
theorem held_setStage {st : Stage n Q R} (hc : (rsm.stage c).isSome) :
    (rsm.setStage c st).slots.held = Function.update rsm.slots.held c st.held := by
  obtain ⟨old, hold⟩ := Option.isSome_iff_exists.mp hc
  funext d
  show ((rsm.setStage c st).stage d).bind Stage.held = _
  rw [stage_setStage]
  by_cases hd : d = c
  · subst hd
    rw [if_pos rfl, hold, Function.update_self]
    rfl
  · rw [if_neg hd, Function.update_of_ne hd]
    rfl

theorem slots_submit (rsm : RSM n M) (req : Q) : (rsm.submit req).slots = rsm.slots := by
  have happend : ∀ call : Call n Q R, call.stage.held = none →
      { rsm with calls := rsm.calls ++ [call] }.slots = rsm.slots := by
    intro call hcall
    refine Slots.ext (funext fun d => ?_) rfl rfl
    show ((rsm.calls ++ [call])[d]?.map Call.stage).bind Stage.held =
      (rsm.calls[d]?.map Call.stage).bind Stage.held
    rcases Nat.lt_trichotomy d rsm.calls.length with hlt | rfl | hgt
    · rw [List.getElem?_append_left hlt]
    · simpa using hcall
    · rw [List.getElem?_eq_none (by simp; omega), List.getElem?_eq_none hgt.le]
  unfold submit
  split
  · exact happend _ rfl
  · exact happend _ rfl

/-- `Submit` returns, and `doSubmit` is where it was. -/
theorem slots_answer {call : Call n Q R} (hcall : rsm.calls[c]? = some call)
    {answer : Option (Kvsrv1.Err × Option R)} :
    { rsm with calls := rsm.calls.set c { call with answer := answer } }.slots = rsm.slots := by
  refine Slots.ext (funext fun d => ?_) rfl rfl
  show ((rsm.calls.set c { call with answer := answer })[d]?.map Call.stage).bind Stage.held =
    (rsm.calls[d]?.map Call.stage).bind Stage.held
  by_cases hd : d = c
  · subst hd
    rw [List.getElem?_set_self (List.getElem?_eq_some_iff.mp hcall).1, hcall]
    rfl
  · rw [List.getElem?_set_ne (Ne.symm hd)]

theorem slots_submitDone (h : rsm.submitDone c = some rsm') : rsm'.slots = rsm.slots := by
  obtain ⟨call, err, result, hcall, -, rfl⟩ := submitDone_cases h
  exact slots_answer hcall

theorem slots_submitTimeout (h : rsm.submitTimeout c = some rsm') : rsm'.slots = rsm.slots := by
  obtain ⟨call, hcall, rfl⟩ := submitTimeout_cases h
  exact slots_answer hcall

theorem slots_doSubmitNumber (h : rsm.doSubmitNumber c = some rsm') : rsm'.slots = rsm.slots := by
  obtain ⟨call, hcall, hentered, hrsm⟩ := doSubmitNumber_cases h
  have hst : rsm.stage c = some .entered := by rw [stage, hcall, Option.map_some, hentered]
  rcases hrsm with rfl | rfl
  · exact slots_setStage hst rfl
  · have hst : { rsm with opId := rsm.opId + 1 }.stage c = some .entered := hst
    exact slots_setStage hst rfl

theorem slots_doSubmitStarted {start : Option (Nat × Nat)}
    (h : rsm.doSubmitStarted c start = some rsm') : rsm'.slots = rsm.slots := by
  obtain ⟨op, hst, ⟨-, rfl⟩ | ⟨index, term, -, rfl⟩⟩ := doSubmitStarted_cases h
  · exact slots_setStage hst rfl
  · exact slots_setStage hst rfl

theorem slots_waitDone (h : rsm.waitDone c = some rsm') : rsm'.slots = rsm.slots := by
  obtain ⟨p, index, term, err, result, hst, -, rfl⟩ := waitDone_cases h
  exact slots_setStage hst rfl

theorem slots_waitShutdown (h : rsm.waitShutdown c = some rsm') : rsm'.slots = rsm.slots := by
  obtain ⟨p, index, term, hst, rfl⟩ := waitShutdown_cases h
  exact slots_setStage hst rfl

theorem slots_waitTimer {currentTerm : Nat} {isLeader : Bool}
    (h : rsm.waitTimer c currentTerm isLeader = some rsm') : rsm'.slots = rsm.slots := by
  rcases waitTimer_cases h with rfl | ⟨p, index, term, hst, rfl⟩
  · rfl
  · exact slots_setStage hst rfl

theorem slots_updateAt (rsm : RSM n M) (index : Nat) (f : PendingOp n Q R → PendingOp n Q R) :
    (rsm.updateAt index f).slots = rsm.slots := by
  unfold updateAt
  split
  · rename_i d hd
    refine Slots.ext (funext fun e => ?_) rfl rfl
    show ((rsm.setPending d f).stage e).bind Stage.held = (rsm.stage e).bind Stage.held
    rw [stage_setPending]
    by_cases he : e = d
    · subst he
      rw [if_pos rfl]
      cases rsm.stage e with
      | none => rfl
      | some st => exact Stage.held_mapPending f st
    · rw [if_neg he]
  · rfl

theorem stage_updateAt_isSome (index : Nat) (f : PendingOp n Q R → PendingOp n Q R)
    (hc : (rsm.stage c).isSome) : ((rsm.updateAt index f).stage c).isSome := by
  unfold updateAt
  split
  · rw [stage_setPending]
    split
    · rename_i heq
      rw [Option.isSome_map, ← heq]
      exact hc
    · exact hc
  · exact hc

theorem held_notify (rsm : RSM n M) (at_ : Nat → Bool) (res : Bool) :
    (rsm.notify at_ res).slots.held = rsm.slots.held := by
  funext d
  show ((rsm.notify at_ res).stage d).bind Stage.held = (rsm.stage d).bind Stage.held
  rw [stage_notify]
  cases rsm.stage d with
  | none => rfl
  | some st =>
    show (if _ then st.mapPending _ else st).held = st.held
    split
    · exact Stage.held_mapPending _ st
    · rfl

theorem slots_applyCommand (rsm : RSM n M) (index : Nat) (op : Op n Q) (large : Bool) :
    (rsm.applyCommand index op large).slots = rsm.slots := by
  rcases rsm.applyCommand_cases index op large with ⟨-, heq⟩ | ⟨-, due, heq⟩
  · rw [heq]
  · rw [heq]
    have hheld : (rsm.updateAt index (rsm.answer op)).slots.held = rsm.slots.held := by
      rw [slots_updateAt]
    exact Slots.ext hheld rfl rfl

theorem slots_applySnapshot {index : Nat} {data : Blob M.Bytes}
    (h : rsm.applySnapshot index data = some rsm') : rsm'.slots = rsm.slots := by
  rcases applySnapshot_cases h with ⟨-, rfl⟩ | ⟨-, -, rfl⟩
  · rfl
  · exact Slots.ext (held_notify _ _ _) rfl rfl

theorem slots_readSnapshot (rsm : RSM n M) (snapshot : Option (Blob M.Bytes)) :
    (rsm.readSnapshot snapshot).slots = rsm.slots := by
  apply Slots.ext
  · funext d
    exact congrArg (Option.bind · Stage.held) (stage_readSnapshot rsm snapshot d)
  · exact pendingOps_readSnapshot rsm snapshot
  · show (rsm.readSnapshot snapshot).shutdown = rsm.shutdown
    unfold readSnapshot
    dsimp only
    split
    · split <;> rfl
    · rfl

/-- A registration that is refused changes nothing. -/
theorem slots_doSubmitRegister (h : rsm.doSubmitRegister c = some rsm') :
    ∃ p index term, rsm.stage c = some (.started p index term) ∧
      ((rsm.shutdown = true ∧ rsm'.slots = rsm.slots) ∨
        (rsm.shutdown = false ∧ rsm'.slots = rsm.slots.register c index)) := by
  obtain ⟨p, index, term, hst, ⟨hdown, rfl⟩ | ⟨hup, rfl⟩⟩ := doSubmitRegister_cases h
  · exact ⟨p, index, term, hst, Or.inl ⟨hdown, slots_setStage hst rfl⟩⟩
  · refine ⟨p, index, term, hst, Or.inr ⟨hup, ?_⟩⟩
    have hslots := slots_updateAt rsm index fun existingOp => existingOp.send false
    have hc := stage_updateAt_isSome index (fun existingOp => existingOp.send false)
      (Option.isSome_of_eq_some hst)
    generalize rsm.updateAt index (fun existingOp => existingOp.send false) = updated at hslots hc ⊢
    have hpending : updated.pendingOps = rsm.pendingOps := congrArg Slots.pending hslots
    rw [← hslots, ← hpending]
    refine Slots.ext (held_setStage hc) (funext fun i => ?_) rfl
    exact (Function.update_apply _ _ _ _).symm

theorem slots_doSubmitRemove (h : rsm.doSubmitRemove c = some rsm') :
    ∃ i, rsm.slots.held c = some i ∧ rsm'.slots = rsm.slots.remove c i := by
  obtain ⟨p, index, term, err, result, hst, rfl⟩ := doSubmitRemove_cases h
  refine ⟨index, by simp [slots, hst, Stage.held], ?_⟩
  refine Slots.ext (held_setStage (Option.isSome_of_eq_some hst)) (funext fun i => ?_) rfl
  exact (Function.update_apply _ _ _ _).symm

theorem slots_doShutdown (rsm : RSM n M) : rsm.doShutdown.slots = rsm.slots.shut :=
  Slots.ext (held_notify { rsm with shutdown := true } _ _) rfl rfl

end RSM

/-! ## The steps of the cluster -/

/-- What a step can do to the slots of a replica. -/
inductive Shift (s : System n M) (a : Action n Q) (r : Fin n) (z : Slots) : Slots → Prop where
  | same : Shift s a r z z
  | register {i c : Nat} (h : registers s a = some (r, i, c)) (hc : z.held c = none)
      (hup : z.shutdown = false) : Shift s a r z (z.register c i)
  | remove {i c : Nat} (h : a = .remove r c) (hc : z.held c = some i) : Shift s a r z (z.remove c i)
  | shut (h : a = .kill r) : Shift s a r z z.shut
  | restart (h : a = .restart r) : Shift s a r z .new

namespace System

variable {s t : System n M} {a : Action n Q}

theorem shift_setReplica (raft : SafeRaft n (Op n Q) (Blob M.Bytes)) {r : Fin n} {rsm : RSM n M}
    (h : Shift s a r (s.replica r).slots rsm.slots) (j : Fin n) :
    Shift s a j (s.replica j).slots
      ((System.setReplica { s with raft := raft } r rsm).replica j).slots := by
  by_cases hj : j = r
  · subst hj
    rwa [replica_setReplica_self]
  · rw [replica_setReplica_of_ne _ hj]
    exact .same

/-- A step of one goroutine that does not touch the slots. -/
theorem shift_local {r : Fin n} {o : Option (RSM n M)} (hs : s.local_ r o = some t)
    (ho : ∀ rsm, o = some rsm → rsm.slots = (s.replica r).slots) (j : Fin n) :
    Shift s a j (s.replica j).slots (t.replica j).slots := by
  obtain ⟨rsm, hrsm, rfl⟩ := Option.map_eq_some_iff.mp hs
  refine shift_setReplica s.raft ?_ j
  rw [ho rsm hrsm]
  exact .same

theorem slots_step (hs : s.step a = some t) (j : Fin n) :
    Shift s a j (s.replica j).slots (t.replica j).slots := by
  cases a with
  | submit r req =>
    obtain ⟨-, hs⟩ := Option.ite_none_right_eq_some.mp hs
    obtain rfl := Option.some.inj hs
    refine shift_setReplica s.raft ?_ j
    rw [RSM.slots_submit]
    exact .same
  | submitDone r c => exact shift_local hs (fun _ => RSM.slots_submitDone) j
  | submitTimeout r c => exact shift_local hs (fun _ => RSM.slots_submitTimeout) j
  | number r c => exact shift_local hs (fun _ => RSM.slots_doSubmitNumber) j
  | start r c answer =>
    cases answer with
    | none => exact shift_local hs (fun _ => RSM.slots_doSubmitStarted) j
    | some answer =>
      obtain ⟨op, raft, rsm, -, -, hrsm, rfl⟩ := start_cases hs
      refine shift_setReplica raft ?_ j
      rw [RSM.slots_doSubmitStarted hrsm]
      exact .same
  | register r c =>
    obtain ⟨rsm, hrsm, rfl⟩ := Option.map_eq_some_iff.mp hs
    refine shift_setReplica s.raft ?_ j
    obtain ⟨p, index, term, hst, ⟨-, heq⟩ | ⟨hup, heq⟩⟩ := RSM.slots_doSubmitRegister hrsm
    · rw [heq]
      exact .same
    · rw [heq]
      exact .register (by simp [registers, hup, hst]) (by simp [RSM.slots, hst, Stage.held]) hup
  | waitDone r c => exact shift_local hs (fun _ => RSM.slots_waitDone) j
  | waitShutdown r c => exact shift_local hs (fun _ => RSM.slots_waitShutdown) j
  | waitTimer r c currentTerm isLeader => exact shift_local hs (fun _ => RSM.slots_waitTimer) j
  | remove r c =>
    obtain ⟨rsm, hrsm, rfl⟩ := Option.map_eq_some_iff.mp hs
    refine shift_setReplica s.raft ?_ j
    obtain ⟨i, hi, heq⟩ := RSM.slots_doSubmitRemove hrsm
    rw [heq]
    exact .remove rfl hi
  | commit k =>
    obtain ⟨raft, -, rfl⟩ := Option.map_eq_some_iff.mp hs
    exact .same
  | deliver r large =>
    obtain ⟨index, op, -, -, rfl⟩ := deliver_cases hs
    refine shift_setReplica _ ?_ j
    rw [RSM.slots_applyCommand]
    exact .same
  | createSnapshot r =>
    have hskip : Shift s (.createSnapshot r) r (s.replica r).slots
        { s.replica r with snapshotDue := none }.slots := .same
    obtain ⟨index, -, rfl | ⟨i, data, -, rfl⟩⟩ := createSnapshot_cases hs
    · exact shift_setReplica s.raft hskip j
    · exact shift_setReplica _ hskip j
  | install r k =>
    obtain ⟨raft, -, rfl⟩ := Option.map_eq_some_iff.mp hs
    exact .same
  | deliverSnapshot r k =>
    obtain ⟨index, data, rsm, -, -, hrsm, rfl⟩ := deliverSnapshot_cases hs
    refine shift_setReplica _ ?_ j
    rw [RSM.slots_applySnapshot hrsm]
    exact .same
  | kill r =>
    obtain rfl := Option.some.inj hs
    refine shift_setReplica s.raft ?_ j
    rw [RSM.slots_doShutdown]
    exact .shut rfl
  | restart r =>
    obtain rfl := Option.some.inj hs
    have hnew : Shift s (.restart r) r (s.replica r).slots
        (RSM.newRSM M r (s.replica r).maxraftstate).slots := .restart rfl
    exact shift_setReplica (s.raft.restart r) hnew j
  | readSnapshot r =>
    obtain ⟨-, hs⟩ := Option.ite_none_left_eq_some.mp hs
    obtain rfl := Option.some.inj hs
    refine shift_setReplica s.raft ?_ j
    rw [RSM.slots_readSnapshot]
    exact .same

end System

namespace Shift

variable {s : System n M} {a : Action n Q} {r : Fin n} {z z' : Slots}

theorem listed (h : Shift s a r z z') (hz : z.Listed) : z'.Listed := by
  cases h with
  | same => exact hz
  | register _ hc _ => exact hz.register hc
  | remove _ hc => exact hz.remove hc
  | shut _ => exact fun _ _ hi => absurd hi (by simp [Slots.shut])
  | restart _ => exact fun _ _ hi => absurd hi (by simp [Slots.new])

theorem kept (h : Shift s a r z z') (hz : z.Kept)
    (hvacant : ∀ i c, registers s a = some (r, i, c) → z.pending i = none) : z'.Kept := by
  cases h with
  | same => exact hz
  | register h _ _ => exact hz.register (hvacant _ _ h)
  | remove _ hc => exact hz.remove hc
  | shut _ => exact fun hup => absurd hup (by simp [Slots.shut])
  | restart _ => exact fun _ _ _ hd => absurd hd (by simp [Slots.new])

/-- A step that does not end the registration of a call leaves the call its index. -/
theorem holds (h : Shift s a r z z') {i c : Nat} (hends : ends r i c (s, a) = false)
    (hz : z.held c = some i ∧ z.shutdown = false) : z'.held c = some i ∧ z'.shutdown = false := by
  cases h with
  | same => exact hz
  | @register i' d h hd hup =>
    have hdc : c ≠ d := by
      rintro rfl
      rw [hd] at hz
      exact absurd hz.1 (by simp)
    exact ⟨(Function.update_of_ne hdc _ _).trans hz.1, hz.2⟩
  | @remove i' d h hd =>
    subst h
    have hdc : c ≠ d := by
      rintro rfl
      simp [ends] at hends
    exact ⟨(Function.update_of_ne hdc _ _).trans hz.1, hz.2⟩
  | shut h =>
    subst h
    simp [ends] at hends
  | restart h =>
    subst h
    simp [ends] at hends

end Shift

/-! ## An index that is taken -/

theorem registers_eq_some {s : System n M} {a : Action n Q} {r : Fin n} {i c : Nat} :
    registers s a = some (r, i, c) ↔ a = .register r c ∧ (s.replica r).shutdown = false ∧
      ∃ p term, (s.replica r).stage c = some (.started p i term) := by
  constructor
  · intro h
    unfold registers at h
    split at h
    · split at h
      · rename_i hup hst
        obtain ⟨rfl, rfl, rfl⟩ : _ = r ∧ _ = i ∧ _ = c := by simpa using h
        exact ⟨rfl, hup, _, _, hst⟩
      · contradiction
    · contradiction
  · rintro ⟨rfl, hup, p, term, hst⟩
    simp [registers, hup, hst]

theorem Stage.held_cases {st : Stage n Q R} {i : Nat} (h : st.held = some i) :
    (∃ p term, st = .waiting p i term) ∨ ∃ p term err result, st = .leaving p i term err result := by
  cases st <;> simp_all [held]

namespace System

variable {s : System n M} {r : Fin n} {c d i : Nat}

/-- A registration puts the call at its index. -/
theorem slots_registered {a : Action n Q} {t : System n M} (hs : s.step a = some t)
    (hreg : registers s a = some (r, i, c)) :
    (t.replica r).slots = (s.replica r).slots.register c i := by
  obtain ⟨rfl, hup, p, term, hst⟩ := registers_eq_some.mp hreg
  obtain ⟨rsm, hrsm, rfl⟩ := Option.map_eq_some_iff.mp hs
  rw [replica_setReplica_self]
  obtain ⟨p', index, term', hst', ⟨hdown, -⟩ | ⟨-, heq⟩⟩ := RSM.slots_doSubmitRegister hrsm
  · rw [hup] at hdown
    contradiction
  · obtain ⟨-, rfl, -⟩ : p = p' ∧ i = index ∧ term = term' := by simpa [hst] using hst'
    exact heq

/-- A call that was told leaves `waitForResult`. -/
theorem step_waitDone {p : PendingOp n Q R} {term : Nat}
    (hst : (s.replica r).stage d = some (.waiting p i term)) (hdone : p.done.isSome) :
    ∃ u p' err result, s.step (.waitDone r d) = some u ∧
      (u.replica r).stage d = some (.leaving p' i term err result) := by
  obtain ⟨res, hres⟩ := Option.isSome_iff_exists.mp hdone
  have hleaves : ∃ p' err result, (s.replica r).waitDone d =
      some ((s.replica r).setStage d (.leaving p' i term err result)) := by
    unfold RSM.waitDone
    rw [hst]
    dsimp only
    rw [hres]
    cases res with
    | true => exact ⟨_, _, _, rfl⟩
    | false => exact ⟨_, _, _, rfl⟩
  obtain ⟨p', err, result, hwait⟩ := hleaves
  refine ⟨_, p', err, result, congrArg (Option.map _) hwait, ?_⟩
  rw [replica_setReplica_self, RSM.stage_setStage, if_pos rfl, hst]
  rfl

/-- Its last step empties the index. -/
theorem step_remove {p : PendingOp n Q R} {term : Nat} {err : Kvsrv1.Err} {result : Option R}
    (hst : (s.replica r).stage d = some (.leaving p i term err result)) :
    ∃ u, s.step (.remove r d) = some u ∧ (u.replica r).pendingOps i = none := by
  have hremove : ∃ rsm, (s.replica r).doSubmitRemove d = some rsm ∧ rsm.pendingOps i = none := by
    unfold RSM.doSubmitRemove
    rw [hst]
    exact ⟨_, rfl, if_pos rfl⟩
  obtain ⟨rsm, hrsm, hnone⟩ := hremove
  refine ⟨_, congrArg (Option.map _) hrsm, ?_⟩
  rw [replica_setReplica_self]
  exact hnone

end System

/-- The call whose op is replaced is told to give up. -/
theorem RSM.stage_replaced {rsm rsm' : RSM n M} {c d i term : Nat} {p : PendingOp n Q R}
    (hst : rsm.stage c = some (.started p i term)) (hup : rsm.shutdown = false)
    (hd : rsm.pendingOps i = some d) (hdc : d ≠ c) (h : rsm.doSubmitRegister c = some rsm') :
    rsm'.stage d = (rsm.stage d).map (Stage.mapPending (·.send false)) := by
  obtain ⟨p', index, term', hst', ⟨hdown, -⟩ | ⟨-, rfl⟩⟩ := doSubmitRegister_cases h
  · rw [hup] at hdown
    contradiction
  obtain ⟨-, rfl, -⟩ : p = p' ∧ i = index ∧ term = term' := by simpa [hst] using hst'
  rw [stage_setStage, if_neg hdc]
  show (rsm.updateAt i _).stage d = _
  rw [updateAt, hd]
  dsimp only
  rw [stage_setPending, if_pos rfl]

/-! ## Runs -/

namespace Run

variable {maxraftstate : Int} {tr : Trace n M} {s : System n M}

theorem slots_initial (r : Fin n) :
    ((System.initial n M maxraftstate).replica r).slots = .new :=
  RSM.slots_readSnapshot (RSM.newRSM M r maxraftstate) none

theorem listed (h : Run maxraftstate tr s) (r : Fin n) : (s.replica r).slots.Listed := by
  refine h.invariant (fun _ _ _ hz hstep r => (System.slots_step hstep r).listed (hz r)) ?_ s
    (by simp [visited]) r
  intro r
  rw [slots_initial]
  intro i c hi
  contradiction

theorem kept (h : Run maxraftstate tr s) (hvacant : ∀ x ∈ tr, Vacant x.1 x.2) (r : Fin n) :
    (s.replica r).slots.Kept := by
  have hstep : ∀ u a w, (u, a) ∈ tr → (∀ r, (u.replica r).slots.Kept) →
      (system n M maxraftstate).step u a w → ∀ r, (w.replica r).slots.Kept := by
    intro u a w hmem hz hst r
    apply (System.slots_step hst r).kept (hz r)
    intro i c hreg
    exact hvacant _ hmem _ hreg
  refine h.invariant_on hstep ?_ s (by simp [visited]) r
  intro r
  rw [slots_initial]
  intro _ i c hc
  contradiction

/-- A registration stays where no index is taken twice. -/
theorem stays (h : Run maxraftstate tr s) (hvacant : ∀ x ∈ tr, Vacant x.1 x.2) : Stays tr s := by
  rintro before ⟨u, a⟩ rest r i c rfl hreg hends
  obtain ⟨-, w, hst, hrest⟩ := Lts.Run.split h
  -- the call holds its index from its registration on
  have hfirst : (w.replica r).slots.held c = some i ∧ (w.replica r).slots.shutdown = false := by
    rw [System.slots_registered hst hreg]
    exact ⟨Function.update_self _ _ _, (registers_eq_some.mp hreg).2.1⟩
  have hstep : ∀ v b x, (v, b) ∈ rest →
      ((v.replica r).slots.held c = some i ∧ (v.replica r).slots.shutdown = false) →
      (system n M maxraftstate).step v b x →
      (x.replica r).slots.held c = some i ∧ (x.replica r).slots.shutdown = false := by
    intro v b x hmem hz hvb
    exact (System.slots_step hvb r).holds (hends _ hmem) hz
  obtain ⟨hheld, hup⟩ := hrest.invariant_on hstep hfirst s (by simp [visited])
  exact h.kept hvacant r hup i c hheld

/-- After a registration at an index that is taken, the run may go on so that it does not stay: the
call that was there wakes up and removes it. -/
theorem not_stays (h : Run maxraftstate tr s) {a : Action n Q} {t : System n M}
    (hs : s.step a = some t) (htaken : ¬ Vacant s a) :
    ∃ rest u, Run maxraftstate (tr ++ (s, a) :: rest) u ∧ ¬ Stays (tr ++ (s, a) :: rest) u := by
  obtain ⟨⟨r, i, c⟩, hreg, htaken⟩ : ∃ x ∈ registers s a, (s.replica x.1).pendingOps x.2.1 ≠ none := by
    simpa [Vacant] using htaken
  obtain ⟨d, hd⟩ := Option.ne_none_iff_exists'.mp htaken
  have hrun : Run maxraftstate (tr ++ [(s, a)]) t := h.snoc hs
  -- whatever the older call does, the registration of the newer one is not ended by it
  have hbreaks : ∀ rest u, Run maxraftstate (tr ++ (s, a) :: rest) u →
      (∀ y ∈ rest, ends r i c y = false) → (u.replica r).pendingOps i = none →
      ∃ rest u, Run maxraftstate (tr ++ (s, a) :: rest) u ∧ ¬ Stays (tr ++ (s, a) :: rest) u := by
    intro rest u hu hends hnone
    refine ⟨rest, u, hu, fun hstays => ?_⟩
    have hsome := hstays tr (s, a) rest r i c rfl hreg hends
    rw [hnone] at hsome
    contradiction
  obtain ⟨rfl, hup, p, term, hst⟩ := registers_eq_some.mp hreg
  have hheld : (s.replica r).slots.held d = some i := h.listed r i d hd
  have hdc : d ≠ c := by
    rintro rfl
    simp [RSM.slots, hst, Stage.held] at hheld
  obtain ⟨st, hstd, hsti⟩ := Option.bind_eq_some_iff.mp hheld
  have htold : (t.replica r).stage d = some (st.mapPending (·.send false)) := by
    obtain ⟨rsm, hrsm, rfl⟩ := Option.map_eq_some_iff.mp hs
    rw [System.replica_setReplica_self, RSM.stage_replaced hst hup hd hdc hrsm, hstd]
    rfl
  rcases Stage.held_cases hsti with ⟨q, term', rfl⟩ | ⟨q, term', err, result, rfl⟩
  · obtain ⟨v, q', err, result, hwait, hleaving⟩ := System.step_waitDone htold (q.send_done false)
    obtain ⟨u, hremove, hnone⟩ := System.step_remove hleaving
    refine hbreaks [(t, .waitDone r d), (v, .remove r d)] u ?_ ?_ hnone
    · have hall : Run maxraftstate _ u := (hrun.snoc hwait).snoc hremove
      simpa using hall
    · simp [ends, registers, hdc]
  · obtain ⟨u, hremove, hnone⟩ := System.step_remove htold
    refine hbreaks [(t, .remove r d)] u ?_ ?_ hnone
    · have hall : Run maxraftstate _ u := hrun.snoc hremove
      simpa using hall
    · simp [ends, hdc]

end Run

/-- In every run in which no call registers at an index that is taken, every registration stays in the
map until its call removes it, another call registers at the index, or the replica shuts down or
restarts. The condition cannot be left out: from any registration at an index that is taken, the run
can go on to where the registration is gone. -/
theorem registration_stays {maxraftstate : Int} {tr : Trace n M} {s : System n M}
    (h : Run maxraftstate tr s) :
    ((∀ x ∈ tr, Vacant x.1 x.2) → Stays tr s) ∧
    ∀ a t, s.step a = some t → ¬ Vacant s a →
      ∃ rest u, Run maxraftstate (tr ++ (s, a) :: rest) u ∧ ¬ Stays (tr ++ (s, a) :: rest) u :=
  ⟨h.stays, fun _ _ => h.not_stays⟩

/-- Two calls wait at the indices 1 and 2 of a leader. Another replica leads next and overwrites its
log from index 1 on with one entry, and when it leads again a third call gets index 2. -/
def sameIndex (r other : Fin 3) : List (Action 3 Nat) :=
  submitting r 5 1 ++
    [.submit r 6, .number r 1, .start r 1 (some (2, 1)), .register r 1,
      .submit other 9, .number other 0, .start other 0 (some (1, 2)),
      .submit r 7, .number r 2, .start r 2 (some (2, 3))]

theorem registration_stays_sameIndex :
    Stays (sumStart.traceOf (sameIndex 0 1)) (sumStart.after (sameIndex 0 1)) ∧
    ∃ rest u, Run (-1)
        (sumStart.traceOf (sameIndex 0 1) ++ (sumStart.after (sameIndex 0 1), .register 0 2) :: rest) u ∧
      ¬ Stays
        (sumStart.traceOf (sameIndex 0 1) ++ (sumStart.after (sameIndex 0 1), .register 0 2) :: rest)
          u := by
  have hrun : Run (-1) (sumStart.traceOf (sameIndex 0 1)) (sumStart.after (sameIndex 0 1)) :=
    System.run_of_enabled (by decide)
  refine ⟨(registration_stays hrun).1 (by decide), ?_⟩
  exact (registration_stays hrun).2 (.register 0 2) _ rfl (by decide)

/-- The third call registers, and the second one, told to give up, removes what is at its index. -/
def removed (r other : Fin 3) : List (Action 3 Nat) :=
  sameIndex r other ++ [.register r 2, .waitDone r 1, .remove r 1]

/-- The entries of the other replica and of the third call are committed and applied. -/
def unheard (r other : Fin 3) : List (Action 3 Nat) :=
  removed r other ++ [.commit 1, .commit 0, .deliver r false, .deliver r false]

/-- The third call waits on a replica that is not shut down and has nothing at its index any more.
When its op is committed and applied there, nobody tells it. -/
theorem older_removes_newer :
    Run (-1) (sumStart.traceOf (removed 0 1)) (sumStart.after (removed 0 1)) ∧
    ¬ Stays (sumStart.traceOf (removed 0 1)) (sumStart.after (removed 0 1)) ∧
    ((sumStart.after (removed 0 1)).replica 0).shutdown = false ∧
    ((sumStart.after (removed 0 1)).replica 0).pendingOps 2 = none ∧
    Run (-1) (sumStart.traceOf (unheard 0 1)) (sumStart.after (unheard 0 1)) ∧
    (sumStart.after (unheard 0 1)).raft.agreed = [(2, ⟨1, 1, 9⟩), (3, ⟨0, 3, 7⟩)] ∧
    ((sumStart.after (unheard 0 1)).replica 0).lastApplied = 2 ∧
    ((sumStart.after (unheard 0 1)).replica 0).stage 2 =
      some (.waiting ⟨⟨0, 3, 7⟩, none, none⟩ 2 3) := by
  refine ⟨System.run_of_enabled (by decide), ?_, by decide, by decide, System.run_of_enabled (by decide),
    by decide, by decide, by decide⟩
  intro hstays
  have hsome := hstays (sumStart.traceOf (sameIndex 0 1))
    (sumStart.after (sameIndex 0 1), .register 0 2) _ 0 2 2 (traceOf_append _ _ _) (by decide) (by decide)
  exact absurd hsome (by decide)

end DistSys.Rsm
