import DistSys.Rsm.Submit

/- Whether a registered op is told.

   `doSubmit` calls `Start` and registers its pending op in a later critical section.
   The reader may apply the entry in between; it finds nobody at that index, and nobody
   sends on the channel that is registered then: the call waits for a timeout although its
   op was applied (`registered_too_late`).

   When every registration comes before the reader is at its index (`Timely`), there is
   nothing to miss. The reader goes forward one index at a time, because Raft is not ahead
   of it, or by a snapshot, and tells whoever is registered on the way. -/
namespace DistSys.Rsm

open Lib

variable {n : Nat} {Q R : Type} {M : StateMachine Q R}

/-! ## What is to be shown -/

/-- A value is in the channel of the pending op of a call. -/
def RSM.told (rsm : RSM n M) (c : Nat) : Bool :=
  ((rsm.stage c).bind Stage.own).any fun x => x.1.done.isSome

/-- A value has been sent on the channel, in this life of the replica. -/
def Told (tr : Trace n M) (s : System n M) (r : Fin n) (c : Nat) : Prop :=
  ∃ u ∈ visited tr s, u.life r = s.life r ∧ (u.replica r).told c = true

/-- The reader is not yet at the index that a call registers at. -/
def Timely (s : System n M) : Action n Q → Prop
  | .register r c => (s.replica r).shutdown = false →
      ∀ x ∈ ((s.replica r).stage c).bind Stage.own, (s.replica r).lastApplied < x.2.1
  | _ => True

instance (s : System n M) : (a : Action n Q) → Decidable (Timely s a)
  | .register r c => @instDecidableForall ((s.replica r).shutdown = false)
      (∀ x ∈ ((s.replica r).stage c).bind Stage.own, (s.replica r).lastApplied < x.2.1)
      (instDecidableEqBool _ _) (Option.decidableForallMem _)
  | .submit .. | .submitDone .. | .submitTimeout .. | .number .. | .start .. | .waitDone ..
  | .waitShutdown .. | .waitTimer .. | .remove .. | .commit .. | .deliver .. | .createSnapshot ..
  | .install .. | .deliverSnapshot .. | .kill .. | .restart .. | .readSnapshot .. => .isTrue trivial

instance (tr : Trace n M) (s : System n M) (r : Fin n) (c : Nat) : Decidable (Told tr s r c) :=
  inferInstanceAs (Decidable (∃ u ∈ visited tr s, _))

/-! ## The reader tells -/

theorem PendingOp.send_done (p : PendingOp n Q R) (res : Bool) : (p.send res).done.isSome := by
  unfold PendingOp.send
  split
  · rfl
  · rename_i v hv
    rw [hv]
    rfl

namespace RSM

variable {rsm rsm' : RSM n M} {c : Nat}

/-- A change of the pending op that leaves a value in its channel. -/
theorem told_of_mapPending {st : Stage n Q R} {i : Nat} {f : PendingOp n Q R → PendingOp n Q R}
    (hst : rsm.stage c = some (st.mapPending f)) (hslot : st.slot = some i)
    (hf : ∀ p, (f p).done.isSome) : rsm.told c = true := by
  obtain ⟨p, term, hown⟩ := Stage.own_of_slot hslot
  rw [told, hst, Option.bind_some, Stage.own_mapPending, hown]
  exact hf p

theorem told_notify {at_ : Nat → Bool} {res : Bool} {st : Stage n Q R} {i : Nat}
    (hst : rsm.stage c = some st) (hslot : st.slot = some i) (hreg : rsm.pendingOps i = some c)
    (hi : at_ i = true) : (rsm.notify at_ res).told c = true := by
  obtain ⟨p, term, hown⟩ := Stage.own_of_slot hslot
  have hat : rsm.registeredAt c = some i := by
    rw [registeredAt, hst, Option.bind_some, hown]
    exact if_pos hreg
  apply told_of_mapPending _ hslot (fun p => p.send_done res)
  rw [stage_notify, hst, hat]
  simp [hi]

/-- The pending op at the index of a new command is told. -/
theorem told_applyCommand {index : Nat} {op : Op n Q} {large : Bool} {st : Stage n Q R}
    (hnew : rsm.lastApplied < index) (hst : rsm.stage c = some st) (hslot : st.slot = some index)
    (hreg : rsm.pendingOps index = some c) : (rsm.applyCommand index op large).told c = true := by
  have hstage : (rsm.applyCommand index op large).stage c =
      (rsm.updateAt index (rsm.answer op)).stage c := by
    rcases rsm.applyCommand_cases index op large with ⟨hold, -⟩ | ⟨-, due, heq⟩
    · exact absurd hnew (not_lt.mpr hold)
    · rw [heq]
      rfl
  rw [updateAt, hreg] at hstage
  dsimp only at hstage
  rw [stage_setPending, if_pos rfl, hst] at hstage
  apply told_of_mapPending hstage hslot
  -- either answer is a send
  intro p
  unfold answer
  split <;> exact PendingOp.send_done _ _

theorem pendingOps_readSnapshot (rsm : RSM n M) (snapshot : Option (Blob M.Bytes)) :
    (rsm.readSnapshot snapshot).pendingOps = rsm.pendingOps := by
  unfold readSnapshot
  dsimp only
  split
  · split <;> rfl
  · rfl

end RSM

/-! ## The invariant -/

structure Woken (maxraftstate : Int) (tr : Trace n M) (s : System n M) : Prop where
  notAhead : NotAhead maxraftstate s
  orderly : s.Orderly
  noCalls : s.NoCallsYet
  told : ∀ r i c, (s.replica r).pendingOps i = some c → i ≤ (s.replica r).lastApplied → Told tr s r c

namespace Woken

variable {maxraftstate : Int} {tr : Trace n M} {s t : System n M} {a : Action n Q}

theorem initial (maxraftstate : Int) : Woken maxraftstate [] (System.initial n M maxraftstate) where
  notAhead := .initial maxraftstate
  orderly := .initial maxraftstate
  noCalls := .initial maxraftstate
  told := by
    intro r i c hreg
    have hnone : ((System.initial n M maxraftstate).replica r).pendingOps i = none := by
      show (RSM.readSnapshot _ none).pendingOps i = none
      rw [RSM.pendingOps_readSnapshot]
      rfl
    rw [hnone] at hreg
    contradiction

theorem told_snoc {r : Fin n} {c : Nat} (h : Told tr s r c) (hlife : t.life r = s.life r) :
    Told (tr ++ [(s, a)]) t r c := by
  obtain ⟨u, hu, hlife', htold⟩ := h
  refine ⟨u, ?_, hlife'.trans hlife.symm, htold⟩
  simp only [visited, List.map_append, List.mem_append] at hu ⊢
  left
  simpa using hu

theorem told_now {r : Fin n} {c : Nat} (h : (t.replica r).told c = true) : Told tr t r c :=
  ⟨t, by simp [visited], rfl, h⟩

/-- The call registered at an index is past its registration there. -/
theorem slot (h : Woken maxraftstate tr s) {r : Fin n} {i c : Nat}
    (hreg : (s.replica r).pendingOps i = some c) :
    ∃ st, (s.replica r).stage c = some st ∧ st.slot = some i :=
  Option.bind_eq_some_iff.mp ((h.orderly r).registered i c hreg)

/-- A replica that is being made has nothing registered. -/
theorem nothing_registered (h : Woken maxraftstate tr s) {r : Fin n}
    (hnew : (s.replica r).made = false) (i : Nat) : (s.replica r).pendingOps i = none := by
  cases hreg : (s.replica r).pendingOps i with
  | none => rfl
  | some c =>
    obtain ⟨st, hst, -⟩ := h.slot hreg
    simp [RSM.stage, h.noCalls r hnew] at hst

/-- Where the reader has not moved and nothing was registered, all was told before. -/
theorem told_quiet (h : Woken maxraftstate tr s) {r : Fin n} (hlife : t.life r = s.life r)
    (hlast : (t.replica r).lastApplied = (s.replica r).lastApplied)
    (hpending : ∀ i c, (t.replica r).pendingOps i = some c → (s.replica r).pendingOps i = some c)
    {i c : Nat} (hreg : (t.replica r).pendingOps i = some c) (hi : i ≤ (t.replica r).lastApplied) :
    Told (tr ++ [(s, a)]) t r c := by
  rw [hlast] at hi
  exact told_snoc (h.told r i c (hpending i c hreg) hi) hlife

/-- One replica takes a step in which it tells whoever is not told yet. -/
theorem told_setReplica (h : Woken maxraftstate tr s) (raft : SafeRaft n (Op n Q) (Blob M.Bytes))
    {r : Fin n} {rsm : RSM n M}
    (hr : ∀ i c, rsm.pendingOps i = some c → i ≤ rsm.lastApplied →
      Told tr s r c ∨ rsm.told c = true) {j : Fin n} {i c : Nat}
    (hreg : ((System.setReplica { s with raft := raft } r rsm).replica j).pendingOps i = some c)
    (hi : i ≤ ((System.setReplica { s with raft := raft } r rsm).replica j).lastApplied) :
    Told (tr ++ [(s, a)]) (System.setReplica { s with raft := raft } r rsm) j c := by
  by_cases hj : j = r
  · subst hj
    rw [System.replica_setReplica_self] at hreg hi
    rcases hr i c hreg hi with hbefore | hnow
    · exact told_snoc hbefore rfl
    · apply told_now
      rw [System.replica_setReplica_self]
      exact hnow
  · rw [System.replica_setReplica_of_ne _ hj] at hreg hi
    exact told_snoc (h.told j i c hreg hi) rfl

/-- A call registers, at an index that the reader has not reached. -/
theorem told_register (h : Woken maxraftstate tr s) {r : Fin n} {c : Nat} {rsm : RSM n M}
    (htimely : Timely s (.register r c)) (hrsm : (s.replica r).doSubmitRegister c = some rsm)
    {i d : Nat} (hreg : rsm.pendingOps i = some d) (hi : i ≤ rsm.lastApplied) : Told tr s r d := by
  have hlast : rsm.lastApplied = (s.replica r).lastApplied :=
    congrArg View.lastApplied (RSM.view_doSubmitRegister hrsm)
  rw [hlast] at hi
  obtain ⟨p, index, term, hst, ⟨-, rfl⟩ | ⟨hshutdown, rfl⟩⟩ := RSM.doSubmitRegister_cases hrsm
  · exact h.told r i d hreg hi
  · have hlate : (s.replica r).lastApplied < index := by
      apply htimely hshutdown (p, index, term)
      rw [hst]
      rfl
    have hreg : (if i = index then some c else (s.replica r).pendingOps i) = some d := hreg
    rw [if_neg (by omega)] at hreg
    exact h.told r i d hreg hi

/-- A command is the next one, and whoever is registered there is told. -/
theorem told_command (h : Woken maxraftstate tr s) {r : Fin n} {index : Nat} {op : Op n Q}
    {large : Bool} (hreading : s.reading r = true) (hnext : s.raft.next r = some (index, op))
    {i c : Nat} (hreg : (s.replica r).pendingOps i = some c)
    (hi : i ≤ ((s.replica r).applyCommand index op large).lastApplied) :
    Told tr s r c ∨ ((s.replica r).applyCommand index op large).told c = true := by
  obtain ⟨e, -, heq⟩ := Option.map_eq_some_iff.mp hnext
  obtain ⟨rfl, -⟩ := Prod.mk.inj heq
  by_cases hold : s.raft.position r + 1 ≤ (s.replica r).lastApplied
  · have hskip : (s.replica r).applyCommand (s.raft.position r + 1) op large = s.replica r :=
      if_pos hold
    rw [hskip] at hi
    exact Or.inl (h.told r i c hreg hi)
  · have hposition := h.notAhead.position r
    rw [if_pos (show (s.replica r).view.made = true from System.made_of_reading hreading)] at hposition
    have hposition : s.raft.position r ≤ (s.replica r).lastApplied := hposition
    have hlast : ((s.replica r).applyCommand (s.raft.position r + 1) op large).lastApplied =
        s.raft.position r + 1 :=
      congrArg View.lastApplied ((s.replica r).view_applyCommand (not_le.mp hold) op large)
    rw [hlast] at hi
    rcases Nat.lt_or_ge (s.replica r).lastApplied i with hlt | hge
    · obtain rfl : i = s.raft.position r + 1 := by omega
      obtain ⟨st, hst, hslot⟩ := h.slot hreg
      exact Or.inr (RSM.told_applyCommand (not_le.mp hold) hst hslot hreg)
    · exact Or.inl (h.told r i c hreg hge)

/-- Everybody whose index a snapshot covers is told. -/
theorem told_snapshot (h : Woken maxraftstate tr s) {r : Fin n} {index : Nat} {data : Blob M.Bytes}
    {rsm : RSM n M} (hrsm : (s.replica r).applySnapshot index data = some rsm) {i c : Nat}
    (hreg : rsm.pendingOps i = some c) (hi : i ≤ rsm.lastApplied) :
    Told tr s r c ∨ rsm.told c = true := by
  rcases RSM.applySnapshot_cases hrsm with ⟨-, rfl⟩ | ⟨-, -, rfl⟩
  · exact Or.inl (h.told r i c hreg hi)
  · obtain ⟨st, hst, hslot⟩ := h.slot hreg
    right
    have hi : i ≤ index := hi
    exact RSM.told_notify hst hslot hreg (by simpa using hi)

theorem step (h : Woken maxraftstate tr s) (htimely : Timely s a) (hs : s.step a = some t) :
    Woken maxraftstate (tr ++ [(s, a)]) t := by
  refine ⟨h.notAhead.step (System.effect hs), h.orderly.step hs, h.noCalls.step hs, ?_⟩
  intro j i c hreg hi
  cases ha : a.isQuiet with
  | true =>
    obtain ⟨hquiet, hlife⟩ := System.quiet_step hs ha
    exact h.told_quiet (by rw [hlife]) (hquiet j).lastApplied (hquiet j).pending hreg hi
  | false =>
    cases a with
    | number r d =>
      obtain ⟨rsm, hrsm, rfl⟩ := Option.map_eq_some_iff.mp hs
      refine h.told_setReplica s.raft ?_ hreg hi
      intro i c hreg hi
      obtain ⟨call, -, -, rfl | rfl⟩ := RSM.doSubmitNumber_cases hrsm
      · exact Or.inl (h.told r i c hreg hi)
      · exact Or.inl (h.told r i c hreg hi)
    | register r d =>
      obtain ⟨rsm, hrsm, rfl⟩ := Option.map_eq_some_iff.mp hs
      refine h.told_setReplica s.raft ?_ hreg hi
      intro i c hreg hi
      exact Or.inl (h.told_register htimely hrsm hreg hi)
    | deliver r large =>
      obtain ⟨index, op, hreading, hnext, rfl⟩ := System.deliver_cases hs
      refine h.told_setReplica _ ?_ hreg hi
      intro i c hreg hi
      apply h.told_command hreading hnext _ hi
      rcases (s.replica r).applyCommand_cases index op large with ⟨-, heq⟩ | ⟨-, due, heq⟩
      · rwa [heq] at hreg
      · rwa [heq] at hreg
    | deliverSnapshot r k =>
      obtain ⟨index, data, rsm, -, -, hrsm, rfl⟩ := System.deliverSnapshot_cases hs
      refine h.told_setReplica _ ?_ hreg hi
      intro i c hreg hi
      exact h.told_snapshot hrsm hreg hi
    | restart r =>
      obtain rfl := Option.some.inj hs
      by_cases hj : j = r
      · subst hj
        have hnone : (Function.update s.replica j _ j).pendingOps i = some c := hreg
        rw [Function.update_self] at hnone
        contradiction
      · have hsame : Function.update s.replica r (RSM.newRSM M r (s.replica r).maxraftstate) j =
            s.replica j := Function.update_of_ne hj _ _
        refine told_snoc (h.told j i c ?_ ?_) (Function.update_of_ne hj _ _)
        · rw [← hsame]
          exact hreg
        · rw [← hsame]
          exact hi
    | readSnapshot r =>
      obtain ⟨hnew, hs⟩ := Option.ite_none_left_eq_some.mp hs
      obtain rfl := Option.some.inj hs
      refine h.told_setReplica s.raft ?_ hreg hi
      intro i c hreg hi
      rw [RSM.pendingOps_readSnapshot, h.nothing_registered (by simpa using hnew)] at hreg
      contradiction
    | _ => contradiction

end Woken

/-! ## Runs -/

/-- In every run in which no call registers at an index that its replica has applied: whenever an op
is registered at such an index, a value has been sent on its channel. -/
theorem registered_is_told {maxraftstate : Int} {tr : Trace n M} {s : System n M}
    (h : Run maxraftstate tr s) (htimely : ∀ x ∈ tr, Timely x.1 x.2) {r : Fin n} {i c : Nat}
    (hreg : (s.replica r).pendingOps i = some c) (hi : i ≤ (s.replica r).lastApplied) :
    Told tr s r c := by
  have hwoken : Woken maxraftstate tr s := by
    clear hreg hi
    induction h with
    | nil => exact .initial maxraftstate
    | @snoc tr t u a _ hstep ih =>
      have hbefore := ih (fun x hx => htimely x (mem_snoc hx))
      exact hbefore.step (htimely (t, a) (by simp)) hstep
  exact hwoken.told r i c hreg hi

/-- In a run in which a call waits before its entry is applied, the reader leaves it a value. -/
theorem registered_is_told_undisturbed :
    ((sumStart.after ((undisturbed 0).take 6)).replica 0).pendingOps 1 = some 0 ∧
      Told (sumStart.traceOf ((undisturbed 0).take 6)) (sumStart.after ((undisturbed 0).take 6)) 0 0 := by
  have hrun : Run (-1) (sumStart.traceOf ((undisturbed 0).take 6))
      (sumStart.after ((undisturbed 0).take 6)) := System.run_of_enabled (by decide)
  exact ⟨by decide, registered_is_told hrun (by decide) (i := 1) (by decide) (by decide)⟩

/-- `Start` returns index 1, the entry is committed and applied, and only then is the op registered. -/
def tooLate (r : Fin 3) : List (Action 3 Nat) :=
  [.submit r 5, .number r 0, .start r 0 (some (1, 1)), .commit 0, .deliver r false, .register r 0]

/-- The op waits at an index that is applied, it is the very op applied there, and no value was sent
on its channel. -/
theorem registered_too_late :
    Run (-1) (sumStart.traceOf (tooLate 0)) (sumStart.after (tooLate 0)) ∧
    (sumStart.after (tooLate 0)).raft.agreed = [(1, ⟨0, 1, 5⟩)] ∧
    ((sumStart.after (tooLate 0)).replica 0).lastApplied = 1 ∧
    ((sumStart.after (tooLate 0)).replica 0).pendingOps 1 = some 0 ∧
    ((sumStart.after (tooLate 0)).replica 0).stage 0 =
      some (.waiting ⟨⟨0, 1, 5⟩, none, none⟩ 1 1) ∧
    ¬ Told (sumStart.traceOf (tooLate 0)) (sumStart.after (tooLate 0)) 0 0 :=
  ⟨System.run_of_enabled (by decide), by decide, by decide, by decide, by decide, by decide⟩

end DistSys.Rsm
