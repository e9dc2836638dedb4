import DistSys.Rsm.Cases
import DistSys.Rsm.System

/- The state of a replica is that of the agreed log up to `lastApplied`.

   The calls of `Submit` do not touch the state machine (`View`), so only the reader and `MakeRSM`
   matter. A command is skipped when a snapshot has brought the replica past it; it is applied
   when it is the next one, since the messages of Raft leave no gap behind `lastApplied`. A
   snapshot is taken under the index that its state is at, so whoever restores it is at that index.
   Between `raft.Make` and the reading of the snapshot a newer one may be installed: Raft is then
   behind the replica, which skips what it delivers again. -/
namespace DistSys.Rsm

open Lib

variable {n : Nat} {Q R : Type} {M : StateMachine Q R}

/-! ## What the calls leave alone -/

/-- The part of a replica that the reader and `MakeRSM` change. -/
structure View (M : StateMachine Q R) where
  sm : M.State
  lastApplied : Nat
  maxraftstate : Int
  snapshotDue : Option Nat
  made : Bool

namespace RSM

variable {rsm rsm' : RSM n M} {c : Nat}

def view (rsm : RSM n M) : View M :=
  ⟨rsm.sm, rsm.lastApplied, rsm.maxraftstate, rsm.snapshotDue, rsm.made⟩

@[simp] theorem view_setStage (rsm : RSM n M) (c : Nat) (stage : Stage n Q R) :
    (rsm.setStage c stage).view = rsm.view := rfl

@[simp] theorem view_updateAt (rsm : RSM n M) (index : Nat)
    (f : PendingOp n Q R → PendingOp n Q R) : (rsm.updateAt index f).view = rsm.view := by
  unfold updateAt
  split <;> rfl

@[simp] theorem view_notify (rsm : RSM n M) (at_ : Nat → Bool) (res : Bool) :
    (rsm.notify at_ res).view = rsm.view := rfl

theorem view_submit (rsm : RSM n M) (req : Q) : (rsm.submit req).view = rsm.view := by
  unfold submit
  split <;> rfl

theorem view_submitDone (h : rsm.submitDone c = some rsm') : rsm'.view = rsm.view := by
  obtain ⟨call, err, result, -, -, rfl⟩ := submitDone_cases h
  rfl

theorem view_submitTimeout (h : rsm.submitTimeout c = some rsm') : rsm'.view = rsm.view := by
  obtain ⟨call, -, rfl⟩ := submitTimeout_cases h
  rfl

theorem view_doSubmitNumber (h : rsm.doSubmitNumber c = some rsm') : rsm'.view = rsm.view := by
  obtain ⟨call, -, -, rfl | rfl⟩ := doSubmitNumber_cases h
  · rfl
  · rfl

theorem view_doSubmitStarted {start : Option (Nat × Nat)}
    (h : rsm.doSubmitStarted c start = some rsm') : rsm'.view = rsm.view := by
  obtain ⟨op, -, ⟨-, rfl⟩ | ⟨index, term, -, rfl⟩⟩ := doSubmitStarted_cases h
  · rfl
  · rfl

theorem view_doSubmitRegister (h : rsm.doSubmitRegister c = some rsm') : rsm'.view = rsm.view := by
  obtain ⟨p, index, term, -, ⟨-, rfl⟩ | ⟨-, rfl⟩⟩ := doSubmitRegister_cases h
  · rfl
  · rw [view_setStage]
    exact view_updateAt rsm _ _

theorem view_waitDone (h : rsm.waitDone c = some rsm') : rsm'.view = rsm.view := by
  obtain ⟨p, index, term, err, result, -, -, rfl⟩ := waitDone_cases h
  rfl

theorem view_waitShutdown (h : rsm.waitShutdown c = some rsm') : rsm'.view = rsm.view := by
  obtain ⟨p, index, term, -, rfl⟩ := waitShutdown_cases h
  rfl

theorem view_waitTimer {currentTerm : Nat} {isLeader : Bool}
    (h : rsm.waitTimer c currentTerm isLeader = some rsm') : rsm'.view = rsm.view := by
  rcases waitTimer_cases h with rfl | ⟨p, index, term, -, rfl⟩
  · rfl
  · rfl

theorem view_doSubmitRemove (h : rsm.doSubmitRemove c = some rsm') : rsm'.view = rsm.view := by
  obtain ⟨p, index, term, err, result, -, rfl⟩ := doSubmitRemove_cases h
  rfl

theorem view_doShutdown (rsm : RSM n M) : rsm.doShutdown.view = rsm.view := rfl

/-! ## What the reader does -/

/-- A command that is new is executed. -/
theorem view_applyCommand (rsm : RSM n M) {commandIndex : Nat} (h : rsm.lastApplied < commandIndex)
    (op : Op n Q) (large : Bool) :
    (rsm.applyCommand commandIndex op large).view =
      { rsm.view with
        sm := (M.doOp rsm.sm op.req).1
        lastApplied := commandIndex
        snapshotDue := if rsm.maxraftstate > 0 ∧ large then some commandIndex
          else rsm.snapshotDue } := by
  unfold applyCommand
  rw [if_neg (by omega)]
  dsimp only
  -- the answer to a pending op leaves the rest as it is
  generalize hanswered : RSM.updateAt _ commandIndex _ = answered
  have hview : answered.view = { rsm.view with
      sm := (M.doOp rsm.sm op.req).1
      lastApplied := commandIndex } := by
    rw [← hanswered]
    exact view_updateAt _ _ _
  have hconfig : answered.maxraftstate = rsm.maxraftstate := congrArg View.maxraftstate hview
  by_cases hlarge : rsm.maxraftstate > 0 ∧ large = true
  · rw [if_pos (by rwa [hconfig]), if_pos hlarge]
    show ({ answered.view with snapshotDue := some commandIndex } : View M) = _
    rw [hview]
  · rw [if_neg (by rwa [hconfig]), if_neg hlarge]
    exact hview

theorem view_applySnapshot {snapshotIndex : Nat} {data : Blob M.Bytes}
    (h : rsm.applySnapshot snapshotIndex data = some rsm') :
    (snapshotIndex ≤ rsm.lastApplied ∧ rsm' = rsm) ∨
      (rsm.lastApplied < snapshotIndex ∧ data.lastApplied = snapshotIndex ∧
        rsm'.view = { rsm.view with
          sm := M.restore rsm.sm data.smSnapshot
          lastApplied := snapshotIndex }) := by
  rcases applySnapshot_cases h with hold | ⟨hlt, heq, rfl⟩
  · exact Or.inl hold
  · exact Or.inr ⟨hlt, heq, rfl⟩

theorem view_readSnapshot_none (rsm : RSM n M) :
    (rsm.readSnapshot none).view = { rsm.view with made := true } := by
  unfold readSnapshot
  dsimp only
  split <;> rfl

theorem view_readSnapshot_some (rsm : RSM n M) (h : rsm.maxraftstate ≥ 0) (data : Blob M.Bytes) :
    (rsm.readSnapshot (some data)).view = { rsm.view with
      sm := M.restore rsm.sm data.smSnapshot
      lastApplied := data.lastApplied
      made := true } := by
  unfold readSnapshot
  dsimp only
  rw [if_pos h]
  rfl

end RSM

/-! ## The invariant -/

/-- The state machine after the first `i` requests of the log. -/
def stateAfter (M : StateMachine Q R) (agreed : List (Nat × Op n Q)) (i : Nat) : M.State :=
  ((agreed.take i).map fun entry => entry.2.req).foldl (fun state req => (M.doOp state req).1) M.init

theorem stateAfter_succ {agreed : List (Nat × Op n Q)} {i term : Nat} {op : Op n Q}
    (h : agreed[i]? = some (term, op)) :
    stateAfter M agreed (i + 1) = (M.doOp (stateAfter M agreed i) op.req).1 := by
  simp [stateAfter, List.take_add_one, h]

theorem stateAfter_append {agreed : List (Nat × Op n Q)} {i : Nat} (h : i ≤ agreed.length)
    (later : List (Nat × Op n Q)) : stateAfter M (agreed ++ later) i = stateAfter M agreed i := by
  rw [stateAfter, List.take_append_of_le_length h, stateAfter]

/-- A replica is at its place of the log. -/
structure View.At (view : View M) (agreed : List (Nat × Op n Q)) : Prop where
  le : view.lastApplied ≤ agreed.length
  sm : view.sm = stateAfter M agreed view.lastApplied

/-- Raft is not ahead of a replica, or not ahead of the snapshot that one is about to read; a
snapshot carries the index it is stored under. -/
structure NotAhead (maxraftstate : Int) (s : System n M) : Prop where
  config : ∀ r, (s.replica r).view.maxraftstate = maxraftstate
  taken : ∀ i data, (i, data) ∈ s.raft.taken → 0 < maxraftstate ∧ data.lastApplied = i
  saved : ∀ r x, s.raft.saved r = some x → x ∈ s.raft.taken
  position : ∀ r, s.raft.position r ≤
    if (s.replica r).view.made then (s.replica r).view.lastApplied else s.raft.savedIndex r
  due : ∀ r index, (s.replica r).view.snapshotDue = some index → 0 < maxraftstate

/-- Everything that holds a state of the machine holds one of the log; Raft is not ahead of a
replica, or not ahead of the snapshot that one is about to read. -/
structure Replays (maxraftstate : Int) (s : System n M) : Prop where
  config : ∀ r, (s.replica r).view.maxraftstate = maxraftstate
  replica : ∀ r, (s.replica r).view.At s.raft.agreed
  taken : ∀ i data, (i, data) ∈ s.raft.taken → 0 < maxraftstate ∧ data.lastApplied = i ∧
    i ≤ s.raft.agreed.length ∧ data.smSnapshot = M.snapshot (stateAfter M s.raft.agreed i)
  saved : ∀ r x, s.raft.saved r = some x → x ∈ s.raft.taken
  position : ∀ r, s.raft.position r ≤
    if (s.replica r).view.made then (s.replica r).view.lastApplied else s.raft.savedIndex r
  due : ∀ r index, (s.replica r).view.snapshotDue = some index → 0 < maxraftstate

theorem view_initial (maxraftstate : Int) (r : Fin n) :
    ((System.initial n M maxraftstate).replica r).view = ⟨M.init, 0, maxraftstate, none, true⟩ := by
  simp only [System.initial, RSM.makeRSM, RSM.readSnapshot]
  split <;> rfl

theorem NotAhead.initial (maxraftstate : Int) :
    NotAhead maxraftstate (System.initial n M maxraftstate) := by
  refine ⟨?_, ?_, ?_, ?_, ?_⟩
  · intro r
    rw [view_initial]
  · intro i data hmem
    simp [System.initial, SafeRaft.initial] at hmem
  · intro r x hx
    simp [System.initial, SafeRaft.initial] at hx
  · intro r
    simp [System.initial, SafeRaft.initial]
  · intro r index hdue
    rw [view_initial] at hdue
    contradiction

/-! ## What a step can do -/

/-- What a step does to the machines and to the messages and snapshots of Raft. -/
inductive Effect (s : System n M) : System n M → Prop where
  /-- The calls go on, or the log grows. -/
  | other {t : System n M} (view : ∀ r, (t.replica r).view = (s.replica r).view)
      (agreed : s.raft.agreed <+: t.raft.agreed) (taken : t.raft.taken = s.raft.taken)
      (saved : t.raft.saved = s.raft.saved) (position : t.raft.position = s.raft.position) : Effect s t
  | command {r : Fin n} {term : Nat} {op : Op n Q} {large : Bool} (made : (s.replica r).made = true)
      (get : s.raft.agreed[s.raft.position r]? = some (term, op)) :
      Effect s (System.setReplica { s with raft := s.raft.advance r (s.raft.position r + 1) } r
        ((s.replica r).applyCommand (s.raft.position r + 1) op large))
  | snapshot {r : Fin n} {index : Nat} {data : Blob M.Bytes} {rsm : RSM n M}
      (made : (s.replica r).made = true) (mem : (index, data) ∈ s.raft.taken)
      (apply : (s.replica r).applySnapshot index data = some rsm) :
      Effect s (System.setReplica { s with raft := s.raft.advance r index } r rsm)
  /-- `createSnapshot` is skipped, by the code or by Raft. -/
  | skip {r : Fin n} {index : Nat} (due : (s.replica r).snapshotDue = some index) :
      Effect s (s.setReplica r { s.replica r with snapshotDue := none })
  | create {r : Fin n} {index i : Nat} {data : Blob M.Bytes}
      (due : (s.replica r).snapshotDue = some index)
      (create : (s.replica r).createSnapshot index = some (i, data)) (new : s.raft.savedIndex r < i) :
      Effect s { s.setReplica r { s.replica r with snapshotDue := none } with
        raft := { s.raft with
          taken := (i, data) :: s.raft.taken
          saved := Function.update s.raft.saved r (some (i, data)) } }
  | install {r : Fin n} {index : Nat} {data : Blob M.Bytes} (mem : (index, data) ∈ s.raft.taken)
      (new : s.raft.savedIndex r < index) :
      Effect s { s with raft := { s.raft with
        saved := Function.update s.raft.saved r (some (index, data)) } }
  | restart (r : Fin n) : Effect s
      { s.setReplica r (RSM.newRSM M r (s.replica r).maxraftstate) with
        raft := s.raft.restart r
        life := Function.update s.life r (s.life r + 1) }
  | read {r : Fin n} (new : (s.replica r).made = false) :
      Effect s (s.setReplica r ((s.replica r).readSnapshot ((s.raft.saved r).map Prod.snd)))

section Step

variable {maxraftstate : Int} {s t : System n M}

theorem view_setReplica {r : Fin n} {rsm : RSM n M} (P : Fin n → View M → Prop)
    (hr : P r rsm.view) (hothers : ∀ j, P j (s.replica j).view) (j : Fin n) :
    P j ((s.setReplica r rsm).replica j).view := by
  by_cases hj : j = r
  · subst hj
    simpa [System.setReplica] using hr
  · simpa [System.setReplica, hj] using hothers j

namespace System

/-- A step of the calls of one replica. -/
theorem effect_local {r : Fin n} {o : Option (RSM n M)} (hs : s.local_ r o = some t)
    (ho : ∀ rsm, o = some rsm → rsm.view = (s.replica r).view) : Effect s t := by
  obtain ⟨rsm, hrsm, rfl⟩ := Option.map_eq_some_iff.mp hs
  refine Effect.other ?_ (List.prefix_refl _) rfl rfl rfl
  exact view_setReplica (fun j view => view = (s.replica j).view) (ho rsm hrsm) (fun _ => rfl)

theorem made_of_reading {r : Fin n} (h : s.reading r = true) : (s.replica r).made = true := by
  simp only [reading, Bool.and_eq_true] at h
  exact h.1.1

theorem effect_commit {k : Nat} (hs : s.step (.commit k) = some t) : Effect s t := by
  obtain ⟨raft, hraft, rfl⟩ := Option.map_eq_some_iff.mp hs
  obtain ⟨x, -, -, rfl⟩ := SafeRaft.commit_eq hraft
  exact Effect.other (fun _ => rfl) (List.prefix_append _ _) rfl rfl rfl

theorem effect {a : Action n Q} (hs : s.step a = some t) : Effect s t := by
  cases a with
  | submit r req =>
    obtain ⟨-, hs⟩ := Option.ite_none_right_eq_some.mp hs
    refine effect_local (r := r) (o := some ((s.replica r).submit req)) hs ?_
    rintro rsm ⟨rfl⟩
    exact RSM.view_submit _ req
  | submitDone r c => exact effect_local hs fun _ => RSM.view_submitDone
  | submitTimeout r c => exact effect_local hs fun _ => RSM.view_submitTimeout
  | number r c => exact effect_local hs fun _ => RSM.view_doSubmitNumber
  | start r c answer =>
    cases answer with
    | none => exact effect_local hs fun _ => RSM.view_doSubmitStarted
    | some answer =>
      obtain ⟨op, raft, rsm, -, hraft, hrsm, rfl⟩ := start_cases hs
      obtain rfl := SafeRaft.start_eq hraft
      refine Effect.other ?_ (List.prefix_refl _) rfl rfl rfl
      exact view_setReplica (fun j view => view = (s.replica j).view)
        (RSM.view_doSubmitStarted hrsm) (fun _ => rfl)
  | register r c => exact effect_local hs fun _ => RSM.view_doSubmitRegister
  | waitDone r c => exact effect_local hs fun _ => RSM.view_waitDone
  | waitShutdown r c => exact effect_local hs fun _ => RSM.view_waitShutdown
  | waitTimer r c currentTerm isLeader => exact effect_local hs fun _ => RSM.view_waitTimer
  | remove r c => exact effect_local hs fun _ => RSM.view_doSubmitRemove
  | commit k => exact effect_commit hs
  | deliver r large =>
    obtain ⟨index, op, hreading, hnext, rfl⟩ := deliver_cases hs
    obtain ⟨⟨term, op'⟩, hget, heq⟩ := Option.map_eq_some_iff.mp hnext
    obtain ⟨rfl, rfl⟩ : s.raft.position r + 1 = index ∧ op' = op := by simpa using heq
    exact Effect.command (made_of_reading hreading) hget
  | createSnapshot r =>
    obtain ⟨index, hdue, rfl | ⟨i, data, hcreate, rfl⟩⟩ := createSnapshot_cases hs
    · exact Effect.skip hdue
    · unfold SafeRaft.snapshot
      split
      · exact Effect.skip hdue
      · rename_i hnew
        exact Effect.create hdue hcreate (not_le.mp hnew)
  | install r k =>
    obtain ⟨index, data, hmem, hnew, rfl⟩ := install_cases hs
    exact Effect.install hmem hnew
  | deliverSnapshot r k =>
    obtain ⟨index, data, rsm, hreading, hnext, hrsm, rfl⟩ := deliverSnapshot_cases hs
    exact Effect.snapshot (made_of_reading hreading) (SafeRaft.nextSnapshot_mem hnext) hrsm
  | kill r =>
    refine effect_local (r := r) (o := some (s.replica r).doShutdown) hs ?_
    rintro rsm ⟨rfl⟩
    exact RSM.view_doShutdown _
  | restart r =>
    obtain rfl := Option.some.inj hs
    exact Effect.restart r
  | readSnapshot r =>
    obtain ⟨hnew, hs⟩ := Option.ite_none_left_eq_some.mp hs
    obtain rfl := Option.some.inj hs
    exact Effect.read (by simpa using hnew)

end System

/-! ## Raft stays behind -/

theorem savedIndex_update {raft : SafeRaft n (Op n Q) (Blob M.Bytes)} {r : Fin n} {i : Nat}
    {data : Blob M.Bytes} {taken : List (Nat × Blob M.Bytes)} (h : raft.savedIndex r < i) (j : Fin n) :
    raft.savedIndex j ≤ SafeRaft.savedIndex
      { raft with taken := taken, saved := Function.update raft.saved r (some (i, data)) } j := by
  by_cases hj : j = r
  · subst hj
    simpa [SafeRaft.savedIndex] using h.le
  · simp [SafeRaft.savedIndex, hj]

namespace NotAhead

/-- A replica takes a message of Raft and is not before it then. -/
theorem advance (h : NotAhead maxraftstate s) {r : Fin n} {rsm : RSM n M} {index : Nat}
    (hconfig : rsm.view.maxraftstate = maxraftstate) (hmade : rsm.view.made = true)
    (hindex : index ≤ rsm.view.lastApplied)
    (hdue : ∀ i, rsm.view.snapshotDue = some i → 0 < maxraftstate) :
    NotAhead maxraftstate (System.setReplica { s with raft := s.raft.advance r index } r rsm) := by
  refine ⟨?_, h.taken, h.saved, ?_, ?_⟩
  · exact view_setReplica (fun _ view => view.maxraftstate = maxraftstate) hconfig h.config
  · intro j
    by_cases hj : j = r
    · subst hj
      simpa [System.setReplica, SafeRaft.advance, hmade] using hindex
    · simpa [System.setReplica, SafeRaft.advance, SafeRaft.savedIndex, hj] using h.position j
  · exact view_setReplica (fun _ view => ∀ i, view.snapshotDue = some i → 0 < maxraftstate) hdue h.due

/-- The reader is started, at an index that Raft is not ahead of. -/
theorem makes (h : NotAhead maxraftstate s) {r : Fin n} {rsm : RSM n M}
    (hconfig : rsm.view.maxraftstate = maxraftstate) (hmade : rsm.view.made = true)
    (hposition : s.raft.position r ≤ rsm.view.lastApplied)
    (hdue : ∀ i, rsm.view.snapshotDue = some i → 0 < maxraftstate) :
    NotAhead maxraftstate (s.setReplica r rsm) := by
  have hsame : s.raft.advance r (s.raft.position r) = s.raft := by simp [SafeRaft.advance]
  have hadvance := h.advance (r := r) hconfig hmade hposition hdue
  rw [hsame] at hadvance
  exact hadvance

/-- Raft saves a snapshot, at a higher index. -/
theorem save (h : NotAhead maxraftstate s) {r : Fin n} {i : Nat} {data : Blob M.Bytes}
    {taken : List (Nat × Blob M.Bytes)} (hold : ∀ x ∈ s.raft.taken, x ∈ taken)
    (hmem : (i, data) ∈ taken) (hnew : s.raft.savedIndex r < i)
    (htaken : ∀ i data, (i, data) ∈ taken → 0 < maxraftstate ∧ data.lastApplied = i) :
    NotAhead maxraftstate { s with raft := { s.raft with
      taken := taken, saved := Function.update s.raft.saved r (some (i, data)) } } := by
  refine ⟨h.config, htaken, ?_, ?_, h.due⟩
  · intro j x hx
    by_cases hj : j = r
    · subst hj
      obtain rfl : _ = x := by simpa using hx
      exact hmem
    · exact hold x (h.saved j x (by simpa [hj] using hx))
  · intro j
    have hle := h.position j
    dsimp only
    split at hle
    · rename_i hmade
      rwa [if_pos hmade]
    · rename_i hmade
      rw [if_neg hmade]
      exact hle.trans (savedIndex_update hnew j)

theorem skip (h : NotAhead maxraftstate s) {r : Fin n} (hpos : 0 < maxraftstate) :
    NotAhead maxraftstate (s.setReplica r { s.replica r with snapshotDue := none }) := by
  refine ⟨?_, h.taken, h.saved, ?_, ?_⟩
  · exact view_setReplica (fun _ view => view.maxraftstate = maxraftstate) (h.config r) h.config
  · exact view_setReplica (fun j view => s.raft.position j ≤
      if view.made then view.lastApplied else s.raft.savedIndex j) (h.position r) h.position
  · exact view_setReplica (fun _ view => ∀ i, view.snapshotDue = some i → 0 < maxraftstate)
      (fun _ _ => hpos) h.due

theorem command (h : NotAhead maxraftstate s) {r : Fin n} (hmade : (s.replica r).made = true)
    (op : Op n Q) (large : Bool) :
    NotAhead maxraftstate (System.setReplica { s with raft := s.raft.advance r (s.raft.position r + 1) } r
      ((s.replica r).applyCommand (s.raft.position r + 1) op large)) := by
  by_cases hold : s.raft.position r + 1 ≤ (s.replica r).lastApplied
  · -- the command was applied before, or is covered by a snapshot
    have hskip : (s.replica r).applyCommand (s.raft.position r + 1) op large = s.replica r :=
      if_pos hold
    rw [hskip]
    exact h.advance (h.config r) hmade hold (h.due r)
  · have hview := (s.replica r).view_applyCommand (not_le.mp hold) op large
    refine h.advance ?_ ?_ ?_ ?_
    · rw [hview]
      exact h.config r
    · rw [hview]
      exact hmade
    · rw [hview]
    · intro i hdue
      rw [hview] at hdue
      dsimp only at hdue
      split at hdue
      · rename_i hlarge
        exact (h.config r) ▸ hlarge.1
      · exact h.due r i hdue

/-- The snapshot that is read is the one saved by then, which may be newer than the one that Raft
started from. -/
theorem read (h : NotAhead maxraftstate s) {r : Fin n} (hnew : (s.replica r).made = false) :
    NotAhead maxraftstate
      (s.setReplica r ((s.replica r).readSnapshot ((s.raft.saved r).map Prod.snd))) := by
  have hposition := h.position r
  rw [if_neg (by rw [show (s.replica r).view.made = false from hnew]; decide)] at hposition
  cases hsaved : s.raft.saved r with
  | none =>
    have hview := RSM.view_readSnapshot_none (s.replica r)
    rw [SafeRaft.savedIndex, hsaved] at hposition
    refine h.makes ?_ ?_ ?_ ?_
    · rw [Option.map_none, hview]
      exact h.config r
    · rw [Option.map_none, hview]
    · exact hposition.trans (Nat.zero_le _)
    · rw [Option.map_none, hview]
      exact h.due r
  | some x =>
    obtain ⟨hpos, hidx⟩ := h.taken x.1 x.2 (h.saved r x hsaved)
    have hconfig : (s.replica r).maxraftstate = maxraftstate := h.config r
    have hview := RSM.view_readSnapshot_some (s.replica r) (by omega) x.2
    rw [SafeRaft.savedIndex, hsaved] at hposition
    refine h.makes ?_ ?_ ?_ ?_
    · rw [Option.map_some, hview]
      exact hconfig
    · rw [Option.map_some, hview]
    · rw [Option.map_some, hview]
      exact hposition.trans hidx.ge
    · rw [Option.map_some, hview]
      exact h.due r

theorem step (h : NotAhead maxraftstate s) (he : Effect s t) : NotAhead maxraftstate t := by
  cases he with
  | other hview _ htaken hsaved hposition =>
    refine ⟨?_, ?_, ?_, ?_, ?_⟩
    · intro r
      rw [hview]
      exact h.config r
    · rw [htaken]
      exact h.taken
    · rw [htaken, hsaved]
      exact h.saved
    · intro r
      rw [hview, hposition, SafeRaft.savedIndex, hsaved]
      exact h.position r
    · intro r
      rw [hview]
      exact h.due r
  | command hmade _ => exact h.command hmade _ _
  | @snapshot r _ _ _ hmade _ happly =>
    rcases RSM.view_applySnapshot happly with ⟨hle, rfl⟩ | ⟨-, -, hview⟩
    · exact h.advance (h.config r) hmade hle (h.due r)
    · refine h.advance ?_ ?_ ?_ ?_
      · rw [hview]
        exact h.config r
      · rw [hview]
        exact hmade
      · rw [hview]
      · rw [hview]
        exact h.due r
  | @skip r index hdue => exact h.skip (h.due r index hdue)
  | @create r index i data hdue hcreate hnew =>
    have hpos := h.due r index hdue
    obtain ⟨-, hcreate⟩ := Option.ite_none_left_eq_some.mp hcreate
    obtain ⟨rfl, rfl⟩ := Prod.mk.inj (Option.some.inj hcreate)
    refine (h.skip hpos).save (fun x hx => List.mem_cons_of_mem _ hx) List.mem_cons_self hnew ?_
    intro j data hmem
    rcases List.mem_cons.mp hmem with heq | hmem
    · obtain ⟨rfl, rfl⟩ := Prod.mk.inj heq
      exact ⟨hpos, rfl⟩
    · exact h.taken j data hmem
  | install hmem hnew => exact h.save (fun _ hx => hx) hmem hnew h.taken
  | restart r =>
    refine ⟨?_, h.taken, h.saved, ?_, ?_⟩
    · exact view_setReplica (fun _ view => view.maxraftstate = maxraftstate) (h.config r) h.config
    · intro j
      by_cases hj : j = r
      · subst hj
        simp [System.setReplica, SafeRaft.restart, SafeRaft.advance, SafeRaft.savedIndex, RSM.view,
          RSM.newRSM]
      · simpa [System.setReplica, SafeRaft.restart, SafeRaft.advance, SafeRaft.savedIndex, hj] using
          h.position j
    · exact view_setReplica (fun _ view => ∀ i, view.snapshotDue = some i → 0 < maxraftstate)
        (fun i hi => by simp [RSM.view, RSM.newRSM] at hi) h.due
  | read hnew => exact h.read hnew

end NotAhead

/-! ## The machines follow the log -/

theorem Replays.notAhead (h : Replays maxraftstate s) : NotAhead maxraftstate s where
  config := h.config
  taken := fun i data hmem => ⟨(h.taken i data hmem).1, (h.taken i data hmem).2.1⟩
  saved := h.saved
  position := h.position
  due := h.due

theorem NotAhead.replays (h : NotAhead maxraftstate s)
    (hreplica : ∀ r, (s.replica r).view.At s.raft.agreed)
    (htaken : ∀ i data, (i, data) ∈ s.raft.taken → i ≤ s.raft.agreed.length ∧
      data.smSnapshot = M.snapshot (stateAfter M s.raft.agreed i)) : Replays maxraftstate s where
  config := h.config
  replica := hreplica
  taken := fun i data hmem =>
    ⟨(h.taken i data hmem).1, (h.taken i data hmem).2, htaken i data hmem⟩
  saved := h.saved
  position := h.position
  due := h.due

theorem Replays.initial (maxraftstate : Int) :
    Replays maxraftstate (System.initial n M maxraftstate) := by
  refine (NotAhead.initial maxraftstate).replays ?_ ?_
  · intro r
    rw [view_initial]
    exact ⟨Nat.zero_le _, rfl⟩
  · intro i data hmem
    simp [System.initial, SafeRaft.initial] at hmem

/-- A command that is new is the next one of the log. -/
theorem Replays.applyCommand_at (h : Replays maxraftstate s) {r : Fin n} {term : Nat} {op : Op n Q}
    (hmade : (s.replica r).made = true)
    (hget : s.raft.agreed[s.raft.position r]? = some (term, op)) (large : Bool) :
    ((s.replica r).applyCommand (s.raft.position r + 1) op large).view.At s.raft.agreed := by
  obtain ⟨hle, hsm⟩ := h.replica r
  by_cases hold : s.raft.position r + 1 ≤ (s.replica r).lastApplied
  · have hskip : (s.replica r).applyCommand (s.raft.position r + 1) op large = s.replica r :=
      if_pos hold
    rw [hskip]
    exact ⟨hle, hsm⟩
  · have hposition := h.position r
    rw [if_pos (show (s.replica r).view.made = true from hmade)] at hposition
    have hat : s.raft.position r = (s.replica r).view.lastApplied :=
      Nat.le_antisymm hposition (Nat.le_of_lt_succ (not_le.mp hold))
    rw [(s.replica r).view_applyCommand (not_le.mp hold) op large]
    refine ⟨(List.getElem?_eq_some_iff.mp hget).1, ?_⟩
    dsimp only
    rw [stateAfter_succ hget, hat]
    exact congrArg (fun state => (M.doOp state op.req).1) hsm

theorem Replays.step (h : Replays maxraftstate s)
    (hrestore : ∀ old state, M.restore old (M.snapshot state) = state) {a : Action n Q}
    (hs : s.step a = some t) : Replays maxraftstate t := by
  have he := System.effect hs
  have hnotAhead := h.notAhead.step he
  have hdata : ∀ i data, (i, data) ∈ s.raft.taken → i ≤ s.raft.agreed.length ∧
      data.smSnapshot = M.snapshot (stateAfter M s.raft.agreed i) :=
    fun i data hmem => (h.taken i data hmem).2.2
  cases he with
  | other hview hagreed htaken _ _ =>
    obtain ⟨later, hlater⟩ := hagreed
    refine hnotAhead.replays ?_ ?_
    · intro r
      obtain ⟨hle, hsm⟩ := h.replica r
      rw [hview, ← hlater]
      refine ⟨hle.trans (by simp), ?_⟩
      rw [stateAfter_append hle]
      exact hsm
    · intro i data hmem
      rw [htaken] at hmem
      obtain ⟨hle, hdata⟩ := hdata i data hmem
      rw [← hlater]
      refine ⟨hle.trans (by simp), ?_⟩
      rw [stateAfter_append hle]
      exact hdata
  | command hmade hget =>
    refine hnotAhead.replays ?_ hdata
    exact view_setReplica (fun _ view => view.At s.raft.agreed) (h.applyCommand_at hmade hget _)
      h.replica
  | @snapshot r index data _ _ hmem happly =>
    refine hnotAhead.replays (view_setReplica (fun _ view => view.At s.raft.agreed) ?_ h.replica) hdata
    rcases RSM.view_applySnapshot happly with ⟨-, rfl⟩ | ⟨-, -, hview⟩
    · exact h.replica r
    · obtain ⟨hlen, hsm⟩ := hdata index data hmem
      rw [hview]
      refine ⟨hlen, ?_⟩
      dsimp only
      rw [hsm, hrestore]
  | @skip r _ _ =>
    refine hnotAhead.replays ?_ hdata
    exact view_setReplica (fun _ view => view.At s.raft.agreed)
      ⟨(h.replica r).le, (h.replica r).sm⟩ h.replica
  | @create r _ i data _ hcreate _ =>
    obtain ⟨-, hcreate⟩ := Option.ite_none_left_eq_some.mp hcreate
    obtain ⟨rfl, rfl⟩ := Prod.mk.inj (Option.some.inj hcreate)
    obtain ⟨hle, hsm⟩ := h.replica r
    refine hnotAhead.replays ?_ ?_
    · exact view_setReplica (fun _ view => view.At s.raft.agreed) ⟨hle, hsm⟩ h.replica
    · intro j data hmem
      rcases List.mem_cons.mp hmem with heq | hmem
      · obtain ⟨rfl, rfl⟩ := Prod.mk.inj heq
        exact ⟨hle, congrArg M.snapshot hsm⟩
      · exact hdata j data hmem
  | install _ _ => exact hnotAhead.replays h.replica hdata
  | restart r =>
    -- a new replica has the initial state and has applied nothing
    refine hnotAhead.replays ?_ hdata
    exact view_setReplica (fun _ view => view.At s.raft.agreed) ⟨Nat.zero_le _, rfl⟩ h.replica
  | @read r _ =>
    refine hnotAhead.replays (view_setReplica (fun _ view => view.At s.raft.agreed) ?_ h.replica) hdata
    cases hsaved : s.raft.saved r with
    | none =>
      rw [Option.map_none, RSM.view_readSnapshot_none]
      exact ⟨(h.replica r).le, (h.replica r).sm⟩
    | some x =>
      obtain ⟨hpos, hidx, hlen, hsm⟩ := h.taken x.1 x.2 (h.saved r x hsaved)
      have hconfig : (s.replica r).maxraftstate = maxraftstate := h.config r
      rw [Option.map_some, RSM.view_readSnapshot_some _ (by omega)]
      refine ⟨hidx.le.trans hlen, ?_⟩
      dsimp only
      rw [hsm, hrestore, hidx]

end Step

/-! ## Runs -/

/-- In every state of every run, for a state machine that `Restore` brings back exactly: the state
of a replica is that after the requests at the log indices 1 to `lastApplied`, each once and in
order. So replicas that have applied equally much have the same state. -/
theorem replica_state {maxraftstate : Int}
    (hrestore : ∀ old state, M.restore old (M.snapshot state) = state)
    {tr : List (System n M × Action n Q)} {s : System n M} (h : Run maxraftstate tr s) :
    (∀ r, (s.replica r).lastApplied ≤ s.raft.agreed.length ∧
      (s.replica r).sm = stateAfter M s.raft.agreed (s.replica r).lastApplied) ∧
    ∀ r r', (s.replica r).lastApplied = (s.replica r').lastApplied →
      (s.replica r).sm = (s.replica r').sm := by
  have hinv : ∀ u ∈ visited tr s, Replays maxraftstate u :=
    Lts.Run.invariant (fun _ _ _ hu hstep => hu.step hrestore hstep) h (.initial maxraftstate)
  have hs := hinv s (by simp [visited])
  have hstate : ∀ r, (s.replica r).sm = stateAfter M s.raft.agreed (s.replica r).lastApplied :=
    fun r => (hs.replica r).sm
  refine ⟨fun r => ⟨(hs.replica r).le, hstate r⟩, ?_⟩
  intro r r' hequal
  rw [hstate, hstate, hequal]

/-! ## A run of two replicas

The state machine keeps the requests in their order. -/

section Sample

def listMachine : StateMachine Nat Nat where
  State := List Nat
  Bytes := List Nat
  init := []
  doOp := fun s q => (s ++ [q], s.length)
  snapshot := id
  restore := fun _ b => b

def listStart : System 2 listMachine := System.initial 2 listMachine 1000

/-- Replica `r` applies a request and takes a snapshot, which is installed at `r'` while `MakeRSM` is
between `raft.Make` and the reading of the snapshot; then `r'` is delivered the request. -/
def installing (r r' : Fin 2) : List (Action 2 Nat) :=
  [.restart r', .submit r 5, .number r 0, .start r 0 (some (1, 1)), .register r 0, .commit 0,
    .deliver r true, .createSnapshot r, .install r' 0, .readSnapshot r', .deliver r' false]

theorem replica_state_installing :
    ((listStart.after (installing 0 1)).replica 0).lastApplied = 1 ∧
      ((listStart.after (installing 0 1)).replica 1).lastApplied = 1 ∧
      ((listStart.after (installing 0 1)).replica 1).sm = [5] ∧
      ((listStart.after (installing 0 1)).replica 0).sm =
        ((listStart.after (installing 0 1)).replica 1).sm := by
  have hrun : Run 1000 (listStart.traceOf (installing 0 1)) (listStart.after (installing 0 1)) :=
    System.run_of_enabled (by decide)
  obtain ⟨hstate, hequal⟩ := replica_state (fun _ _ => rfl) hrun
  refine ⟨by decide, by decide, ?_, hequal 0 1 (by decide)⟩
  rw [(hstate 1).2]
  rfl

end Sample

end DistSys.Rsm
