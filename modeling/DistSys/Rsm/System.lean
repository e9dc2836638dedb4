import DistSys.Lib.Transition
import DistSys.Rsm.Node
import DistSys.Rsm.SafeRaft

/- A cluster of replicas over a safe Raft.

   Every step of a goroutine between two points where another may run is one
   action, so the runs are all interleavings of any number of `Submit` calls, the
   readers and Raft. What Raft answers to `Start`, `GetState` and `PersistBytes` is
   part of the action; `Start` is bound to what a safe Raft may answer. A restart
   makes a new `RSM` and a new state machine; the calls of the old one are gone. It is
   two actions, since Raft runs before `MakeRSM` reads the snapshot: another one may be
   installed in between. Until then there is no reader, and nobody can call `Submit`. -/
namespace DistSys.Rsm

open Lib

variable {n : Nat} {Q R : Type} {M : StateMachine Q R}

/-- `life` counts the restarts of a replica. -/
structure System (n : Nat) {Q R : Type} (M : StateMachine Q R) where
  raft : SafeRaft n (Op n Q) (Blob M.Bytes)
  replica : Fin n → RSM n M
  life : Fin n → Nat

inductive Action (n : Nat) (Q : Type) where
  | submit (r : Fin n) (req : Q)
  | submitDone (r : Fin n) (c : Nat)
  | submitTimeout (r : Fin n) (c : Nat)
  /-- `doSubmit` of call `c` takes its id. -/
  | number (r : Fin n) (c : Nat)
  /-- `doSubmit` calls `Start`, which answers. -/
  | start (r : Fin n) (c : Nat) (answer : Option (Nat × Nat))
  | register (r : Fin n) (c : Nat)
  | waitDone (r : Fin n) (c : Nat)
  | waitShutdown (r : Fin n) (c : Nat)
  | waitTimer (r : Fin n) (c : Nat) (currentTerm : Nat) (isLeader : Bool)
  | remove (r : Fin n) (c : Nat)
  /-- Raft agrees on the entry of the `k`-th recorded `Start`. -/
  | commit (k : Nat)
  /-- The reader takes the next command. -/
  | deliver (r : Fin n) (large : Bool)
  /-- The reader runs the `createSnapshot` that is due. -/
  | createSnapshot (r : Fin n)
  /-- The `k`-th snapshot handed over reaches the persister of another replica. -/
  | install (r : Fin n) (k : Nat)
  /-- The reader takes it. -/
  | deliverSnapshot (r : Fin n) (k : Nat)
  | kill (r : Fin n)
  /-- A crash, and `MakeRSM` up to the return of `raft.Make`. -/
  | restart (r : Fin n)
  /-- The rest of `MakeRSM`. -/
  | readSnapshot (r : Fin n)

namespace System

/-- All replicas made on empty persisters. -/
def initial (n : Nat) (M : StateMachine Q R) (maxraftstate : Int) : System n M where
  raft := SafeRaft.initial n _ _
  replica := fun r => RSM.makeRSM M r maxraftstate none
  life := fun _ => 0

def setReplica (s : System n M) (r : Fin n) (rsm : RSM n M) : System n M :=
  { s with replica := Function.update s.replica r rsm }

@[simp] theorem replica_setReplica_self (s : System n M) (r : Fin n) (rsm : RSM n M) :
    (s.setReplica r rsm).replica r = rsm := Function.update_self _ _ _

theorem replica_setReplica_of_ne (s : System n M) {r j : Fin n} (h : j ≠ r) (rsm : RSM n M) :
    (s.setReplica r rsm).replica j = s.replica j := Function.update_of_ne h _ _

/-- Whether the reader is waiting for a message. -/
def reading (s : System n M) (r : Fin n) : Bool :=
  (s.replica r).made && !(s.replica r).shutdown && (s.replica r).snapshotDue.isNone

/-- A step of one goroutine of a replica. -/
def local_ (s : System n M) (r : Fin n) (rsm : Option (RSM n M)) : Option (System n M) :=
  rsm.map (s.setReplica r)

/-- One action; `none` when it is not enabled. -/
def step (s : System n M) : Action n Q → Option (System n M)
  | .submit r req =>
    if (s.replica r).made then some (s.setReplica r ((s.replica r).submit req)) else none
  | .submitDone r c => s.local_ r ((s.replica r).submitDone c)
  | .submitTimeout r c => s.local_ r ((s.replica r).submitTimeout c)
  | .number r c => s.local_ r ((s.replica r).doSubmitNumber c)
  | .start r c none => s.local_ r ((s.replica r).doSubmitStarted c none)
  | .start r c (some (index, term)) =>
    match (s.replica r).stage c with
    | some (.numbered op) =>
      match s.raft.start r index term op with
      | some raft =>
        { s with raft := raft }.local_ r ((s.replica r).doSubmitStarted c (some (index, term)))
      | none => none
    | _ => none
  | .register r c => s.local_ r ((s.replica r).doSubmitRegister c)
  | .waitDone r c => s.local_ r ((s.replica r).waitDone c)
  | .waitShutdown r c => s.local_ r ((s.replica r).waitShutdown c)
  | .waitTimer r c currentTerm isLeader =>
    s.local_ r ((s.replica r).waitTimer c currentTerm isLeader)
  | .remove r c => s.local_ r ((s.replica r).doSubmitRemove c)
  | .commit k => (s.raft.commit k).map fun raft => { s with raft := raft }
  | .deliver r large =>
    if s.reading r then
      match s.raft.next r with
      | some (index, op) => some ({ s with raft := s.raft.advance r index }.setReplica r
          ((s.replica r).applyCommand index op large))
      | none => none
    else none
  | .createSnapshot r =>
    match (s.replica r).snapshotDue with
    | none => none
    | some index =>
      let s' := s.setReplica r { s.replica r with snapshotDue := none }
      match (s.replica r).createSnapshot index with
      | some (i, data) => some { s' with raft := s.raft.snapshot r i data }
      | none => some s'
  | .install r k => (s.raft.install r k).map fun raft => { s with raft := raft }
  | .deliverSnapshot r k =>
    if s.reading r then
      match s.raft.nextSnapshot r k with
      | some (index, data) => { s with raft := s.raft.advance r index }.local_ r
          ((s.replica r).applySnapshot index data)
      | none => none
    else none
  | .kill r => some (s.setReplica r (s.replica r).doShutdown)
  | .restart r =>
    some { (s.setReplica r (RSM.newRSM M r (s.replica r).maxraftstate)) with
      raft := s.raft.restart r
      life := Function.update s.life r (s.life r + 1) }
  | .readSnapshot r =>
    if (s.replica r).made then none
    else some (s.setReplica r ((s.replica r).readSnapshot ((s.raft.saved r).map Prod.snd)))

end System

/-- The runs of the cluster. -/
def system (n : Nat) (M : StateMachine Q R) (maxraftstate : Int) : Lts (System n M) (Action n Q) where
  init := fun s => s = System.initial n M maxraftstate
  step := fun s a t => s.step a = some t

/-- A run of the cluster from its start. -/
def Run (maxraftstate : Int) (tr : List (System n M × Action n Q)) (s : System n M) : Prop :=
  (system n M maxraftstate).Run (System.initial n M maxraftstate) tr s

namespace System

/-- The state after some actions. -/
abbrev after (s : System n M) : List (Action n Q) → System n M := Lib.after step s

abbrev traceOf (s : System n M) : List (Action n Q) → List (System n M × Action n Q) :=
  Lib.traceOf step s

/-- Every action is enabled in turn. -/
abbrev enabled (s : System n M) : List (Action n Q) → Bool := Lib.enabled step (fun _ => true) s

theorem run_of_enabled {maxraftstate : Int} {as : List (Action n Q)} {s : System n M}
    (h : s.enabled as = true) : (system n M maxraftstate).Run s (s.traceOf as) (s.after as) := by
  refine Lts.run_of_enabled ?_ h
  intro t a u _ hstep
  exact hstep

/-! ## Steps with a condition -/

section Cases

variable {s t : System n M} {r : Fin n}

theorem start_cases {c index term : Nat} (hs : s.step (.start r c (some (index, term))) = some t) :
    ∃ op raft rsm, (s.replica r).stage c = some (.numbered op) ∧
      s.raft.start r index term op = some raft ∧
      (s.replica r).doSubmitStarted c (some (index, term)) = some rsm ∧
      t = { s with raft := raft }.setReplica r rsm := by
  simp only [step] at hs
  split at hs
  · rename_i op hst
    split at hs
    · rename_i raft hraft
      obtain ⟨rsm, hrsm, rfl⟩ := Option.map_eq_some_iff.mp hs
      exact ⟨op, raft, rsm, hst, hraft, hrsm, rfl⟩
    · contradiction
  · contradiction

theorem deliver_cases {large : Bool} (hs : s.step (.deliver r large) = some t) :
    ∃ index op, s.reading r = true ∧ s.raft.next r = some (index, op) ∧
      t = { s with raft := s.raft.advance r index }.setReplica r
        ((s.replica r).applyCommand index op large) := by
  simp only [step] at hs
  split at hs
  · rename_i hreading
    split at hs
    · rename_i index op hnext
      exact ⟨index, op, hreading, hnext, (Option.some.inj hs).symm⟩
    · contradiction
  · contradiction

theorem deliverSnapshot_cases {k : Nat} (hs : s.step (.deliverSnapshot r k) = some t) :
    ∃ index data rsm, s.reading r = true ∧ s.raft.nextSnapshot r k = some (index, data) ∧
      (s.replica r).applySnapshot index data = some rsm ∧
      t = { s with raft := s.raft.advance r index }.setReplica r rsm := by
  simp only [step] at hs
  split at hs
  · rename_i hreading
    split at hs
    · rename_i index data hnext
      obtain ⟨rsm, hrsm, rfl⟩ := Option.map_eq_some_iff.mp hs
      exact ⟨index, data, rsm, hreading, hnext, hrsm, rfl⟩
    · contradiction
  · contradiction

theorem createSnapshot_cases (hs : s.step (.createSnapshot r) = some t) :
    ∃ index, (s.replica r).snapshotDue = some index ∧
      (t = s.setReplica r { s.replica r with snapshotDue := none } ∨
        ∃ i data, (s.replica r).createSnapshot index = some (i, data) ∧
          t = { s.setReplica r { s.replica r with snapshotDue := none } with
            raft := s.raft.snapshot r i data }) := by
  simp only [step] at hs
  split at hs
  · contradiction
  · rename_i index hdue
    refine ⟨index, hdue, ?_⟩
    split at hs
    · rename_i i data hcreate
      exact Or.inr ⟨i, data, hcreate, (Option.some.inj hs).symm⟩
    · exact Or.inl (Option.some.inj hs).symm

theorem install_cases {k : Nat} (hs : s.step (.install r k) = some t) :
    ∃ index data, (index, data) ∈ s.raft.taken ∧ s.raft.savedIndex r < index ∧
      t = { s with raft := { s.raft with
        saved := Function.update s.raft.saved r (some (index, data)) } } := by
  obtain ⟨raft, hraft, rfl⟩ := Option.map_eq_some_iff.mp hs
  unfold SafeRaft.install at hraft
  split at hraft
  · rename_i index data hget
    obtain ⟨hnew, hraft⟩ := Option.ite_none_left_eq_some.mp hraft
    obtain rfl := Option.some.inj hraft
    exact ⟨index, data, List.mem_of_getElem? hget, not_le.mp hnew, rfl⟩
  · contradiction

end Cases

end System

end DistSys.Rsm
