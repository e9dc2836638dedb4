import DistSys.Lib.Counter
import DistSys.Rsm.Submit
import Mathlib.Data.List.Nodup

/- Whether the ids of ops are used once.

   `doSubmit` counts `opId` up and passes `Op{me, opId}` to `Start`. The counter is in
   memory only. `MakeRSM` starts it at zero and sets it to what a stored snapshot says, and
   `applySnapshot` overwrites it with the counter of the replica that took the snapshot. A
   replica that restarts without a snapshot gives its ids out again (`id_used_twice`).

   Uniqueness holds in the runs where no snapshot that a replica takes over has a counter
   behind an id that the replica has used, no replica restarts without one after it has used
   an id, and no counter overflows (`Forward`): an id is then above all the earlier ones of
   its replica. -/
namespace DistSys.Rsm

open Lib

variable {n : Nat} {Q R : Type} {M : StateMachine Q R}

/-! ## What is to be shown -/

/-- The op that a step passes to `Start`, whatever `Start` answers. -/
def passes (x : System n M × Action n Q) : Option (Op n Q) :=
  match x.2 with
  | .start r c _ => ((x.1.replica r).stage c).bind Stage.toStart
  | _ => none

/-- The ops passed to `Start`, one for each call of `doSubmit` that got there. -/
def passed (tr : Trace n M) : List (Op n Q) := tr.filterMap passes

/-- What is to tell ops apart. -/
def Op.key (op : Op n Q) : Fin n × Int64 := (op.me, op.id)

/-! ## The condition -/

/-- The ids that a replica has passed to `Start`, among all ops passed, or is about to. -/
def RSM.usedIds (rsm : RSM n M) (ops : List (Op n Q)) (r : Fin n) : List Int64 :=
  (ops.filter fun op => op.me = r).map Op.id ++
    rsm.calls.filterMap fun call => call.stage.toStart.map Op.id

/-- The counter in the snapshot that `MakeRSM` reads; where it reads none, the 0 it starts with. -/
def System.savedOpId (s : System n M) (r : Fin n) : Int64 :=
  if (s.replica r).maxraftstate ≥ 0 then ((s.raft.saved r).map fun snap => snap.2.opId).getD 0 else 0

/-- The counter does not overflow, and the counter in a snapshot that `applySnapshot` or `MakeRSM`
takes over is not behind an id that the replica has used. -/
def Forward (past : Trace n M) (s : System n M) : Action n Q → Prop
  | .number r _ => (s.replica r).opId ≠ Int64.maxValue
  -- a snapshot that is not beyond what is applied is not taken over
  | .deliverSnapshot r k => ∀ snap ∈ s.raft.nextSnapshot r k, (s.replica r).lastApplied < snap.1 →
      ∀ id ∈ (s.replica r).usedIds (passed past) r, id ≤ snap.2.opId
  | .readSnapshot r => ∀ id ∈ (s.replica r).usedIds (passed past) r, id ≤ s.savedOpId r
  | _ => True

instance (past : Trace n M) (s : System n M) : (a : Action n Q) → Decidable (Forward past s a)
  | .number r _ => inferInstanceAs (Decidable ((s.replica r).opId ≠ Int64.maxValue))
  -- only the ids used are looked at, not all there are
  | .deliverSnapshot r k =>
    @Option.decidableForallMem _ _ (fun _ => @instDecidableForall _ _ _ (List.decidableBAll _ _))
      (s.raft.nextSnapshot r k)
  | .readSnapshot r => List.decidableBAll _ ((s.replica r).usedIds (passed past) r)
  | .submit .. | .submitDone .. | .submitTimeout .. | .start .. | .register .. | .waitDone ..
  | .waitShutdown .. | .waitTimer .. | .remove .. | .commit .. | .deliver .. | .createSnapshot ..
  | .install .. | .kill .. | .restart .. => .isTrue trivial

/-! ## One replica -/

namespace RSM

variable {rsm rsm' : RSM n M} {ops : List (Op n Q)} {r : Fin n}

theorem mem_usedIds {id : Int64} : id ∈ rsm.usedIds ops r ↔
    (∃ op ∈ ops, op.me = r ∧ op.id = id) ∨
      ∃ c op, rsm.stage c = some (.numbered op) ∧ op.id = id := by
  have hcalls : id ∈ (rsm.calls.filterMap fun call => call.stage.toStart.map Op.id) ↔
      ∃ c op, rsm.stage c = some (.numbered op) ∧ op.id = id := by
    rw [List.mem_filterMap]
    constructor
    · rintro ⟨call, hmem, hcall⟩
      obtain ⟨op, hop, rfl⟩ := Option.map_eq_some_iff.mp hcall
      obtain ⟨c, hc⟩ := List.getElem?_of_mem hmem
      refine ⟨c, op, ?_, rfl⟩
      rw [RSM.stage, hc]
      cases hstage : call.stage <;> simp_all [Stage.toStart]
    · rintro ⟨c, op, hst, rfl⟩
      obtain ⟨call, hc, hstage⟩ := Option.map_eq_some_iff.mp hst
      refine ⟨call, List.mem_of_getElem? hc, ?_⟩
      rw [hstage]
      rfl
  rw [usedIds, List.mem_append, hcalls]
  simp [and_assoc]

variable (ops r) in
/-- The ids about to be passed are different from each other and from those passed, and the counter
is not behind any of them. Until `MakeRSM` reads the snapshot it is 0. -/
structure Ids (rsm : RSM n M) : Prop where
  fresh : ∀ c op, rsm.stage c = some (.numbered op) → op.me = r ∧ op.key ∉ ops.map Op.key
  distinct : ∀ c c' op op', rsm.stage c = some (.numbered op) →
    rsm.stage c' = some (.numbered op') → op.id = op'.id → c = c'
  bound : rsm.made = true → ∀ id ∈ rsm.usedIds ops r, id ≤ rsm.opId
  unmade : rsm.made = false → rsm.opId = 0

namespace Ids

theorem of_no_calls (hcalls : rsm.calls = []) (hbound : rsm.made = true → ops = [])
    (hunmade : rsm.made = false → rsm.opId = 0) : rsm.Ids ops r := by
  have hstage : ∀ c, rsm.stage c = none := by
    intro c
    rw [stage, hcalls]
    rfl
  refine ⟨?_, ?_, ?_, hunmade⟩
  · intro c op hst
    rw [hstage] at hst
    contradiction
  · intro c c' op op' hst
    rw [hstage] at hst
    contradiction
  · intro hmade id hid
    rw [mem_usedIds, hbound hmade] at hid
    rcases hid with ⟨op, hop, -⟩ | ⟨c, op, hst, -⟩
    · contradiction
    · rw [hstage] at hst
      contradiction

/-- No id is given out, and the counter is not set back behind one. -/
theorem frame (h : rsm.Ids ops r)
    (hnumbered : ∀ c op, rsm'.stage c = some (.numbered op) → rsm.stage c = some (.numbered op))
    (hbound : rsm'.made = true → ∀ id ∈ rsm.usedIds ops r, id ≤ rsm'.opId)
    (hunmade : rsm'.made = false → rsm'.opId = 0) : rsm'.Ids ops r where
  fresh := fun c op hst => h.fresh c op (hnumbered c op hst)
  distinct := fun c c' op op' hst hst' =>
    h.distinct c c' op op' (hnumbered c op hst) (hnumbered c' op' hst')
  bound := by
    intro hmade id hid
    apply hbound hmade
    rw [mem_usedIds] at hid ⊢
    rcases hid with hid | ⟨c, op, hst, rfl⟩
    · exact Or.inl hid
    · exact Or.inr ⟨c, op, hnumbered c op hst, rfl⟩
  unmade := hunmade

theorem quiet (h : rsm.Ids ops r) (hquiet : rsm.Quiet rsm') : rsm'.Ids ops r := by
  apply h.frame hquiet.numbered
  · rw [hquiet.made, hquiet.opId]
    exact h.bound
  · rw [hquiet.made, hquiet.opId]
    exact h.unmade

end Ids

/-- The counter that `MakeRSM` ends with. -/
theorem opId_readSnapshot (hzero : rsm.opId = 0) (saved : Option (Nat × Blob M.Bytes)) :
    (rsm.readSnapshot (saved.map Prod.snd)).opId =
      if rsm.maxraftstate ≥ 0 then (saved.map fun snap => snap.2.opId).getD 0 else 0 := by
  unfold readSnapshot
  dsimp only
  split
  · cases saved with
    | none => exact hzero
    | some snap => rfl
  · exact hzero

/-- An id above the counter is new. -/
theorem lt_succ_of_ne_max {a : Int64} (h : a ≠ Int64.maxValue) : a < a + 1 := by
  rw [Int64.lt_iff_toInt_lt, toInt_succ (Int64.le_refl a) h]
  exact Int.lt_succ _

/-- A call takes an id that is above all the others. -/
theorem Ids.number (h : rsm.Ids ops r) (hmade : rsm.made = true) {c : Nat} {new : Op n Q}
    (hme : new.me = r) (hid : new.id = rsm.opId + 1) (hmax : rsm.opId ≠ Int64.maxValue) :
    ({ rsm with opId := rsm.opId + 1 }.setStage c (.numbered new)).Ids ops r := by
  have habove : ∀ id ∈ rsm.usedIds ops r, id < new.id := by
    intro id hmem
    rw [hid]
    exact Int64.lt_of_le_of_lt (h.bound hmade id hmem) (lt_succ_of_ne_max hmax)
  have hother : ∀ d op, rsm.stage d = some (.numbered op) → op.id ≠ new.id := by
    intro d op hd heq
    have hlt := habove op.id (mem_usedIds.mpr (Or.inr ⟨d, op, hd, rfl⟩))
    rw [heq] at hlt
    exact Int64.lt_irrefl hlt
  -- a call has the new op, or the one it had
  have hstage : ∀ d op, ({ rsm with opId := rsm.opId + 1 }.setStage c (.numbered new)).stage d =
      some (.numbered op) → (d = c ∧ op = new) ∨ rsm.stage d = some (.numbered op) := by
    intro d op hd
    rw [stage_setStage] at hd
    split at hd
    · rename_i heq
      obtain ⟨-, -, hop⟩ := Option.map_eq_some_iff.mp hd
      exact Or.inl ⟨heq, (Stage.numbered.inj hop).symm⟩
    · exact Or.inr hd
  refine ⟨?_, ?_, ?_, fun hnew => absurd (hmade.symm.trans hnew) (by decide)⟩
  · intro d op hd
    rcases hstage d op hd with ⟨-, rfl⟩ | hold
    · refine ⟨hme, ?_⟩
      intro hmem
      obtain ⟨op', hop', hkey⟩ := List.mem_map.mp hmem
      obtain ⟨hme', hid'⟩ := Prod.mk.inj hkey
      have hlt := habove op'.id (mem_usedIds.mpr (Or.inl ⟨op', hop', hme'.trans hme, rfl⟩))
      rw [hid'] at hlt
      exact Int64.lt_irrefl hlt
    · exact h.fresh d op hold
  · intro d d' op op' hd hd' heq
    rcases hstage d op hd with ⟨rfl, rfl⟩ | hold <;> rcases hstage d' op' hd' with ⟨rfl, rfl⟩ | hold'
    · rfl
    · exact absurd heq.symm (hother d' op' hold')
    · exact absurd heq (hother d op hold)
    · exact h.distinct d d' op op' hold hold' heq
  · intro _ id hmem
    show id ≤ rsm.opId + 1
    rw [← hid]
    rw [mem_usedIds] at hmem
    rcases hmem with hpassed | ⟨d, op, hd, rfl⟩
    · exact Int64.le_of_lt (habove id (mem_usedIds.mpr (Or.inl hpassed)))
    · rcases hstage d op hd with ⟨-, rfl⟩ | hold
      · exact Int64.le_refl _
      · exact Int64.le_of_lt (habove op.id (mem_usedIds.mpr (Or.inr ⟨d, op, hold, rfl⟩)))

/-- A call passes its op to `Start` and has none after that. -/
theorem Ids.pass (h : rsm.Ids ops r) {c : Nat} {op : Op n Q}
    (hop : rsm.stage c = some (.numbered op)) (hquiet : rsm.Quiet rsm')
    (hgone : ∀ op', rsm'.stage c ≠ some (.numbered op')) : rsm'.Ids (ops ++ [op]) r := by
  have hquiet' := h.quiet hquiet
  refine ⟨?_, hquiet'.distinct, ?_, hquiet'.unmade⟩
  · intro d op' hd
    obtain ⟨hme, hfresh⟩ := hquiet'.fresh d op' hd
    refine ⟨hme, ?_⟩
    rw [List.map_append, List.mem_append]
    rintro (hold | hnew)
    · exact hfresh hold
    · obtain ⟨-, hid⟩ := Prod.mk.inj (List.mem_singleton.mp hnew)
      obtain rfl := h.distinct d c op' op (hquiet.numbered d op' hd) hop hid
      exact hgone op' hd
  · intro hmade id hmem
    rw [hquiet.made] at hmade
    rw [hquiet.opId]
    apply h.bound hmade
    rw [mem_usedIds] at hmem ⊢
    rcases hmem with ⟨op', hop', hrest⟩ | ⟨d, op', hd, rfl⟩
    · rcases List.mem_append.mp hop' with hold | hnew
      · exact Or.inl ⟨op', hold, hrest⟩
      · obtain rfl := List.mem_singleton.mp hnew
        exact Or.inr ⟨c, op', hop, hrest.2⟩
    · exact Or.inr ⟨d, op', hquiet.numbered d op' hd, rfl⟩

/-- An op of another replica is passed. -/
theorem Ids.pass_other (h : rsm.Ids ops r) {op : Op n Q} (hop : op.me ≠ r) :
    rsm.Ids (ops ++ [op]) r := by
  refine ⟨?_, h.distinct, ?_, h.unmade⟩
  · intro d op' hd
    obtain ⟨hme, hfresh⟩ := h.fresh d op' hd
    refine ⟨hme, ?_⟩
    rw [List.map_append, List.mem_append]
    rintro (hold | hnew)
    · exact hfresh hold
    · obtain ⟨hme', -⟩ := Prod.mk.inj (List.mem_singleton.mp hnew)
      exact hop (hme'.symm.trans hme)
  · intro hmade id hmem
    apply h.bound hmade
    rw [mem_usedIds] at hmem ⊢
    rcases hmem with ⟨op', hop', hrest⟩ | hmem
    · rcases List.mem_append.mp hop' with hold | hnew
      · exact Or.inl ⟨op', hold, hrest⟩
      · obtain rfl := List.mem_singleton.mp hnew
        exact absurd hrest.1 hop
    · exact Or.inr hmem

end RSM

/-! ## The cluster -/

structure Ids (tr : Trace n M) (s : System n M) : Prop where
  orderly : s.Orderly
  noCalls : s.NoCallsYet
  once : ((passed tr).map Op.key).Nodup
  replica : ∀ r, (s.replica r).Ids (passed tr) r

theorem passed_snoc (tr : Trace n M) (x : System n M × Action n Q) :
    passed (tr ++ [x]) = passed tr ++ (passes x).toList := by
  rw [passed, List.filterMap_append, ← passed]
  cases hx : passes x <;> simp [hx]

namespace Ids

variable {tr : Trace n M} {s t : System n M} {a : Action n Q}

theorem initial (maxraftstate : Int) : Ids [] (System.initial n M maxraftstate) := by
  refine ⟨.initial maxraftstate, .initial maxraftstate, List.nodup_nil, ?_⟩
  intro r
  apply RSM.Ids.of_no_calls _ fun _ => rfl
  · intro hnew
    exact absurd ((RSM.made_readSnapshot _ none).symm.trans hnew) (by decide)
  · show (RSM.readSnapshot _ none).calls = []
    unfold RSM.readSnapshot
    dsimp only
    split <;> rfl

/-- Nothing is passed to `Start`. -/
theorem unpassed (h : Ids tr s) (hs : s.step a = some t) (hpass : passes (s, a) = none)
    (hreplica : ∀ r, (t.replica r).Ids (passed tr) r) : Ids (tr ++ [(s, a)]) t := by
  have hsame : passed (tr ++ [(s, a)]) = passed tr := by
    rw [passed_snoc, hpass]
    exact List.append_nil _
  refine ⟨h.orderly.step hs, h.noCalls.step hs, ?_, ?_⟩
  · rw [hsame]
    exact h.once
  · rw [hsame]
    exact hreplica

theorem setReplica (h : Ids tr s) (raft : SafeRaft n (Op n Q) (Blob M.Bytes)) {r : Fin n}
    {rsm : RSM n M} (hr : rsm.Ids (passed tr) r) (j : Fin n) :
    ((System.setReplica { s with raft := raft } r rsm).replica j).Ids (passed tr) j := by
  by_cases hj : j = r
  · subst hj
    rw [System.replica_setReplica_self]
    exact hr
  · rw [System.replica_setReplica_of_ne _ hj]
    exact h.replica j

/-- A call passes its op to `Start`. -/
theorem start (h : Ids tr s) {r : Fin n} {c : Nat} {answer : Option (Nat × Nat)}
    (hs : s.step (.start r c answer) = some t) : Ids (tr ++ [(s, .start r c answer)]) t := by
  obtain ⟨op, raft, rsm, hst, hrsm, rfl⟩ : ∃ op raft rsm,
      (s.replica r).stage c = some (.numbered op) ∧
      (s.replica r).doSubmitStarted c answer = some rsm ∧
      t = System.setReplica { s with raft := raft } r rsm := by
    cases answer with
    | none =>
      obtain ⟨rsm, hrsm, rfl⟩ := Option.map_eq_some_iff.mp hs
      obtain ⟨op, hst, -⟩ := RSM.doSubmitStarted_leaves hrsm
      exact ⟨op, s.raft, rsm, hst, hrsm, rfl⟩
    | some answer =>
      obtain ⟨op, raft, rsm, hst, -, hrsm, rfl⟩ := System.start_cases hs
      exact ⟨op, raft, rsm, hst, hrsm, rfl⟩
  have hpassed : passed (tr ++ [(s, .start r c answer)]) = passed tr ++ [op] := by
    have hpass : passes (s, .start r c answer) = some op := by
      show ((s.replica r).stage c).bind Stage.toStart = some op
      rw [hst]
      rfl
    rw [passed_snoc, hpass]
    rfl
  obtain ⟨hme, hfresh⟩ := (h.replica r).fresh c op hst
  refine ⟨h.orderly.step hs, h.noCalls.step hs, ?_, ?_⟩
  · rw [hpassed, List.map_append]
    refine List.nodup_append.mpr ⟨h.once, List.nodup_singleton _, ?_⟩
    rintro key hold _ hnew rfl
    rw [List.mem_singleton.mp hnew] at hold
    exact hfresh hold
  · intro j
    rw [hpassed]
    by_cases hj : j = r
    · subst hj
      rw [System.replica_setReplica_self]
      obtain ⟨-, -, hgone⟩ := RSM.doSubmitStarted_leaves hrsm
      exact (h.replica j).pass hst (.doSubmitStarted hrsm) hgone
    · rw [System.replica_setReplica_of_ne _ hj]
      apply (h.replica j).pass_other
      rw [hme]
      exact Ne.symm hj

theorem number (h : Ids tr s) {r : Fin n} {c : Nat} (hforward : Forward tr s (.number r c))
    (hs : s.step (.number r c) = some t) : Ids (tr ++ [(s, .number r c)]) t := by
  apply h.unpassed hs rfl
  obtain ⟨rsm, hrsm, rfl⟩ := Option.map_eq_some_iff.mp hs
  apply h.setReplica s.raft
  obtain ⟨call, hcall, -, rfl | rfl⟩ := RSM.doSubmitNumber_cases hrsm
  · exact (h.replica r).quiet (.setStage rfl)
  · have hmade : (s.replica r).made = true := by
      by_contra hnew
      rw [h.noCalls r (by simpa using hnew)] at hcall
      contradiction
    exact (h.replica r).number hmade (h.orderly r).me_eq rfl hforward

theorem step (h : Ids tr s) (hforward : Forward tr s a) (hs : s.step a = some t) :
    Ids (tr ++ [(s, a)]) t := by
  cases a with
  | start r c answer => exact h.start hs
  | number r c => exact h.number hforward hs
  | register r c =>
    apply h.unpassed hs rfl
    obtain ⟨rsm, hrsm, rfl⟩ := Option.map_eq_some_iff.mp hs
    apply h.setReplica s.raft
    obtain ⟨p, index, term, -, ⟨-, rfl⟩ | ⟨-, rfl⟩⟩ := RSM.doSubmitRegister_cases hrsm
    · exact (h.replica r).quiet (.setStage rfl)
    · refine RSM.Ids.quiet ?_ (.setStage rfl)
      rw [RSM.updateAt_eq]
      exact (h.replica r).frame (fun _ _ hst => RSM.numbered_updateAt hst) (h.replica r).bound
        (h.replica r).unmade
  | deliver r large =>
    apply h.unpassed hs rfl
    obtain ⟨index, op, -, -, rfl⟩ := System.deliver_cases hs
    apply h.setReplica
    rcases (s.replica r).applyCommand_cases index op large with ⟨-, heq⟩ | ⟨-, due, heq⟩
    · rw [heq]
      exact h.replica r
    · rw [heq]
      exact (h.replica r).frame (fun _ _ hst => RSM.numbered_updateAt hst) (h.replica r).bound
        (h.replica r).unmade
  | deliverSnapshot r k =>
    apply h.unpassed hs rfl
    obtain ⟨index, data, rsm, hreading, hnext, hrsm, rfl⟩ := System.deliverSnapshot_cases hs
    apply h.setReplica
    rcases RSM.applySnapshot_cases hrsm with ⟨-, rfl⟩ | ⟨hbeyond, -, rfl⟩
    · exact h.replica r
    · have hbound := hforward (index, data) hnext hbeyond
      have hmade := System.made_of_reading hreading
      exact (h.replica r).frame (fun _ _ => RSM.numbered_applySnapshot hrsm) (fun _ => hbound)
        fun hnew => absurd (hmade.symm.trans hnew) (by decide)
  | restart r =>
    apply h.unpassed hs rfl
    obtain rfl := Option.some.inj hs
    apply h.setReplica
    exact RSM.Ids.of_no_calls rfl (fun hmade => Bool.noConfusion hmade) fun _ => rfl
  | readSnapshot r =>
    apply h.unpassed hs rfl
    obtain ⟨hunmade, hs⟩ := Option.ite_none_left_eq_some.mp hs
    obtain rfl := Option.some.inj hs
    apply h.setReplica s.raft
    have hzero := (h.replica r).unmade (by simpa using hunmade)
    apply (h.replica r).frame
    · intro c op hst
      rwa [RSM.stage_readSnapshot] at hst
    · rw [RSM.opId_readSnapshot hzero]
      exact fun _ => hforward
    · rw [RSM.made_readSnapshot]
      exact fun hnew => absurd hnew (by decide)
  | _ =>
    obtain ⟨hquiet, -⟩ := System.quiet_step hs rfl
    exact h.unpassed hs rfl fun r => (h.replica r).quiet (hquiet r)

end Ids

/-! ## Runs -/

/-- In every run in which the counter of a replica goes forward only: no two calls of `doSubmit` pass
ops with the same replica and id to `Start`. -/
theorem op_ids_unique {maxraftstate : Int} {tr : Trace n M} {s : System n M}
    (h : Run maxraftstate tr s)
    (hforward : ∀ i < tr.length, ∀ x ∈ tr[i]?, Forward (tr.take i) x.1 x.2) :
    ((passed tr).map Op.key).Nodup := by
  have hids : Ids tr s := by
    induction h with
    | nil => exact .initial maxraftstate
    | @snoc tr t u a _ hstep ih =>
      refine (ih ?_).step ?_ hstep
      · intro i hi x hx
        have hx' : x ∈ (tr ++ [(t, a)])[i]? := by
          rw [List.getElem?_append_left hi]
          exact hx
        have hi' : i < (tr ++ [(t, a)]).length := by
          rw [List.length_append]
          omega
        rw [← List.take_append_of_le_length hi.le]
        exact hforward i hi' x hx'
      · have hlast := hforward tr.length (by simp) (t, a) (by simp)
        rwa [List.take_left] at hlast
  exact hids.once

/-- A replica takes a snapshot after its first op, restarts from it and starts a second op. -/
def restored (r : Fin 2) : List (Action 2 Nat) :=
  [.submit r 5, .number r 0, .start r 0 (some (1, 1)), .register r 0, .commit 0, .deliver r true,
    .createSnapshot r, .restart r, .readSnapshot r, .submit r 7, .number r 0, .start r 0 (some (2, 2))]

theorem op_ids_unique_restored :
    passed (listStart.traceOf (restored 0)) = [⟨0, 1, 5⟩, ⟨0, 2, 7⟩] ∧
      ((passed (listStart.traceOf (restored 0))).map Op.key).Nodup := by
  have hrun : Run 1000 (listStart.traceOf (restored 0)) (listStart.after (restored 0)) :=
    System.run_of_enabled (by decide)
  exact ⟨by decide, op_ids_unique hrun (by decide)⟩

/-- A replica restarts after its first op, with no snapshot stored, and starts another op. -/
def forgotten (r : Fin 3) : List (Action 3 Nat) :=
  [.submit r 5, .number r 0, .start r 0 (some (1, 1)), .restart r, .readSnapshot r, .submit r 7,
    .number r 0, .start r 0 (some (2, 2))]

/-- Both ops have id 1. -/
theorem id_used_twice :
    Run (-1) (sumStart.traceOf (forgotten 0)) (sumStart.after (forgotten 0)) ∧
    passed (sumStart.traceOf (forgotten 0)) = [⟨0, 1, 5⟩, ⟨0, 1, 7⟩] ∧
    ¬ ((passed (sumStart.traceOf (forgotten 0))).map Op.key).Nodup :=
  ⟨System.run_of_enabled (by decide), by decide, by decide⟩

end DistSys.Rsm
