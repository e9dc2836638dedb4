import DistSys.Rsm.Steps

/- Whether `Submit` answers with its own operation.

   `applyCommand` takes a committed op for the pending one at its index when the ids
   agree and the pending op is one of this replica; whose the committed op is, it does
   not look at. Every replica counts its ids from zero, so two replicas that start
   their first ops at one index hold ops with the same id there, and the one that was
   overwritten is answered with the result of the other (`answered_with_another_op`).

   In the runs where the test is only passed by an op of this replica (`Own`) and the
   pair of replica and id is given out once (`Fresh`), a `Submit` that returns OK
   returns what `DoOp` returned for the op it started, at the index its `Start`
   returned (`submit_answers_own`). -/
namespace DistSys.Rsm

open Kvsrv1 Lib

variable {n : Nat} {Q R : Type} {M : StateMachine Q R}

abbrev Trace (n : Nat) {Q R : Type} (M : StateMachine Q R) := List (System n M × Action n Q)

/-! ## What is to be shown -/

/-- Replica `r` applied `op` at `index` in this life, and `v` is what `DoOp` returned. -/
def Applied (tr : Trace n M) (s : System n M) (r : Fin n) (index : Nat) (op : Op n Q)
    (v : Option R) : Prop :=
  ∃ u large, (u, Action.deliver r large) ∈ tr ∧ u.life r = s.life r ∧
    u.raft.next r = some (index, op) ∧ (u.replica r).lastApplied < index ∧
    v = some (M.doOp (u.replica r).sm op.req).2

/-- The op started at `index` in `term` is the committed one there, and `v` is its result. -/
structure Committed (tr : Trace n M) (s : System n M) (r : Fin n) (index term : Nat) (op : Op n Q)
    (v : Option R) : Prop where
  pos : 0 < index
  agreed : s.raft.agreed[index - 1]? = some (term, op)
  applied : Applied tr s r index op v

/-! ## The conditions -/

/-- The pending op that the map has at an index. -/
def RSM.pendingAt (rsm : RSM n M) (index : Nat) : Option (PendingOp n Q R) :=
  (rsm.pendingOps index).bind fun c => ((rsm.stage c).bind Stage.own).map Prod.fst

/-- A committed op that carries the id of the op pending at its index is one of this replica. -/
def Own (s : System n M) : Action n Q → Prop
  | .deliver r _ => ∀ m ∈ s.raft.next r, ∀ p ∈ (s.replica r).pendingAt m.1,
      p.op.id = m.2.id → m.2.me = r
  | _ => True

/-- No earlier op has the replica and id of the one that `Start` accepts. -/
def Fresh (s : System n M) : Action n Q → Prop
  | .start r c (some _) => ∀ op ∈ ((s.replica r).stage c).bind Stage.toStart,
      ∀ x ∈ s.raft.started, ¬ (x.command.me = op.me ∧ x.command.id = op.id)
  | _ => True

instance (s : System n M) (a : Action n Q) : Decidable (Own s a) := by
  unfold Own
  split <;> infer_instance

instance (s : System n M) (a : Action n Q) : Decidable (Fresh s a) := by
  unfold Fresh
  split <;> infer_instance

/-! ## The invariant -/

/-- One `Start` for each replica and id. -/
def UniqueIds (raft : SafeRaft n (Op n Q) (Blob M.Bytes)) : Prop :=
  ∀ x ∈ raft.started, ∀ y ∈ raft.started,
    x.command.me = y.command.me → x.command.id = y.command.id → x = y

structure Inv (tr : Trace n M) (s : System n M) : Prop where
  agreed : s.raft.AgreedStarted
  unique : UniqueIds s.raft
  ok : ∀ r, (s.replica r).Ok (fun i term op => ⟨r, i, term, op⟩ ∈ s.raft.started)
    (Committed tr s r) r

/-- What a step leaves for the calls of a replica to rely on. -/
structure Grows (r : Fin n) (s t : System n M) : Prop where
  started : ∀ x ∈ s.raft.started, x ∈ t.raft.started
  agreed : s.raft.agreed <+: t.raft.agreed
  life : t.life r = s.life r

theorem Committed.mono {tr tr' : Trace n M} {s t : System n M} {r : Fin n} {index term : Nat}
    {op : Op n Q} {v : Option R} (h : Committed tr s r index term op v) (hg : Grows r s t)
    (htr : ∀ x ∈ tr, x ∈ tr') : Committed tr' t r index term op v := by
  refine ⟨h.pos, ?_, ?_⟩
  · obtain ⟨rest, hrest⟩ := hg.agreed
    obtain ⟨hlt, -⟩ := List.getElem?_eq_some_iff.mp h.agreed
    rw [← hrest, List.getElem?_append_left hlt]
    exact h.agreed
  · obtain ⟨u, large, hmem, hlife, hrest⟩ := h.applied
    exact ⟨u, large, htr _ hmem, hlife.trans hg.life.symm, hrest⟩

theorem Inv.ok_mono {tr tr' : Trace n M} {s t : System n M} (h : Inv tr s) {r : Fin n}
    (hg : Grows r s t) (htr : ∀ x ∈ tr, x ∈ tr') :
    (s.replica r).Ok (fun i term op => ⟨r, i, term, op⟩ ∈ t.raft.started) (Committed tr' t r) r :=
  (h.ok r).mono (fun _ _ _ hst => hg.started _ hst) (fun _ _ _ _ hc => hc.mono hg htr)

theorem Inv.initial (maxraftstate : Int) : Inv [] (System.initial n M maxraftstate) where
  agreed := by
    intro i e he
    simp [System.initial, SafeRaft.initial] at he
  unique := by
    intro x hx
    simp [System.initial, SafeRaft.initial] at hx
  ok := fun r => (RSM.Ok.newRSM r maxraftstate).readSnapshot none

/-! ## Steps -/

section Step

variable {tr : Trace n M} {s t : System n M} {a : Action n Q}

theorem mem_snoc {x : System n M × Action n Q} (h : x ∈ tr) : x ∈ tr ++ [(s, a)] :=
  List.mem_append_left _ h

/-- What Raft has recorded stays, and an agreed entry was started. -/
structure Keeps (s t : System n M) : Prop where
  started : ∀ x ∈ s.raft.started, x ∈ t.raft.started
  agreed : s.raft.agreed <+: t.raft.agreed
  agreedStarted : s.raft.AgreedStarted → t.raft.AgreedStarted

theorem keeps_step (hs : s.step a = some t) : Keeps s t := by
  rcases System.raft_cases hs with ⟨hstarted, hagreed⟩ | ⟨r, c, index, term, op, -, -, hraft⟩ |
    ⟨k, hraft⟩
  · refine ⟨fun x hx => hstarted ▸ hx, hagreed ▸ List.prefix_refl _, ?_⟩
    unfold SafeRaft.AgreedStarted
    rw [hstarted, hagreed]
    exact id
  · have heq := SafeRaft.start_eq hraft
    refine ⟨fun x hx => ?_, ?_, fun h => h.start hraft⟩
    · rw [heq]
      exact List.mem_cons_of_mem _ hx
    · simp [heq]
  · obtain ⟨x, -, -, heq⟩ := SafeRaft.commit_eq hraft
    refine ⟨fun x hx => ?_, ?_, fun h => h.commit hraft⟩
    · rw [heq]
      exact hx
    · simp [heq]

/-- The new op differs from all the earlier ones in its replica or id. -/
theorem unique_step (h : UniqueIds s.raft) (hfresh : Fresh s a) (hs : s.step a = some t) :
    UniqueIds t.raft := by
  rcases System.raft_cases hs with ⟨hstarted, -⟩ | ⟨r, c, index, term, op, rfl, hst, hraft⟩ |
    ⟨k, hraft⟩
  · unfold UniqueIds
    rw [hstarted]
    exact h
  · have hop : op ∈ ((s.replica r).stage c).bind Stage.toStart := by
      rw [hst]
      rfl
    have hnew : ∀ x ∈ t.raft.started, x = ⟨r, index, term, op⟩ ∨ x ∈ s.raft.started := by
      intro x hx
      rw [SafeRaft.start_eq hraft] at hx
      exact List.mem_cons.mp hx
    intro x hx y hy hme hid
    rcases hnew x hx with rfl | hx' <;> rcases hnew y hy with rfl | hy'
    · rfl
    · exact absurd ⟨hme.symm, hid.symm⟩ (hfresh op hop y hy')
    · exact absurd ⟨hme, hid⟩ (hfresh op hop x hx')
    · exact h x hx' y hy' hme hid
  · obtain ⟨x, -, -, heq⟩ := SafeRaft.commit_eq hraft
    rw [heq]
    exact h

/-- The reader applies a command; what its test accepts is the op that was started here. -/
theorem Inv.accepted (h : Inv tr s) {r : Fin n} {large : Bool} (hown : Own s (.deliver r large))
    (hkeeps : Keeps s t) (hlife : t.life r = s.life r) {index : Nat} {op : Op n Q}
    (hnext : s.raft.next r = some (index, op)) (hnew : (s.replica r).lastApplied < index)
    {c : Nat} {p : PendingOp n Q R} {term : Nat} (hreg : (s.replica r).pendingOps index = some c)
    (hstage : ((s.replica r).stage c).bind Stage.own = some (p, index, term))
    (hid : p.op.id = op.id) (hme : p.op.me = r) :
    Committed (tr ++ [(s, .deliver r large)]) t r index term p.op
      (some (M.doOp (s.replica r).sm op.req).2) := by
  obtain ⟨call, hcall, hown'⟩ : ∃ call, (s.replica r).calls[c]? = some call ∧
      call.stage.own = some (p, index, term) := by
    obtain ⟨st, hst, hst'⟩ := Option.bind_eq_some_iff.mp hstage
    obtain ⟨call, hcall, rfl⟩ := Option.map_eq_some_iff.mp hst
    exact ⟨call, hcall, hst'⟩
  obtain ⟨-, -, hst⟩ := ((h.ok r).calls c call hcall).own p index term hown'
  -- the delivered op was started at this index
  obtain ⟨⟨agreedTerm, agreedOp⟩, hagreed, hop⟩ := Option.map_eq_some_iff.mp hnext
  obtain ⟨rfl, rfl⟩ : s.raft.position r + 1 = index ∧ agreedOp = op := by simpa using hop
  obtain ⟨x, hx, hxi, hxt, hxc⟩ := h.agreed _ _ hagreed
  -- by the same replica under the same id, so by this very `Start`
  have hpending : p ∈ (s.replica r).pendingAt (s.raft.position r + 1) := by
    rw [RSM.pendingAt, hreg, Option.bind_some, hstage]
    rfl
  have hsame : (⟨r, s.raft.position r + 1, term, p.op⟩ : Started n (Op n Q)) = x := by
    refine h.unique _ hst x hx ?_ ?_
    · rw [hxc]
      exact hme.trans (hown _ hnext p hpending hid).symm
    · rw [hxc]
      exact hid
  obtain rfl : p.op = agreedOp := (congrArg Started.command hsame).trans hxc
  obtain rfl : term = agreedTerm := (congrArg Started.term hsame).trans hxt
  have happlied : Committed (tr ++ [(s, .deliver r large)]) s r (s.raft.position r + 1) term p.op
      (some (M.doOp (s.replica r).sm p.op.req).2) :=
    ⟨Nat.succ_pos _, hagreed, s, large, List.mem_append_right _ (List.mem_singleton_self _), rfl,
      hnext, hnew, rfl⟩
  exact happlied.mono ⟨hkeeps.started, hkeeps.agreed, hlife⟩ fun _ hx => hx

theorem Inv.step (h : Inv tr s) (hown : Own s a) (hfresh : Fresh s a) (hs : s.step a = some t) :
    Inv (tr ++ [(s, a)]) t := by
  have hkeeps := keeps_step hs
  refine ⟨hkeeps.agreedStarted h.agreed, unique_step h.unique hfresh hs, ?_⟩
  refine System.ok_step ?_ hs ?_ ?_
  · -- the calls of a replica that goes on
    intro j hj
    have hlife := System.life_step hs fun heq => hj j heq rfl
    exact h.ok_mono ⟨hkeeps.started, hkeeps.agreed, hlife⟩ fun _ => mem_snoc
  · rintro r c index term op rfl hst
    obtain ⟨op', raft, rsm, hst', hraft, -, rfl⟩ := System.start_cases hs
    obtain rfl : op' = op := by simpa [hst] using hst'.symm
    obtain rfl := SafeRaft.start_eq hraft
    exact List.mem_cons_self
  · rintro r large index op rfl hnext hnew c p term hreg hstage hid hme -
    have hlife := System.life_step hs (j := r) (fun heq => by simp at heq)
    exact h.accepted hown hkeeps hlife hnext hnew hreg hstage hid hme

end Step

/-! ## Runs -/

/-- In every run whose steps meet the conditions. -/
theorem Run.inv {maxraftstate : Int} {tr : Trace n M} {s : System n M} (h : Run maxraftstate tr s)
    (hown : ∀ x ∈ tr, Own x.1 x.2) (hfresh : ∀ x ∈ tr, Fresh x.1 x.2) : Inv tr s := by
  induction h with
  | nil => exact .initial maxraftstate
  | @snoc tr t u a _ hstep ih =>
    have hbefore := ih (fun x hx => hown x (mem_snoc hx)) (fun x hx => hfresh x (mem_snoc hx))
    exact hbefore.step (hown (t, a) (by simp)) (hfresh (t, a) (by simp)) hstep

/-- A `Submit` that returned OK, in a run whose steps meet the conditions: the op it made from its
request was committed at the index and in the term that its `Start` returned, and the value is
what `DoOp` returned when this replica applied it. -/
theorem submit_answers_own {maxraftstate : Int} {tr : Trace n M} {s : System n M}
    (h : Run maxraftstate tr s) (hown : ∀ x ∈ tr, Own x.1 x.2) (hfresh : ∀ x ∈ tr, Fresh x.1 x.2)
    {r : Fin n} {c : Nat} {call : Call n Q R} {v : Option R}
    (hcall : (s.replica r).calls[c]? = some call) (hans : call.answer = some (.ok, v)) :
    ∃ p index term, call.stage.own = some (p, index, term) ∧ p.op.me = r ∧ p.op.req = call.req ∧
      ⟨r, index, term, p.op⟩ ∈ s.raft.started ∧ Committed tr s r index term p.op v := by
  have hok := ((h.inv hown hfresh).ok r).calls c call hcall
  obtain ⟨p, index, term, hp, hgood⟩ := hok.outcome v (hok.answer v hans)
  obtain ⟨hme, hreq, hst⟩ := hok.own p index term hp
  exact ⟨p, index, term, hp, hme, hreq, hst, hgood⟩

/-! ## Two runs of three replicas

The state machine is a sum; `DoOp` returns the new one. -/

section Sample

def sumMachine : StateMachine Nat Nat where
  State := Nat
  Bytes := Nat
  init := 0
  doOp := fun s q => (s + q, s + q)
  snapshot := id
  restore := fun _ b => b

def sumStart : System 3 sumMachine := System.initial 3 sumMachine (-1)

/-- A first `Submit` of replica `r`, up to where it waits at index 1. -/
def submitting (r : Fin 3) (req term : Nat) : List (Action 3 Nat) :=
  [.submit r req, .number r 0, .start r 0 (some (1, term)), .register r 0]

/-- Replica `r` applies the next command and its `Submit` returns. -/
def answering (r : Fin 3) : List (Action 3 Nat) :=
  [.deliver r false, .waitDone r 0, .remove r 0, .submitDone r 0]

/-- A replica adds 5 at index 1. -/
def undisturbed (r : Fin 3) : List (Action 3 Nat) := submitting r 5 1 ++ [.commit 0] ++ answering r

theorem submit_answers_own_sample :
    Committed (sumStart.traceOf (undisturbed 0)) (sumStart.after (undisturbed 0)) 0 1 1 ⟨0, 1, 5⟩
      (some 5) := by
  have hrun : Run (-1) (sumStart.traceOf (undisturbed 0)) (sumStart.after (undisturbed 0)) :=
    System.run_of_enabled (by decide)
  have hcall : ((sumStart.after (undisturbed 0)).replica 0).calls[0]? =
      some ⟨5, .returned ⟨⟨0, 1, 5⟩, some 5, none⟩ 1 1 .ok (some 5), some (.ok, some 5)⟩ := by
    decide
  obtain ⟨p, index, term, hp, -, -, -, hcommitted⟩ :=
    submit_answers_own hrun (by decide) (by decide) hcall rfl
  obtain ⟨rfl, rfl, rfl⟩ : _ = p ∧ 1 = index ∧ 1 = term := by simpa [Stage.own] using hp
  exact hcommitted

/-- Replica `r` starts its first op at index 1 in term 1 and is cut off. Replica `r'` is the leader of
term 2 and starts its own first op there, which is committed. Then replica `r` is reached again. -/
def overtaken (r r' : Fin 3) : List (Action 3 Nat) :=
  submitting r 5 1 ++ submitting r' 7 2 ++ [.commit 0] ++ answering r

/-- `Submit` on replica 0 returns OK with the result of the op of replica 1. Its own op is not in
the log. -/
theorem answered_with_another_op :
    Run (-1) (sumStart.traceOf (overtaken 0 1)) (sumStart.after (overtaken 0 1)) ∧
    (sumStart.after (overtaken 0 1)).raft.agreed = [(2, ⟨1, 1, 7⟩)] ∧
    ∃ call p, ((sumStart.after (overtaken 0 1)).replica 0).calls[0]? = some call ∧ call.req = 5 ∧
      call.answer = some (.ok, some 7) ∧ call.stage.own = some (p, 1, 1) ∧ p.op = ⟨0, 1, 5⟩ ∧
      ¬ Committed (sumStart.traceOf (overtaken 0 1)) (sumStart.after (overtaken 0 1)) 0 1 1 p.op (some 7) := by
  have hagreed : (sumStart.after (overtaken 0 1)).raft.agreed = [(2, ⟨1, 1, 7⟩)] := by decide
  refine ⟨System.run_of_enabled (by decide), hagreed,
    ⟨5, .returned ⟨⟨0, 1, 5⟩, some 7, none⟩ 1 1 .ok (some 7), some (.ok, some 7)⟩,
    ⟨⟨0, 1, 5⟩, some 7, none⟩, by decide, rfl, rfl, rfl, rfl, ?_⟩
  intro hcommitted
  have hat := hcommitted.agreed
  rw [hagreed] at hat
  simp at hat

end Sample

end DistSys.Rsm
