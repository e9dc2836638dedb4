import DistSys.Mr.Tasks

/- Every task is in one place, and putting one back never blocks.

   `CheckFinished` sends on the channel while it holds the lock of the coordinator. The
   channel has room for every task of its type, because the loops of `MakeCoordinator`
   sent them all, and the ids in it are different. The task that is put back is not among
   them: it has a `CheckFinished` asleep. So one place is free. -/
namespace DistSys.Mr

open Lib

variable {files : List String} {nReduce : Nat} {s : Tasks}

/-! ## Room in the channels -/

theorem Chan.send_isSome {ch : Chan} {id : Nat} (h : ch.queue.length < ch.cap) :
    (ch.send id).isSome := by
  rw [Chan.send, if_pos h]
  rfl

theorem Chan.send_fits {ch ch' : Chan} {id : Nat} (h : ch.send id = some ch') :
    ch'.queue.length ≤ ch'.cap := by
  unfold Chan.send at h
  split at h
  · rename_i hlt
    obtain rfl := Option.some.inj h
    rw [List.length_append]
    exact hlt
  · contradiction

/-- No channel holds more than its capacity. -/
def Coordinator.Fits (c : Coordinator) : Prop :=
  ∀ ty, ty ≠ .none → (c.chan ty).queue.length ≤ (c.chan ty).cap

theorem addTask_fits {c c' : Coordinator} {t : WorkerDetail} (ht : t.type ≠ .none)
    (hfits : c.Fits) (h : c.addTask t = some c') : c'.Fits := by
  obtain ⟨ch, hsend, rfl⟩ := Option.map_eq_some_iff.mp h
  intro ty hty
  rw [Coordinator.chan_setChan ht hty, Coordinator.chan_setTask]
  split
  · exact Chan.send_fits hsend
  · exact hfits ty hty

theorem foldlM_fits {ts : List WorkerDetail} {c c' : Coordinator}
    (hts : ∀ t ∈ ts, t.type ≠ .none) (hfits : c.Fits)
    (h : ts.foldlM Coordinator.addTask c = some c') : c'.Fits := by
  induction ts generalizing c with
  | nil =>
    obtain rfl : c = c' := by simpa using h
    exact hfits
  | cons t ts ih =>
    rw [List.foldlM_cons] at h
    obtain ⟨d, hd, hrest⟩ := Option.bind_eq_some_iff.mp h
    apply ih (fun u hu => hts u (List.mem_cons_of_mem _ hu)) _ hrest
    exact addTask_fits (hts t List.mem_cons_self) hfits hd

theorem makeCoordinator_fits {c : Coordinator} (h : makeCoordinator files nReduce = some c) :
    c.Fits := by
  obtain ⟨-, h⟩ := Option.ite_none_right_eq_some.mp h
  obtain ⟨d, hmaps, hreduces⟩ := Option.bind_eq_some_iff.mp h
  have htype : ∀ t ∈ allTasks files nReduce, t.type ≠ .none := fun t ht => (made_of_mem ht).1
  have hempty : (noTasks nReduce).Fits := by
    intro ty hty
    cases ty <;> exact Nat.zero_le _
  have hd : d.Fits := foldlM_fits (fun t ht => htype t (List.mem_append_left _ ht)) hempty hmaps
  exact foldlM_fits (fun t ht => htype t (List.mem_append_right _ ht)) hd hreduces

variable (files nReduce) in
/-- Each channel has room for all tasks of its type, and only tasks have a `CheckFinished` asleep. -/
structure Tasks.Room (s : Tasks) : Prop where
  cap : ∀ ty, ty ≠ .none → size files nReduce ty ≤ (s.coordinator.chan ty).cap
  checks : ∀ k ∈ s.checks, k.1 < size files nReduce k.2

namespace Tasks.Room

theorem init {c : Coordinator} (h : makeCoordinator files nReduce = some c) :
    Tasks.Room files nReduce ⟨c, [], []⟩ where
  cap := by
    intro ty hty
    calc size files nReduce ty
      _ = (c.chan ty).queue.length := by rw [queue_of_makeCoordinator h hty, List.length_range]
      _ ≤ (c.chan ty).cap := makeCoordinator_fits h ty hty
  checks := by simp

/-- No step changes a capacity. -/
theorem cap_step {a : Action} {s' : Tasks} (hstep : s.step a = some s') {ty : WorkerType}
    (hty : ty ≠ .none) (hchecks : ∀ k ∈ s.checks, k.2 ≠ .none) :
    (s'.coordinator.chan ty).cap = (s.coordinator.chan ty).cap := by
  -- a channel gets another queue
  have hother : ∀ {ty' : WorkerType} (c : Coordinator) (queue : List Nat), ty' ≠ .none →
      c.chan ty = s.coordinator.chan ty →
      ((c.setChan ty' { s.coordinator.chan ty' with queue := queue }).chan ty).cap =
        (s.coordinator.chan ty).cap := by
    intro ty' c queue hty' hchan
    rw [Coordinator.chan_setChan hty' hty]
    split
    · rename_i heq
      rw [heq]
    · rw [hchan]
  cases a with
  | getTask =>
    rw [Tasks.step_getTask] at hstep
    obtain rfl := Option.some.inj hstep
    dsimp only
    rcases s.coordinator.getTask_cases with ⟨hc, -⟩ | ⟨ty', id, queue, task, hty', -, -, hget⟩
    · rw [hc]
    · rw [hget, Coordinator.chan_setTask]
      apply hother _ _ _ rfl
      rw [hty']
      split <;> decide
  | finishedTask args =>
    simp only [Tasks.step] at hstep
    split at hstep
    · obtain ⟨c', hc', rfl⟩ := Option.map_eq_some_iff.mp hstep
      rcases Coordinator.finishedTask_cases hc' with rfl | ⟨t, interFiles, -, -, -, rfl⟩
      · rfl
      · show ((s.coordinator.setTask _ _ _).chan ty).cap = _
        rw [Coordinator.chan_setTask]
    · contradiction
  | checkFinished i =>
    obtain ⟨⟨id, ty'⟩, hi, hrest⟩ := Option.bind_eq_some_iff.mp hstep
    obtain ⟨c', hc', rfl⟩ := Option.map_eq_some_iff.mp hrest
    obtain ⟨t, -, ⟨-, rfl⟩ | ⟨-, rfl⟩⟩ := Coordinator.checkFinished_cases hc'
    · rfl
    · apply hother
      · exact hchecks (id, ty') (List.mem_of_getElem? hi)
      · rw [Coordinator.chan_setTask]
  | done =>
    obtain rfl := Option.some.inj hstep
    rfl

theorem step (h : s.Room files nReduce) (hinv : s.Inv files nReduce) {a : Action} {s' : Tasks}
    (hstep : s.step a = some s') : s'.Room files nReduce where
  cap := by
    intro ty hty
    rw [cap_step hstep hty hinv.asleep]
    exact h.cap ty hty
  checks := by
    cases a with
    | getTask =>
      rw [Tasks.step_getTask] at hstep
      obtain rfl := Option.some.inj hstep
      intro k hk
      rcases List.mem_append.mp hk with hk | hk
      · exact h.checks k hk
      · rcases s.coordinator.getTask_cases with ⟨-, hnone, -⟩ | ⟨ty, id, queue, task, hty, hqueue,
          htask, hget⟩
        · rw [hnone] at hk
          contradiction
        · -- the call belongs to the task that is handed out
          have hne : ty ≠ .none := by
            rw [hty]
            split <;> decide
          obtain ⟨t, ht, hderef, -, -, -, hmade⟩ := hinv.handed_out hne hqueue
          rw [hget, List.mem_singleton, htask, hderef] at hk
          rw [hk]
          show t.id < size files nReduce t.type
          rw [hmade.id_eq, hmade.type_eq]
          exact (hinv.made ty hne id t ht).1
    | finishedTask args =>
      simp only [Tasks.step] at hstep
      split at hstep
      · obtain ⟨c', -, rfl⟩ := Option.map_eq_some_iff.mp hstep
        exact h.checks
      · contradiction
    | checkFinished i =>
      obtain ⟨check, -, hrest⟩ := Option.bind_eq_some_iff.mp hstep
      obtain ⟨c', -, rfl⟩ := Option.map_eq_some_iff.mp hrest
      intro k hk
      exact h.checks k (List.mem_of_mem_eraseIdx hk)
    | done =>
      obtain rfl := Option.some.inj hstep
      exact h.checks

end Tasks.Room

/-! ## No task is lost or doubled -/

namespace Tasks.Inv

theorem queue_nodup (h : s.Inv files nReduce) {ty : WorkerType} (hty : ty ≠ .none) :
    (s.coordinator.chan ty).queue.Nodup := by
  apply List.nodup_iff_count_le_one.mpr
  intro id
  by_cases hmem : id ∈ (s.coordinator.chan ty).queue
  · obtain ⟨t, ht⟩ := h.present ty hty id (h.queued ty hty id hmem)
    obtain ⟨-, hone, -⟩ := (h.token ty hty id t ht).idle_of_queued (List.count_pos_iff.mpr hmem)
    rw [hone]
  · rw [List.count_eq_zero_of_not_mem hmem]
    exact Nat.zero_le 1

/-- A `CheckFinished` that wakes up does not block. -/
theorem checkFinished_isSome (h : s.Inv files nReduce) (hroom : s.Room files nReduce) {k : Check}
    (hk : k ∈ s.checks) : (s.coordinator.checkFinished k.1 k.2).isSome := by
  obtain ⟨id, ty⟩ := k
  have hty : ty ≠ .none := h.asleep (id, ty) hk
  have hid : id < size files nReduce ty := hroom.checks (id, ty) hk
  obtain ⟨t, ht⟩ := h.present ty hty id hid
  obtain ⟨habsent, -, -⟩ := (h.token ty hty id t ht).of_asleep (List.count_pos_iff.mpr hk)
  -- with the task itself, the ids in the channel are still different ids of tasks
  have hnodup : (id :: (s.coordinator.chan ty).queue).Nodup :=
    List.nodup_cons.mpr ⟨List.count_eq_zero.mp habsent, h.queue_nodup hty⟩
  have hsub : id :: (s.coordinator.chan ty).queue ⊆ List.range (size files nReduce ty) := by
    intro i hi
    apply List.mem_range.mpr
    rcases List.mem_cons.mp hi with rfl | hi
    · exact hid
    · exact h.queued ty hty i hi
  have hfree : (s.coordinator.chan ty).queue.length < (s.coordinator.chan ty).cap :=
    calc (s.coordinator.chan ty).queue.length
      _ < (id :: (s.coordinator.chan ty).queue).length := Nat.lt_succ_self _
      _ ≤ (List.range (size files nReduce ty)).length := (hnodup.subperm hsub).length_le
      _ = size files nReduce ty := List.length_range
      _ ≤ (s.coordinator.chan ty).cap := hroom.cap ty hty
  show (((s.coordinator.tasks ty).lookup id).bind _).isSome
  rw [ht, Option.bind_some]
  split
  · rfl
  · rw [Option.isSome_map]
    exact Chan.send_isSome hfree

/-- A completed task stays completed for the rest of a run. -/
theorem completed_run (h : s.Inv files nReduce) {t : Tasks} {tr : List (Tasks × Action)}
    (hrun : (Tasks.lts files nReduce).Run s tr t) {ty : WorkerType} (hty : ty ≠ .none) {id : Nat}
    (hdone : (deref (s.coordinator.tasks ty) id).status = .completed) :
    (deref (t.coordinator.tasks ty) id).status = .completed := by
  have hboth : t.Inv files nReduce ∧ (deref (t.coordinator.tasks ty) id).status = .completed := by
    induction hrun with
    | nil => exact ⟨h, hdone⟩
    | snoc _ hstep ih => exact ⟨ih.1.step hstep, (ih.1.completed_step hstep hty id).1 ih.2⟩
  exact hboth.2

end Tasks.Inv

/-- After `MakeCoordinator`, whatever calls are made and timers fire: each task is idle and in its
channel once with no `CheckFinished` asleep, or in process and not there with exactly one asleep,
or completed and not there with at most one (`Token`); the channels hold ids of tasks only, each
once; every `CheckFinished` that is asleep can run to its end; and a completed task stays so. -/
theorem tasks_conserved {t : Tasks} {tr : List (Tasks × Action)}
    (hs : (Tasks.lts files nReduce).init s) (hrun : (Tasks.lts files nReduce).Run s tr t) :
    (∀ ty, ty ≠ .none → ∀ id < size files nReduce ty,
      ∃ task, (t.coordinator.tasks ty).lookup id = some task ∧
        Token task.status ((t.coordinator.chan ty).queue.count id) (t.checks.count (id, ty))) ∧
    (∀ ty, ty ≠ .none → (t.coordinator.chan ty).queue.Nodup ∧
      ∀ id ∈ (t.coordinator.chan ty).queue, id < size files nReduce ty) ∧
    (∀ k ∈ t.checks, (t.coordinator.checkFinished k.1 k.2).isSome) ∧
    ∀ tr' u, (Tasks.lts files nReduce).Run t tr' u → ∀ ty, ty ≠ .none → ∀ id,
      (deref (t.coordinator.tasks ty) id).status = .completed →
        (deref (u.coordinator.tasks ty) id).status = .completed := by
  obtain ⟨c, hc, rfl⟩ := hs
  have hboth : t.Inv files nReduce ∧ t.Room files nReduce := by
    induction hrun with
    | nil => exact ⟨Tasks.Inv.init hc, Tasks.Room.init hc⟩
    | snoc _ hstep ih => exact ⟨ih.1.step hstep, ih.2.step ih.1 hstep⟩
  obtain ⟨hinv, hroom⟩ := hboth
  refine ⟨?_, ?_, ?_, ?_⟩
  · intro ty hty id hid
    obtain ⟨task, htask⟩ := hinv.present ty hty id hid
    exact ⟨task, htask, hinv.token ty hty id task htask⟩
  · intro ty hty
    exact ⟨hinv.queue_nodup hty, hinv.queued ty hty⟩
  · intro k hk
    exact hinv.checkFinished_isSome hroom hk
  · intro tr' u hrest ty hty id hdone
    exact hinv.completed_run hrest hty hdone

/-- In a run where a task is reported by both of its workers, the calls that are left can run. -/
theorem tasks_conserved_twice :
    (after Tasks.step twoFiles twice).checks = [(1, .map), (0, .map), (0, .reduce)] ∧
      ∀ k ∈ (after Tasks.step twoFiles twice).checks,
        ((after Tasks.step twoFiles twice).coordinator.checkFinished k.1 k.2).isSome := by
  have hstart : (Tasks.lts ["a", "b"] 1).init twoFiles := ⟨_, (Option.some_get _).symm, rfl⟩
  have hrun : (Tasks.lts ["a", "b"] 1).Run twoFiles (traceOf Tasks.step twoFiles twice)
      (after Tasks.step twoFiles twice) :=
    Lts.run_of_steps (fun _ _ _ h => h) (by decide)
  exact ⟨by decide, (tasks_conserved hstart hrun).2.2.1⟩

end DistSys.Mr
