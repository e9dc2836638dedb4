import DistSys.Lib.Transition
import DistSys.Mr.Coordinator
import Mathlib.Data.List.Perm.Subperm
import Mathlib.Data.List.Nodup

/- The coordinator in every interleaving of its calls.

   A step is a call of `GetTask`, `FinishedTask` or `Done`, or the end of the sleep in
   `CheckFinished`. A report may come from any worker that ever held the task, at any
   time and any number of times; a report of a map task has the names that `MapWork`
   returns.

   Everything rests on one count (`Token`): an idle task is in its channel once, a task
   in process has one `CheckFinished` asleep, a completed one is not in the channel. So no
   completed task is handed out again, each map task adds its names once, and `Done` opens
   the reduce phase when all names are there. -/
namespace DistSys.Mr

open Lib

/-! ## Access by type -/

namespace Coordinator

variable {c : Coordinator} {ty ty' : WorkerType}

theorem tasks_setTask (hty : ty ≠ .none) (hty' : ty' ≠ .none) (id : Nat) (t : WorkerDetail) :
    (c.setTask ty id t).tasks ty' =
      if ty' = ty then (c.tasks ty').insert id t else c.tasks ty' := by
  cases ty <;> cases ty' <;> simp_all [setTask, tasks]

theorem chan_setChan (hty : ty ≠ .none) (hty' : ty' ≠ .none) (ch : Chan) :
    (c.setChan ty ch).chan ty' = if ty' = ty then ch else c.chan ty' := by
  cases ty <;> cases ty' <;> simp_all [setChan, chan]

@[simp] theorem tasks_setChan (ch : Chan) : (c.setChan ty ch).tasks ty' = c.tasks ty' := by
  unfold setChan
  split <;> rfl

@[simp] theorem chan_setTask (id : Nat) (t : WorkerDetail) :
    (c.setTask ty id t).chan ty' = c.chan ty' := by
  unfold setTask
  split <;> rfl

@[simp] theorem interFiles_setTask (id : Nat) (t : WorkerDetail) :
    (c.setTask ty id t).interFiles = c.interFiles := by
  unfold setTask
  split <;> rfl

@[simp] theorem interFiles_setChan (ch : Chan) : (c.setChan ty ch).interFiles = c.interFiles := by
  unfold setChan
  split <;> rfl

@[simp] theorem flag_setTask (id : Nat) (t : WorkerDetail) :
    (c.setTask ty id t).isAllMapWorkerFinished = c.isAllMapWorkerFinished := by
  unfold setTask
  split <;> rfl

@[simp] theorem flag_setChan (ch : Chan) :
    (c.setChan ty ch).isAllMapWorkerFinished = c.isAllMapWorkerFinished := by
  unfold setChan
  split <;> rfl

/-- `GetTask` hands out nothing, or the first task of the channel that the flag selects. -/
theorem getTask_cases (c : Coordinator) :
    (c.getTask.1 = c ∧ c.getTask.2.1 = [] ∧ c.getTask.2.2.task = .zero) ∨
    ∃ ty id queue task, ty = (if c.isAllMapWorkerFinished then .reduce else .map) ∧
      (c.chan ty).queue = id :: queue ∧
      task = { (deref (c.tasks ty) id).changeStatusToInProcess with
        fileNames := if ty = .reduce then
            (c.interFiles.lookup ((deref (c.tasks ty) id).id : Int)).getD []
          else (deref (c.tasks ty) id).fileNames } ∧
      c.getTask = ((c.setChan ty { c.chan ty with queue := queue }).setTask ty id task,
        [(task.id, task.type)], { task := task, isFinished := false }) := by
  unfold getTask
  split
  · exact Or.inl ⟨rfl, rfl, rfl⟩
  · cases hflag : c.isAllMapWorkerFinished with
    | false =>
      cases hqueue : c.mapChan.queue with
      | nil => exact Or.inl ⟨rfl, rfl, rfl⟩
      | cons id queue => exact Or.inr ⟨.map, id, queue, _, rfl, hqueue, rfl, rfl⟩
    | true =>
      cases hqueue : c.reduceChan.queue with
      | nil => exact Or.inl ⟨rfl, rfl, rfl⟩
      | cons id queue => exact Or.inr ⟨.reduce, id, queue, _, rfl, hqueue, rfl, rfl⟩

/-- `FinishedTask` changes nothing, or completes a task in process and adds the names. -/
theorem finishedTask_cases {c' : Coordinator} {args : Args} (h : c.finishedTask args = some c') :
    c' = c ∨ ∃ task interFiles, (c.tasks args.task.type).lookup args.task.id = some task ∧
      task.status = .inProcess ∧
      (if task.type = .map then args.intermidiateFiles.foldlM addInterFile c.interFiles
        else some c.interFiles) = some interFiles ∧
      c' = { c.setTask args.task.type args.task.id task.changeStatusToCompleted with
        interFiles := interFiles } := by
  obtain ⟨task, htask, hrest⟩ := Option.bind_eq_some_iff.mp h
  split at hrest
  · rename_i hstatus
    refine Or.inr ?_
    have hstatus : task.status = .inProcess := by simpa [WorkerDetail.isInProcess] using hstatus
    split at hrest
    · rename_i htype
      obtain ⟨interFiles, hfold, rfl⟩ := Option.map_eq_some_iff.mp hrest
      exact ⟨task, interFiles, htask, hstatus, by simpa [htype] using hfold, rfl⟩
    · rename_i htype
      obtain rfl := Option.some.inj hrest
      exact ⟨task, c.interFiles, htask, hstatus, by simp [htype], by
        unfold setTask
        split <;> rfl⟩
  · exact Or.inl (Option.some.inj hrest).symm

/-- `CheckFinished` finds the task completed, or puts it back. -/
theorem checkFinished_cases {c' : Coordinator} {id : Nat} (h : c.checkFinished id ty = some c') :
    ∃ t, (c.tasks ty).lookup id = some t ∧ ((t.status = .completed ∧ c' = c) ∨
      (t.status ≠ .completed ∧ c' = (c.setTask ty id t.changeStatusToIdle).setChan ty
        { c.chan ty with queue := (c.chan ty).queue ++ [id] })) := by
  obtain ⟨t, ht, hrest⟩ := Option.bind_eq_some_iff.mp h
  refine ⟨t, ht, ?_⟩
  split at hrest
  · rename_i hstatus
    exact Or.inl ⟨by simpa [WorkerDetail.isCompleted] using hstatus, (Option.some.inj hrest).symm⟩
  · rename_i hstatus
    obtain ⟨ch, hsend, rfl⟩ := Option.map_eq_some_iff.mp hrest
    refine Or.inr ⟨by simpa [WorkerDetail.isCompleted] using hstatus, ?_⟩
    unfold Chan.send at hsend
    split at hsend
    · obtain rfl := Option.some.inj hsend
      rfl
    · contradiction

end Coordinator

theorem allCompleted_iff {tasks : FinMap Nat WorkerDetail} :
    allCompleted tasks = true ↔ ∀ id t, tasks.lookup id = some t → t.status = .completed := by
  rw [allCompleted, List.all_eq_true]
  constructor
  · intro h id t ht
    simpa [WorkerDetail.isCompleted] using h ⟨id, t⟩ (AList.mem_lookup_iff.mp ht)
  · rintro h ⟨id, t⟩ hmem
    simpa [WorkerDetail.isCompleted] using h id t (AList.mem_lookup_iff.mpr hmem)

/-! ## The system -/

/-- The coordinator, the calls of `CheckFinished` that sleep, and every task handed out so far. -/
structure Tasks where
  coordinator : Coordinator
  checks : List Check
  held : List WorkerDetail

inductive Action where
  | getTask
  | finishedTask (args : Args)
  | checkFinished (i : Nat)
  | done

/-- A report from a worker that held the task, with the names that `MapWork` returns. -/
def Tasks.Reports (s : Tasks) (args : Args) : Prop :=
  args.task ∈ s.held ∧ (args.task.type = .map → args.intermidiateFiles = mapNames args.task)

instance (s : Tasks) (args : Args) : Decidable (s.Reports args) :=
  inferInstanceAs (Decidable (_ ∧ (_ → _)))

def Tasks.step (s : Tasks) : Action → Option Tasks
  | .getTask =>
    let (c, started, reply) := s.coordinator.getTask
    some
      { coordinator := c
        checks := s.checks ++ started
        held := if reply.task.type = .none then s.held else s.held ++ [reply.task] }
  | .finishedTask args =>
    if s.Reports args then
      (s.coordinator.finishedTask args).map fun c => { s with coordinator := c }
    else none
  | .checkFinished i =>
    (s.checks[i]?).bind fun check =>
      (s.coordinator.checkFinished check.1 check.2).map fun c =>
        { s with coordinator := c, checks := s.checks.eraseIdx i }
  | .done => some { s with coordinator := s.coordinator.done.1 }

theorem Tasks.step_getTask (s : Tasks) : s.step .getTask = some
    { coordinator := s.coordinator.getTask.1
      checks := s.checks ++ s.coordinator.getTask.2.1
      held := if s.coordinator.getTask.2.2.task.type = .none then s.held
        else s.held ++ [s.coordinator.getTask.2.2.task] } := rfl

/-- The runs of a coordinator for some files. -/
def Tasks.lts (files : List String) (nReduce : Nat) : Lts Tasks Action where
  init s := ∃ c, makeCoordinator files nReduce = some c ∧ s = ⟨c, [], []⟩
  step s a s' := s.step a = some s'

/-! ## The invariant -/

/-- How often a task may be in its channel and how many `CheckFinished` may sleep for it. -/
def Token : WorkerStatus → Nat → Nat → Prop
  | .idle, queued, asleep => queued = 1 ∧ asleep = 0
  | .inProcess, queued, asleep => queued = 0 ∧ asleep = 1
  | .completed, queued, asleep => queued = 0 ∧ asleep ≤ 1
  | .error, _, _ => False

theorem Token.idle_of_queued {status : WorkerStatus} {queued asleep : Nat}
    (h : Token status queued asleep) (hq : 0 < queued) :
    status = .idle ∧ queued = 1 ∧ asleep = 0 := by
  cases status with
  | idle => exact ⟨rfl, h⟩
  | inProcess => exact absurd h.1 (by omega)
  | completed => exact absurd h.1 (by omega)
  | error => exact h.elim

theorem Token.of_asleep {status : WorkerStatus} {queued asleep : Nat}
    (h : Token status queued asleep) (hk : 0 < asleep) :
    queued = 0 ∧ asleep = 1 ∧ (status = .inProcess ∨ status = .completed) := by
  cases status with
  | idle => exact absurd h.2 (by omega)
  | inProcess => exact ⟨h.1, h.2, Or.inl rfl⟩
  | completed =>
    obtain ⟨hq, hle⟩ := h
    exact ⟨hq, by omega, Or.inr rfl⟩
  | error => exact h.elim

section Invariant

variable (files : List String) (nReduce : Nat)

/-- How many tasks there are of a type. -/
def size (ty : WorkerType) : Nat := if ty = .map then files.length else nReduce

/-- What does not change about a task once it is made. -/
structure Made (ty : WorkerType) (id : Nat) (t : WorkerDetail) : Prop where
  id_eq : t.id = id
  type_eq : t.type = ty
  nReduce_eq : t.nReduce = nReduce
  fileName : ty = .map → files[id]? = some t.fileName

/-- The map tasks that are completed, by id. -/
def completedMaps (c : Coordinator) : List Nat :=
  (List.range files.length).filter fun m => (deref c.mapsTaskList m).isCompleted

/-- The names in `interFiles` are those of the completed map tasks, each once. -/
def NamesOf (c : Coordinator) : Prop :=
  ∀ r < nReduce, ((c.interFiles.lookup (r : Int)).getD []).Perm
    ((completedMaps files c).map fun m => interName m r)

structure Tasks.Inv (s : Tasks) : Prop where
  present : ∀ ty, ty ≠ .none → ∀ id < size files nReduce ty,
    ∃ t, (s.coordinator.tasks ty).lookup id = some t
  made : ∀ ty, ty ≠ .none → ∀ id t, (s.coordinator.tasks ty).lookup id = some t →
    id < size files nReduce ty ∧ Made files nReduce ty id t
  token : ∀ ty, ty ≠ .none → ∀ id t, (s.coordinator.tasks ty).lookup id = some t →
    Token t.status ((s.coordinator.chan ty).queue.count id) (s.checks.count (id, ty))
  queued : ∀ ty, ty ≠ .none → ∀ id ∈ (s.coordinator.chan ty).queue, id < size files nReduce ty
  asleep : ∀ k ∈ s.checks, k.2 ≠ .none
  flag : s.coordinator.isAllMapWorkerFinished = true → allCompleted s.coordinator.mapsTaskList = true
  names : NamesOf files nReduce s.coordinator
  held : ∀ t ∈ s.held, t.type ≠ .none ∧ t.id < size files nReduce t.type ∧
    Made files nReduce t.type t.id t
  int : nReduce < 2 ^ 63

end Invariant

/-! ## One task changes -/

theorem deref_insert (tasks : FinMap Nat WorkerDetail) (id : Nat) (t : WorkerDetail) (m : Nat) :
    deref (tasks.insert id t) m = if m = id then t else deref tasks m := by
  unfold deref
  rw [FinMap.lookup_insert_ite]
  split <;> rfl

section Step

variable {files : List String} {nReduce : Nat} {s : Tasks}

/-- The completed map tasks stay the same when no map task is completed or loses it. -/
theorem completedMaps_congr {c c' : Coordinator}
    (h : ∀ m, (deref c'.mapsTaskList m).isCompleted = (deref c.mapsTaskList m).isCompleted) :
    completedMaps files c' = completedMaps files c := by
  unfold completedMaps
  simp only [h]

/-- One more completed map task. -/
theorem completedMaps_insert {c c' : Coordinator} {id : Nat} {t : WorkerDetail}
    (hid : id < files.length) (htasks : c'.mapsTaskList = c.mapsTaskList.insert id t)
    (hold : (deref c.mapsTaskList id).isCompleted = false) (ht : t.isCompleted = true) :
    (completedMaps files c').Perm (id :: completedMaps files c) := by
  unfold completedMaps
  refine (List.perm_ext_iff_of_nodup (List.nodup_range.filter _) ?_).mpr ?_
  · refine List.nodup_cons.mpr ⟨?_, List.nodup_range.filter _⟩
    simp [hold]
  · intro m
    simp only [List.mem_cons, List.mem_filter, List.mem_range, htasks, deref_insert]
    by_cases hm : m = id
    · subst hm
      simp [hid, ht]
    · simp [hm]

namespace Tasks.Inv

/-- The invariant after a change to one task that is not completed, to its channel and to the calls
asleep for it. -/
theorem change (h : s.Inv files nReduce) {ty : WorkerType} (hty : ty ≠ .none) {id : Nat}
    {t t' : WorkerDetail} (ht : (s.coordinator.tasks ty).lookup id = some t)
    (hopen : t.status ≠ .completed) {c' : Coordinator} {checks' : List Check}
    {held' : List WorkerDetail}
    (htasks : ∀ ty', ty' ≠ .none → c'.tasks ty' =
      if ty' = ty then (s.coordinator.tasks ty').insert id t' else s.coordinator.tasks ty')
    (hchan : ∀ ty', ty' ≠ .none → ∀ id', (id', ty') ≠ (id, ty) →
      (c'.chan ty').queue.count id' = (s.coordinator.chan ty').queue.count id')
    (hchecks : ∀ k, k ≠ (id, ty) → checks'.count k = s.checks.count k)
    (hmade : Made files nReduce ty id t')
    (htoken : Token t'.status ((c'.chan ty).queue.count id) (checks'.count (id, ty)))
    (hflag : c'.isAllMapWorkerFinished = s.coordinator.isAllMapWorkerFinished)
    (hnames : NamesOf files nReduce c')
    (hheld : ∀ t ∈ held', t.type ≠ .none ∧ t.id < size files nReduce t.type ∧
      Made files nReduce t.type t.id t) :
    Tasks.Inv files nReduce ⟨c', checks', held'⟩ := by
  have hid := (h.made ty hty id t ht).1
  -- what a task list has after the change
  have hlook : ∀ ty', ty' ≠ .none → ∀ id' u, (c'.tasks ty').lookup id' = some u →
      (ty' = ty ∧ id' = id ∧ u = t') ∨
        ((id', ty') ≠ (id, ty) ∧ (s.coordinator.tasks ty').lookup id' = some u) := by
    intro ty' hty' id' u hu
    rw [htasks ty' hty'] at hu
    split at hu
    · rename_i heq
      rw [FinMap.lookup_insert_ite] at hu
      split at hu
      · rename_i hid'
        exact Or.inl ⟨heq, hid', (Option.some.inj hu).symm⟩
      · rename_i hid'
        exact Or.inr ⟨by simp [hid'], hu⟩
    · rename_i hne
      exact Or.inr ⟨by simp [hne], hu⟩
  refine ⟨?_, ?_, ?_, ?_, ?_, ?_, hnames, hheld, h.int⟩
  · intro ty' hty' id' hid'
    obtain ⟨u, hu⟩ := h.present ty' hty' id' hid'
    dsimp only
    rw [htasks ty' hty']
    split
    · rw [FinMap.lookup_insert_ite]
      split
      · exact ⟨t', rfl⟩
      · exact ⟨u, hu⟩
    · exact ⟨u, hu⟩
  · intro ty' hty' id' u hu
    rcases hlook ty' hty' id' u hu with ⟨rfl, rfl, rfl⟩ | ⟨-, hu⟩
    · exact ⟨hid, hmade⟩
    · exact h.made ty' hty' id' u hu
  · intro ty' hty' id' u hu
    rcases hlook ty' hty' id' u hu with ⟨rfl, rfl, rfl⟩ | ⟨hne, hu⟩
    · exact htoken
    · dsimp only
      rw [hchan ty' hty' id' hne, hchecks _ hne]
      exact h.token ty' hty' id' u hu
  · intro ty' hty' id' hmem
    by_cases heq : (id', ty') = (id, ty)
    · obtain ⟨rfl, rfl⟩ := Prod.mk.inj heq
      exact hid
    · have hcount := List.count_pos_iff.mpr hmem
      dsimp only at hcount
      rw [hchan ty' hty' id' heq] at hcount
      exact h.queued ty' hty' id' (List.count_pos_iff.mp hcount)
  · intro k hk
    by_cases heq : k = (id, ty)
    · rw [heq]
      exact hty
    · have hcount := List.count_pos_iff.mpr hk
      dsimp only at hcount
      rw [hchecks k heq] at hcount
      exact h.asleep k (List.count_pos_iff.mp hcount)
  · intro htrue
    dsimp only at htrue ⊢
    have hall := h.flag (hflag ▸ htrue)
    have hmap : ty ≠ .map := by
      rintro rfl
      exact hopen (allCompleted_iff.mp hall id t ht)
    have hsame : c'.mapsTaskList = s.coordinator.mapsTaskList := by
      have heq := htasks .map (by decide)
      rw [if_neg (Ne.symm hmap)] at heq
      exact heq
    rw [hsame]
    exact hall

/-- Such a change that completes nothing leaves the names as they are. -/
theorem names_kept (h : s.Inv files nReduce) {ty : WorkerType} {id : Nat} {t t' : WorkerDetail}
    (ht : (s.coordinator.tasks ty).lookup id = some t)
    (hopen : t.status ≠ .completed) (hopen' : t'.status ≠ .completed) {c' : Coordinator}
    (htasks : c'.tasks .map = if WorkerType.map = ty then (s.coordinator.tasks .map).insert id t'
      else s.coordinator.tasks .map)
    (hfiles : c'.interFiles = s.coordinator.interFiles) : NamesOf files nReduce c' := by
  intro r hr
  rw [hfiles, completedMaps_congr (c := s.coordinator)]
  · exact h.names r hr
  · intro m
    by_cases hty : WorkerType.map = ty
    · subst hty
      rw [if_pos rfl] at htasks
      have hlist : c'.mapsTaskList = s.coordinator.mapsTaskList.insert id t' := htasks
      rw [hlist, deref_insert]
      split
      · rename_i hm
        subst hm
        have hderef : deref s.coordinator.mapsTaskList m = t := by
          have ht' : s.coordinator.mapsTaskList.lookup m = some t := ht
          simp [deref, ht']
        simp [hderef, WorkerDetail.isCompleted, hopen, hopen']
      · rfl
    · rw [if_neg hty] at htasks
      have hlist : c'.mapsTaskList = s.coordinator.mapsTaskList := htasks
      rw [hlist]

/-! ## The calls -/

/-- The task that `GetTask` hands out is idle, and keeps what it was made with. -/
theorem handed_out (h : s.Inv files nReduce) {ty : WorkerType} (hty : ty ≠ .none) {id : Nat}
    {queue : List Nat} (hqueue : (s.coordinator.chan ty).queue = id :: queue) :
    ∃ t, (s.coordinator.tasks ty).lookup id = some t ∧ deref (s.coordinator.tasks ty) id = t ∧
      t.status = .idle ∧ queue.count id = 0 ∧ s.checks.count (id, ty) = 0 ∧
      Made files nReduce ty id t := by
  obtain ⟨t, ht⟩ := h.present ty hty id (h.queued ty hty id (by simp [hqueue]))
  have htoken := h.token ty hty id t ht
  rw [hqueue, List.count_cons_self] at htoken
  obtain ⟨hidle, hone, hnone⟩ := htoken.idle_of_queued (by omega)
  exact ⟨t, ht, by simp [deref, ht], hidle, by omega, hnone, (h.made ty hty id t ht).2⟩

theorem getTask (h : s.Inv files nReduce) {s' : Tasks} (hstep : s.step .getTask = some s') :
    s'.Inv files nReduce := by
  rw [Tasks.step_getTask] at hstep
  obtain rfl := Option.some.inj hstep
  rcases s.coordinator.getTask_cases with ⟨hc, hstarted, htask⟩ | ⟨ty, id, queue, task, hty, hqueue,
    htask, hget⟩
  · rw [hc, hstarted, htask, List.append_nil, if_pos (show WorkerDetail.zero.type = .none from rfl)]
    exact h
  · have hne : ty ≠ .none := by
      rw [hty]
      split <;> decide
    obtain ⟨t, ht, hderef, hidle, hzero, hnone, hmade⟩ := h.handed_out hne hqueue
    rw [hderef] at htask
    have hmade' : Made files nReduce ty id task := by
      rw [htask]
      exact ⟨hmade.id_eq, hmade.type_eq, hmade.nReduce_eq, hmade.fileName⟩
    have hin : task.status = .inProcess := by rw [htask]; rfl
    simp only [hget]
    have htasks : ∀ ty', ty' ≠ .none →
        ((s.coordinator.setChan ty { s.coordinator.chan ty with queue := queue }).setTask ty id
          task).tasks ty' = if ty' = ty then (s.coordinator.tasks ty').insert id task
            else s.coordinator.tasks ty' := by
      intro ty' hty'
      rw [Coordinator.tasks_setTask hne hty', Coordinator.tasks_setChan]
    refine h.change hne ht (by rw [hidle]; decide) htasks ?_ ?_ hmade' ?_ ?_ ?_ ?_
    · intro ty' hty' id' hne'
      rw [Coordinator.chan_setTask, Coordinator.chan_setChan hne hty']
      split
      · rename_i heq
        subst heq
        rw [hqueue, List.count_cons_of_ne]
        exact fun heq => hne' (by rw [heq])
      · rfl
    · intro k hk
      rw [hmade'.id_eq, hmade'.type_eq, List.count_append, List.count_singleton]
      simp [Ne.symm hk]
    · rw [Coordinator.chan_setTask, Coordinator.chan_setChan hne hne, if_pos rfl, hmade'.id_eq,
        hmade'.type_eq, List.count_append, hin]
      simp [Token, hzero, hnone]
    · simp
    · exact h.names_kept ht (by rw [hidle]; decide) (by rw [hin]; decide)
        (htasks .map (by decide)) (by simp)
    · rw [hmade'.type_eq, if_neg hne]
      intro u hu
      rcases List.mem_append.mp hu with hu | hu
      · exact h.held u hu
      · obtain rfl := List.mem_singleton.mp hu
        rw [hmade'.type_eq, hmade'.id_eq]
        exact ⟨hne, (h.made ty hne id t ht).1, hmade'⟩

/-- The loop over the names that `MapWork` returns adds one name for each reduce task. -/
theorem addInterFiles (m : Nat) {n : Nat} (hn : n < 2 ^ 63) (interFiles : FinMap Int (List String)) :
    ∃ interFiles', ((List.range n).map (interName m)).foldlM Coordinator.addInterFile interFiles =
        some interFiles' ∧
      ∀ r : Nat, (interFiles'.lookup (r : Int)).getD [] =
        (interFiles.lookup (r : Int)).getD [] ++ if r < n then [interName m r] else [] := by
  induction n with
  | zero => exact ⟨interFiles, rfl, by simp⟩
  | succ n ih =>
    have hlast : n < 2 ^ 63 := Nat.lt_of_succ_lt hn
    obtain ⟨files', hfold, hget⟩ := ih hlast
    refine ⟨files'.insert (n : Int) ((files'.lookup (n : Int)).getD [] ++ [interName m n]), ?_, ?_⟩
    · rw [List.range_succ, List.map_append, List.foldlM_append, hfold]
      simp [addInterFile_interName _ m hlast]
    · intro r
      rw [FinMap.lookup_insert_ite]
      by_cases hr : r = n
      · subst hr
        simp [hget]
      · have hlt : r < n + 1 ↔ r < n := by omega
        simp only [Int.natCast_inj, if_neg hr, hget, hlt]

theorem finishedTask (h : s.Inv files nReduce) {args : Args} {s' : Tasks}
    (hstep : s.step (.finishedTask args) = some s') : s'.Inv files nReduce := by
  simp only [Tasks.step] at hstep
  split at hstep
  · rename_i hreports
    obtain ⟨hheld, hreported⟩ := hreports
    obtain ⟨c', hc', rfl⟩ := Option.map_eq_some_iff.mp hstep
    rcases Coordinator.finishedTask_cases hc' with rfl | ⟨t, interFiles, ht, hin, hfold, rfl⟩
    · exact h
    · obtain ⟨hne, hsize, hargs⟩ := h.held _ hheld
      obtain ⟨-, hmade⟩ := h.made _ hne _ t ht
      have hopen : t.status ≠ .completed := by rw [hin]; decide
      have hmade' : Made files nReduce args.task.type args.task.id t.changeStatusToCompleted :=
        ⟨hmade.id_eq, hmade.type_eq, hmade.nReduce_eq, hmade.fileName⟩
      refine h.change hne ht hopen ?_ ?_ (fun _ _ => rfl) hmade' ?_ ?_ ?_ h.held
      · intro ty' hty'
        exact Coordinator.tasks_setTask hne hty' _ _
      · intro ty' hty' id' _
        have hchan : (s.coordinator.setTask args.task.type args.task.id
            t.changeStatusToCompleted).chan ty' = s.coordinator.chan ty' := s.coordinator.chan_setTask _ _
        exact congrArg (fun ch : Chan => ch.queue.count id') hchan
      · have htoken := h.token _ hne _ t ht
        rw [hin] at htoken
        have hchan : (s.coordinator.setTask args.task.type args.task.id
            t.changeStatusToCompleted).chan args.task.type = s.coordinator.chan args.task.type :=
          s.coordinator.chan_setTask _ _
        exact ⟨(congrArg (fun ch : Chan => ch.queue.count args.task.id) hchan).trans htoken.1,
          htoken.2.le⟩
      · exact s.coordinator.flag_setTask _ _
      · by_cases hmap : args.task.type = .map
        · -- one more map task is completed, and its names are added
          rw [hmade.type_eq, if_pos hmap, hreported hmap, mapNames, hargs.nReduce_eq] at hfold
          obtain ⟨interFiles', hfold', hget⟩ :=
            addInterFiles args.task.id h.int s.coordinator.interFiles
          obtain rfl : interFiles' = interFiles := Option.some.inj (hfold'.symm.trans hfold)
          have ht' : s.coordinator.mapsTaskList.lookup args.task.id = some t := by
            rw [hmap] at ht
            exact ht
          have hperm := @completedMaps_insert files s.coordinator
            { s.coordinator.setTask args.task.type args.task.id t.changeStatusToCompleted with
              interFiles := interFiles' }
            args.task.id t.changeStatusToCompleted
            (by simpa [size, hmap] using hsize) (by simp [Coordinator.setTask, hmap])
            (by simp [deref, ht', WorkerDetail.isCompleted, hin]) (by rfl)
          intro r hr
          dsimp only
          rw [hget r, if_pos hr]
          refine ((h.names r hr).append_right _).trans ?_
          refine List.Perm.trans ?_ (hperm.map _).symm
          exact List.perm_append_singleton _ _
        · rw [hmade.type_eq, if_neg hmap] at hfold
          obtain rfl := Option.some.inj hfold
          intro r hr
          have hlist : (s.coordinator.setTask args.task.type args.task.id
              t.changeStatusToCompleted).mapsTaskList = s.coordinator.mapsTaskList := by
            simp [Coordinator.setTask, hmap]
          rw [completedMaps_congr (c := s.coordinator) (fun m => by dsimp only; rw [hlist])]
          exact h.names r hr
  · contradiction

theorem checkFinished (h : s.Inv files nReduce) {i : Nat} {s' : Tasks}
    (hstep : s.step (.checkFinished i) = some s') : s'.Inv files nReduce := by
  obtain ⟨⟨id, ty⟩, hi, hrest⟩ := Option.bind_eq_some_iff.mp hstep
  obtain ⟨c', hc', rfl⟩ := Option.map_eq_some_iff.mp hrest
  have hne : ty ≠ .none := h.asleep (id, ty) (List.mem_of_getElem? hi)
  -- the call is no longer asleep
  have hcount : ∀ k, (s.checks.eraseIdx i).count k =
      if k = (id, ty) then s.checks.count k - 1 else s.checks.count k := by
    intro k
    obtain ⟨hlt, hget⟩ := List.getElem?_eq_some_iff.mp hi
    rw [List.eraseIdx_eq_take_drop_succ]
    conv_rhs => rw [← List.take_append_drop i s.checks, List.drop_eq_getElem_cons hlt, hget]
    simp only [List.count_append, List.count_cons]
    by_cases hk : k = (id, ty)
    · simp [hk]
    · simp [hk, Ne.symm hk]
  obtain ⟨t, ht, hcases⟩ := Coordinator.checkFinished_cases hc'
  have htoken := h.token ty hne id t ht
  obtain ⟨hq, hk, hstatus⟩ :=
    htoken.of_asleep (List.count_pos_iff.mpr (List.mem_of_getElem? hi))
  rcases hcases with ⟨hdone, rfl⟩ | ⟨hopen, rfl⟩
  · refine { h with token := ?_, asleep := ?_ }
    · intro ty' hty' id' u hu
      have htoken' := h.token ty' hty' id' u hu
      dsimp only
      rw [hcount]
      split
      · rename_i heq
        obtain ⟨rfl, rfl⟩ := Prod.mk.inj heq
        obtain rfl : t = u := Option.some.inj (ht.symm.trans hu)
        rw [hdone]
        exact ⟨hq, by omega⟩
      · exact htoken'
    · intro k hk
      exact h.asleep k (List.mem_of_mem_eraseIdx hk)
  · obtain ⟨-, hmade⟩ := h.made ty hne id t ht
    have htasks : ∀ ty', ty' ≠ .none →
        ((s.coordinator.setTask ty id t.changeStatusToIdle).setChan ty { s.coordinator.chan ty with
          queue := (s.coordinator.chan ty).queue ++ [id] }).tasks ty' =
          if ty' = ty then (s.coordinator.tasks ty').insert id t.changeStatusToIdle
            else s.coordinator.tasks ty' := by
      intro ty' hty'
      rw [Coordinator.tasks_setChan, Coordinator.tasks_setTask hne hty']
    refine h.change hne ht hopen htasks ?_ ?_ ?_ ?_ ?_ ?_ h.held
    · intro ty' hty' id' hne'
      rw [Coordinator.chan_setChan hne hty']
      split
      · rename_i heq
        subst heq
        have hid : id ≠ id' := fun heq => hne' (by rw [heq])
        simp [List.count_append, hid]
      · rw [Coordinator.chan_setTask]
    · intro k hk'
      rw [hcount, if_neg hk']
    · exact ⟨hmade.id_eq, hmade.type_eq, hmade.nReduce_eq, hmade.fileName⟩
    · rw [Coordinator.chan_setChan hne hne, if_pos rfl, hcount, if_pos rfl]
      exact ⟨by simp [List.count_append, hq], by rw [hk]⟩
    · simp
    · exact h.names_kept ht hopen (fun heq => WorkerStatus.noConfusion heq) (htasks .map (by decide)) (by simp)

theorem done (h : s.Inv files nReduce) {s' : Tasks} (hstep : s.step .done = some s') :
    s'.Inv files nReduce := by
  obtain rfl := Option.some.inj hstep
  exact ⟨h.present, h.made, h.token, h.queued, h.asleep, id, h.names, h.held, h.int⟩

theorem step (h : s.Inv files nReduce) {a : Action} {s' : Tasks} (hstep : s.step a = some s') :
    s'.Inv files nReduce := by
  cases a with
  | getTask => exact h.getTask hstep
  | finishedTask args => exact h.finishedTask hstep
  | checkFinished i => exact h.checkFinished hstep
  | done => exact h.done hstep

/-- A completed task stays completed, and only a report of a task in process completes it. -/
theorem completed_step (h : s.Inv files nReduce) {a : Action} {s' : Tasks}
    (hstep : s.step a = some s') {ty : WorkerType} (hty : ty ≠ .none) (id : Nat) :
    ((deref (s.coordinator.tasks ty) id).status = .completed →
      (deref (s'.coordinator.tasks ty) id).status = .completed) ∧
    ((deref (s'.coordinator.tasks ty) id).status = .completed →
      (deref (s.coordinator.tasks ty) id).status = .completed ∨
        ∃ args, a = .finishedTask args ∧ args.task.type = ty ∧ args.task.id = id) := by
  -- a change of one task that is not completed, to a status that is not
  have hother : ∀ {ty' : WorkerType} {id' : Nat} {t t' : WorkerDetail} {c' : Coordinator},
      (s.coordinator.tasks ty').lookup id' = some t → t.status ≠ .completed →
      t'.status ≠ .completed →
      (c'.tasks ty = if ty = ty' then (s.coordinator.tasks ty).insert id' t'
        else s.coordinator.tasks ty) →
      ((deref (c'.tasks ty) id).status = .completed ↔
        (deref (s.coordinator.tasks ty) id).status = .completed) := by
    intro ty' id' t t' c' ht hopen hopen' htasks
    rw [htasks]
    split
    · rename_i heq
      subst heq
      rw [deref_insert]
      split
      · rename_i hid
        subst hid
        simp [deref, ht, hopen, hopen']
      · rfl
    · rfl
  cases a with
  | getTask =>
    rw [Tasks.step_getTask] at hstep
    obtain rfl := Option.some.inj hstep
    rcases s.coordinator.getTask_cases with ⟨hc, -⟩ | ⟨ty', id', queue, task, hty', hqueue, htask,
      hget⟩
    · dsimp only
      rw [hc]
      exact ⟨fun h => h, Or.inl⟩
    · have hne : ty' ≠ .none := by
        rw [hty']
        split <;> decide
      obtain ⟨t, ht, hderef, hidle, -⟩ := h.handed_out hne hqueue
      have hiff := @hother ty' id' t task s.coordinator.getTask.1 ht
        (by rw [hidle]; decide) (by rw [htask]; exact fun heq => WorkerStatus.noConfusion heq)
        (by rw [hget, Coordinator.tasks_setTask hne hty, Coordinator.tasks_setChan])
      exact ⟨hiff.mpr, fun hc => Or.inl (hiff.mp hc)⟩
  | finishedTask args =>
    simp only [Tasks.step] at hstep
    split at hstep
    · rename_i hreports
      obtain ⟨c', hc', rfl⟩ := Option.map_eq_some_iff.mp hstep
      rcases Coordinator.finishedTask_cases hc' with rfl | ⟨t, interFiles, ht, hin, -, rfl⟩
      · exact ⟨fun h => h, Or.inl⟩
      · have hne := (h.held _ hreports.1).1
        have htasks := Coordinator.tasks_setTask (c := s.coordinator) hne hty args.task.id
          t.changeStatusToCompleted
        dsimp only
        change (_ → (deref ((s.coordinator.setTask _ _ _).tasks ty) id).status = _) ∧
          ((deref ((s.coordinator.setTask _ _ _).tasks ty) id).status = _ → _)
        rw [htasks]
        split
        · rename_i heq
          subst heq
          rw [deref_insert]
          split
          · rename_i hid
            exact ⟨fun _ => rfl, fun _ => Or.inr ⟨args, rfl, rfl, hid.symm⟩⟩
          · exact ⟨fun h => h, Or.inl⟩
        · exact ⟨fun h => h, Or.inl⟩
    · contradiction
  | checkFinished i =>
    obtain ⟨⟨id', ty'⟩, hi, hrest⟩ := Option.bind_eq_some_iff.mp hstep
    obtain ⟨c', hc', rfl⟩ := Option.map_eq_some_iff.mp hrest
    have hne : ty' ≠ .none := h.asleep (id', ty') (List.mem_of_getElem? hi)
    obtain ⟨t, ht, ⟨-, rfl⟩ | ⟨hopen, rfl⟩⟩ := Coordinator.checkFinished_cases hc'
    · exact ⟨fun h => h, Or.inl⟩
    · have hiff := fun ch => @hother ty' id' t t.changeStatusToIdle
        ((s.coordinator.setTask ty' id' t.changeStatusToIdle).setChan ty' ch) ht hopen
        (fun heq => WorkerStatus.noConfusion heq)
        (by rw [Coordinator.tasks_setChan, Coordinator.tasks_setTask hne hty])
      exact ⟨(hiff _).mpr, fun hc => Or.inl ((hiff _).mp hc)⟩
  | done =>
    obtain rfl := Option.some.inj hstep
    exact ⟨fun h => h, Or.inl⟩

/-- A task that was handed out stays in the list of those. -/
theorem held_step {a : Action} {s' : Tasks} (hstep : s.step a = some s') {t : WorkerDetail}
    (ht : t ∈ s.held) : t ∈ s'.held := by
  cases a with
  | getTask =>
    rw [Tasks.step_getTask] at hstep
    obtain rfl := Option.some.inj hstep
    dsimp only
    split
    · exact ht
    · exact List.mem_append_left _ ht
  | finishedTask args =>
    simp only [Tasks.step] at hstep
    split at hstep
    · obtain ⟨c', -, rfl⟩ := Option.map_eq_some_iff.mp hstep
      exact ht
    · contradiction
  | checkFinished i =>
    obtain ⟨k, -, hrest⟩ := Option.bind_eq_some_iff.mp hstep
    obtain ⟨c', -, rfl⟩ := Option.map_eq_some_iff.mp hrest
    exact ht
  | done =>
    obtain rfl := Option.some.inj hstep
    exact ht

end Tasks.Inv

end Step

/-! ## The start -/

/-- What the loops that make the tasks leave behind. -/
structure Adds (ts : List WorkerDetail) (c c' : Coordinator) : Prop where
  queue : ∀ ty, ty ≠ .none → (c'.chan ty).queue =
    (c.chan ty).queue ++ (ts.filter fun t => t.type = ty).map WorkerDetail.id
  from_list : ∀ ty, ty ≠ .none → ∀ id u, (c'.tasks ty).lookup id = some u →
    (c.tasks ty).lookup id = some u ∨ (u ∈ ts ∧ u.id = id ∧ u.type = ty)
  present : ∀ ty, ty ≠ .none → ∀ id, ((c.tasks ty).lookup id).isSome ∨
    (∃ t ∈ ts, t.id = id ∧ t.type = ty) → ((c'.tasks ty).lookup id).isSome
  flag : c'.isAllMapWorkerFinished = c.isAllMapWorkerFinished
  interFiles : c'.interFiles = c.interFiles

theorem Adds.trans {ts ts' : List WorkerDetail} {c c' c'' : Coordinator} (h : Adds ts c c')
    (h' : Adds ts' c' c'') : Adds (ts ++ ts') c c'' where
  queue := by
    intro ty hty
    rw [h'.queue ty hty, h.queue ty hty, List.filter_append, List.map_append, List.append_assoc]
  from_list := by
    intro ty hty id u hu
    rcases h'.from_list ty hty id u hu with hu | ⟨hmem, hrest⟩
    · rcases h.from_list ty hty id u hu with hu | ⟨hmem, hrest⟩
      · exact Or.inl hu
      · exact Or.inr ⟨List.mem_append_left _ hmem, hrest⟩
    · exact Or.inr ⟨List.mem_append_right _ hmem, hrest⟩
  present := by
    intro ty hty id hid
    apply h'.present ty hty id
    rcases hid with hid | ⟨t, hmem, hrest⟩
    · exact Or.inl (h.present ty hty id (Or.inl hid))
    · rcases List.mem_append.mp hmem with hmem | hmem
      · exact Or.inl (h.present ty hty id (Or.inr ⟨t, hmem, hrest⟩))
      · exact Or.inr ⟨t, hmem, hrest⟩
  flag := h'.flag.trans h.flag
  interFiles := h'.interFiles.trans h.interFiles

theorem addTask_adds {c c' : Coordinator} {t : WorkerDetail} (ht : t.type ≠ .none)
    (h : c.addTask t = some c') : Adds [t] c c' := by
  obtain ⟨ch, hsend, rfl⟩ := Option.map_eq_some_iff.mp h
  have hch : ch.queue = (c.chan t.type).queue ++ [t.id] := by
    unfold Chan.send at hsend
    split at hsend
    · obtain rfl := Option.some.inj hsend
      rfl
    · contradiction
  refine ⟨?_, ?_, ?_, by simp, by simp⟩
  · intro ty hty
    rw [Coordinator.chan_setChan ht hty, Coordinator.chan_setTask]
    split
    · rename_i heq
      simp [hch, heq]
    · rename_i hne
      simp [Ne.symm hne]
  · intro ty hty id u hu
    rw [Coordinator.tasks_setChan, Coordinator.tasks_setTask ht hty] at hu
    split at hu
    · rename_i heq
      rw [FinMap.lookup_insert_ite] at hu
      split at hu
      · rename_i hid
        obtain rfl := Option.some.inj hu
        exact Or.inr ⟨List.mem_singleton_self _, hid.symm, heq.symm⟩
      · exact Or.inl hu
    · exact Or.inl hu
  · intro ty hty id hid
    rw [Coordinator.tasks_setChan, Coordinator.tasks_setTask ht hty]
    split
    · rename_i heq
      rw [FinMap.lookup_insert_ite]
      split
      · rfl
      · rename_i hne
        rcases hid with hid | ⟨u, hu, hid, -⟩
        · exact hid
        · rw [List.mem_singleton.mp hu] at hid
          exact absurd hid.symm hne
    · rename_i hne
      rcases hid with hid | ⟨u, hu, -, htype⟩
      · exact hid
      · rw [List.mem_singleton.mp hu] at htype
        exact absurd htype.symm hne

theorem foldlM_adds {ts : List WorkerDetail} {c c' : Coordinator} (hts : ∀ t ∈ ts, t.type ≠ .none)
    (h : ts.foldlM Coordinator.addTask c = some c') : Adds ts c c' := by
  induction ts generalizing c with
  | nil =>
    obtain rfl : c = c' := by simpa using h
    exact ⟨by simp, by simp_all, by simp, rfl, rfl⟩
  | cons t ts ih =>
    rw [List.foldlM_cons] at h
    obtain ⟨d, hd, hrest⟩ := Option.bind_eq_some_iff.mp h
    exact (addTask_adds (hts t List.mem_cons_self) hd).trans
      (ih (fun u hu => hts u (List.mem_cons_of_mem _ hu)) hrest)

section Start

variable {files : List String} {nReduce : Nat}

/-- All tasks, in the order they are made. -/
def allTasks (files : List String) (nReduce : Nat) : List WorkerDetail :=
  files.zipIdx.map (mapTask nReduce) ++ (List.range nReduce).map (reduceTask nReduce)

theorem made_of_mem {t : WorkerDetail} (ht : t ∈ allTasks files nReduce) :
    t.type ≠ .none ∧ t.id < size files nReduce t.type ∧ Made files nReduce t.type t.id t ∧
      t.status = .idle := by
  rcases List.mem_append.mp ht with ht | ht
  · obtain ⟨⟨file, i⟩, hmem, rfl⟩ := List.mem_map.mp ht
    have hget := List.mem_zipIdx_iff_getElem?.mp hmem
    obtain ⟨hlt, -⟩ := List.getElem?_eq_some_iff.mp hget
    exact ⟨by simp [mapTask], hlt, ⟨rfl, rfl, rfl, fun _ => hget⟩, rfl⟩
  · obtain ⟨i, hmem, rfl⟩ := List.mem_map.mp ht
    refine ⟨by simp [reduceTask], List.mem_range.mp hmem, ⟨rfl, rfl, rfl, ?_⟩, rfl⟩
    intro hmap
    simp [reduceTask] at hmap

/-- The ids that go into a channel are those of its tasks, each once. -/
theorem ids_allTasks {ty : WorkerType} (hty : ty ≠ .none) :
    ((allTasks files nReduce).filter fun t => t.type = ty).map WorkerDetail.id =
      List.range (size files nReduce ty) := by
  have hmaps : (files.zipIdx.map (mapTask nReduce)).map WorkerDetail.id =
      List.range files.length := by
    rw [List.map_map, List.range_eq_range', ← List.zipIdx_map_snd 0 files]
    rfl
  have hreduces : ((List.range nReduce).map (reduceTask nReduce)).map WorkerDetail.id =
      List.range nReduce := by
    rw [List.map_map]
    exact List.map_id _
  have htypes : (∀ t ∈ files.zipIdx.map (mapTask nReduce), t.type = .map) ∧
      ∀ t ∈ (List.range nReduce).map (reduceTask nReduce), t.type = .reduce := by
    constructor
    all_goals
      intro t ht
      obtain ⟨_, -, rfl⟩ := List.mem_map.mp ht
      rfl
  unfold allTasks
  rw [List.filter_append]
  cases ty with
  | none => contradiction
  | map =>
    rw [List.filter_eq_self.mpr fun t ht => by simp [htypes.1 t ht],
      List.filter_eq_nil_iff.mpr fun t ht => by simp [htypes.2 t ht], List.append_nil, hmaps]
    rfl
  | reduce =>
    rw [List.filter_eq_nil_iff.mpr fun t ht => by simp [htypes.1 t ht],
      List.filter_eq_self.mpr fun t ht => by simp [htypes.2 t ht], List.nil_append, hreduces]
    rfl

/-- A coordinator without a task. -/
def noTasks (nReduce : Nat) : Coordinator :=
  { mapsTaskList := ∅, reduceTaskList := ∅
    mapChan := { queue := [], cap := 10000 }, reduceChan := { queue := [], cap := nReduce }
    isAllMapWorkerFinished := false, interFiles := ∅ }

theorem makeCoordinator_adds {c : Coordinator} (h : makeCoordinator files nReduce = some c) :
    Adds (allTasks files nReduce) (noTasks nReduce) c := by
  obtain ⟨-, h⟩ := Option.ite_none_right_eq_some.mp h
  obtain ⟨d, hmaps, hreduces⟩ := Option.bind_eq_some_iff.mp h
  have htype : ∀ t ∈ allTasks files nReduce, t.type ≠ .none := fun t ht => (made_of_mem ht).1
  exact (foldlM_adds (fun t ht => htype t (List.mem_append_left _ ht)) hmaps).trans
    (foldlM_adds (fun t ht => htype t (List.mem_append_right _ ht)) hreduces)

theorem mem_of_makeCoordinator {c : Coordinator} (h : makeCoordinator files nReduce = some c)
    {ty : WorkerType} (hty : ty ≠ .none) {id : Nat} {u : WorkerDetail}
    (hu : (c.tasks ty).lookup id = some u) :
    u ∈ allTasks files nReduce ∧ u.id = id ∧ u.type = ty := by
  rcases (makeCoordinator_adds h).from_list ty hty id u hu with hempty | hmem
  · cases ty <;> simp [Coordinator.tasks, noTasks] at hempty
  · exact hmem

/-- No task is completed at the start. -/
theorem open_of_makeCoordinator {c : Coordinator} (h : makeCoordinator files nReduce = some c)
    {ty : WorkerType} (hty : ty ≠ .none) (id : Nat) :
    (deref (c.tasks ty) id).status = .idle := by
  cases hlook : (c.tasks ty).lookup id with
  | none => simp [deref, hlook, WorkerDetail.zero]
  | some u =>
    obtain ⟨hmem, -⟩ := mem_of_makeCoordinator h hty hlook
    obtain ⟨-, -, -, hidle⟩ := made_of_mem hmem
    simp [deref, hlook, hidle]

/-- Each channel starts with the ids of its tasks. -/
theorem queue_of_makeCoordinator {c : Coordinator} (h : makeCoordinator files nReduce = some c)
    {ty : WorkerType} (hty : ty ≠ .none) :
    (c.chan ty).queue = List.range (size files nReduce ty) := by
  rw [(makeCoordinator_adds h).queue ty hty, ids_allTasks hty]
  cases ty <;> rfl

theorem Tasks.Inv.init {c : Coordinator} (h : makeCoordinator files nReduce = some c) :
    Tasks.Inv files nReduce ⟨c, [], []⟩ := by
  have hadds := makeCoordinator_adds h
  have hqueue := fun ty hty => @queue_of_makeCoordinator files nReduce c h ty hty
  refine ⟨?_, ?_, ?_, ?_, by simp, ?_, ?_, by simp, (Option.ite_none_right_eq_some.mp h).1⟩
  · intro ty hty id hid
    refine Option.isSome_iff_exists.mp (hadds.present ty hty id (Or.inr ?_))
    rw [← List.mem_range, ← ids_allTasks hty] at hid
    obtain ⟨t, ht, hid⟩ := List.mem_map.mp hid
    obtain ⟨hmem, htype⟩ := List.mem_filter.mp ht
    exact ⟨t, hmem, hid, by simpa using htype⟩
  · intro ty hty id u hu
    obtain ⟨hmem, rfl, rfl⟩ := mem_of_makeCoordinator h hty hu
    obtain ⟨-, hlt, hmade, -⟩ := made_of_mem hmem
    exact ⟨hlt, hmade⟩
  · intro ty hty id u hu
    obtain ⟨hmem, rfl, rfl⟩ := mem_of_makeCoordinator h hty hu
    obtain ⟨-, hlt, -, hidle⟩ := made_of_mem hmem
    rw [hidle]
    refine ⟨?_, rfl⟩
    dsimp only
    rw [hqueue _ hty, List.count_eq_one_of_mem List.nodup_range (List.mem_range.mpr hlt)]
  · intro ty hty id hid
    dsimp only at hid
    rw [hqueue ty hty] at hid
    exact List.mem_range.mp hid
  · intro hflag
    rw [hadds.flag] at hflag
    contradiction
  · intro r hr
    have hnone : completedMaps files c = [] := by
      refine List.filter_eq_nil_iff.mpr ?_
      intro m _
      have hmap : WorkerType.map ≠ .none := by decide
      have hidle : (deref c.mapsTaskList m).status = .idle := open_of_makeCoordinator h hmap m
      simp [WorkerDetail.isCompleted, hidle]
    rw [hnone, hadds.interFiles]
    simp [noTasks]

/-! ## Runs -/

theorem Tasks.Inv.run {s t : Tasks} {tr : List (Tasks × Action)} (hs : (lts files nReduce).init s)
    (hrun : (lts files nReduce).Run s tr t) : ∀ u ∈ visited tr t, u.Inv files nReduce := by
  obtain ⟨c, hc, rfl⟩ := hs
  exact hrun.invariant (fun _ _ _ h hstep => h.step hstep) (Tasks.Inv.init hc)

/-- A reduce task is handed out with the names of all map tasks for it. -/
theorem Tasks.Inv.reduce_task {u : Tasks} (hinv : u.Inv files nReduce)
    (htype : u.coordinator.getTask.2.2.task.type = .reduce) :
    (∀ m < files.length, (deref u.coordinator.mapsTaskList m).status = .completed) ∧
      u.coordinator.getTask.2.2.task.fileNames.Perm
        ((List.range files.length).map fun m => interName m u.coordinator.getTask.2.2.task.id) := by
  rcases u.coordinator.getTask_cases with ⟨-, -, hzero⟩ | ⟨ty, id, queue, task, hty, hqueue,
    htask, hget⟩
  · rw [hzero] at htype
    contradiction
  · have hne : ty ≠ .none := by
      rw [hty]
      split <;> decide
    obtain ⟨t', ht', hderef, -, -, -, hmade⟩ := hinv.handed_out hne hqueue
    rw [hderef] at htask
    rw [hget] at htype ⊢
    dsimp only at htype ⊢
    obtain rfl : ty = .reduce := by
      rw [← hmade.type_eq, ← htype, htask]
      rfl
    have hflag : u.coordinator.isAllMapWorkerFinished = true := by
      by_contra hflag
      rw [if_neg hflag] at hty
      contradiction
    have hall := allCompleted_iff.mp (hinv.flag hflag)
    have hcompleted : ∀ m < files.length,
        (deref u.coordinator.mapsTaskList m).status = .completed := by
      intro m hm
      obtain ⟨v, hv⟩ := hinv.present .map (by decide) m hm
      have hv' : u.coordinator.mapsTaskList.lookup m = some v := hv
      simpa [deref, hv'] using hall m v hv'
    have hmaps : completedMaps files u.coordinator = List.range files.length := by
      refine List.filter_eq_self.mpr ?_
      intro m hm
      simpa [WorkerDetail.isCompleted] using hcompleted m (List.mem_range.mp hm)
    have hid : task.id = id := by
      rw [htask]
      exact hmade.id_eq
    have hnames : task.fileNames = (u.coordinator.interFiles.lookup (id : Int)).getD [] := by
      rw [htask]
      dsimp only
      rw [if_pos rfl, hmade.id_eq]
    have hperm := hinv.names id (by simpa [size] using (hinv.made _ hne id t' ht').1)
    rw [hmaps, ← hnames] at hperm
    rw [hid]
    exact ⟨hcompleted, hperm⟩

/-- Whenever `GetTask` hands out a reduce task, every map task is completed, and the file names of
the task are those of all map tasks for it, each once. -/
theorem reduce_inputs {s t : Tasks} {tr : List (Tasks × Action)} (hs : (Tasks.lts files nReduce).init s)
    (hrun : (Tasks.lts files nReduce).Run s tr t) {u : Tasks} (hu : (u, Action.getTask) ∈ tr)
    (htype : u.coordinator.getTask.2.2.task.type = .reduce) :
    (∀ m < files.length, (deref u.coordinator.mapsTaskList m).status = .completed) ∧
      u.coordinator.getTask.2.2.task.fileNames.Perm
        ((List.range files.length).map fun m => interName m u.coordinator.getTask.2.2.task.id) ∧
      u.coordinator.getTask.2.2.task.fileNames.Nodup := by
  have hinv := Tasks.Inv.run hs hrun u (List.mem_append_left _ (List.mem_map_of_mem hu))
  obtain ⟨hcompleted, hperm⟩ := hinv.reduce_task htype
  refine ⟨hcompleted, hperm, hperm.nodup_iff.mpr (List.nodup_range.map ?_)⟩
  intro m m' heq
  exact (interName_inj heq).1

end Start

section Sample

def twoFiles : Tasks := ⟨(makeCoordinator ["a", "b"] 1).get (by decide), [], []⟩

def reported (s : Tasks) (i : Nat) : Action :=
  .finishedTask ⟨s.held.getD i .zero, mapNames (s.held.getD i .zero)⟩

/-- Both map tasks are handed out, the first once more after a timeout; it is reported by both of
its workers, around the report of the second. -/
def twice : List Action :=
  [.getTask, .getTask, .checkFinished 0, .getTask,
    reported (after Tasks.step twoFiles [.getTask]) 0,
    reported (after Tasks.step twoFiles [.getTask, .getTask]) 1,
    reported (after Tasks.step twoFiles [.getTask]) 0, .done, .getTask]

theorem reduce_inputs_twice :
    (after Tasks.step twoFiles (twice.take 8)).coordinator.getTask.2.2.task.fileNames.Perm
      ["mr-0-0", "mr-1-0"] := by
  have hstart : (Tasks.lts ["a", "b"] 1).init twoFiles := ⟨_, (Option.some_get _).symm, rfl⟩
  have hrun : (Tasks.lts ["a", "b"] 1).Run twoFiles (traceOf Tasks.step twoFiles twice)
      (after Tasks.step twoFiles twice) :=
    Lts.run_of_steps (fun _ _ _ h => h) (by decide)
  have hlast : (after Tasks.step twoFiles (twice.take 8), Action.getTask) ∈
      traceOf Tasks.step twoFiles twice := mem_traceOf twoFiles (twice.take 8) .getTask []
  have hinputs := (reduce_inputs hstart hrun hlast (by decide)).2.1
  exact hinputs.trans (List.Perm.of_eq (by decide))

end Sample

end DistSys.Mr
