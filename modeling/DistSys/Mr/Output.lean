import DistSys.Mr.Worker
import Mathlib.Data.List.Sort

/- The output of a job against that of the sequential program.

   `MapWork` creates its files in place. A worker that is slow past the timeout can
   create them again when the task is completed already, or while the worker that has the
   task now is writing them; a reduce task then reads less than all records
   (`truncated_output_differs`). `ReduceWork`, which writes a temporary file and renames it, does
   not have this.

   When every file is created only while its map task is not completed and no other
   running worker has begun to write for it (`Alone`), at most one worker writes the files of a
   task, the files of a completed task stay as they are, every reduce task reads all its
   records, and the lines are those of the sequential program (`output_sequential`). -/
namespace DistSys.Mr

open Lib

/-- The worker has begun to write the files of a map task, and has not reported it. -/
def Phase.Begun : Phase → Nat → Prop
  | .creating task i, m => 0 < i ∧ task.id = m
  | .encoding task _ _, m => task.id = m
  | .reporting args, m => args.task.type = .map ∧ args.task.id = m
  | _, _ => False

namespace Job

/-- A step does not create a file of a map task that is completed or that another worker, which has
not crashed, has begun. -/
def Alone (j : Job) : Action → Prop
  | .work w =>
    match j.workers w with
    | .creating task i => i < task.nReduce →
      (deref j.tasks.coordinator.mapsTaskList task.id).status ≠ .completed ∧
        ∀ w', w' ≠ w → ¬ (j.workers w').Begun task.id
    | _ => True
  | _ => True

end Job

/-! ## The invariant -/

section Invariant

variable (app : App) (files : List String) (nReduce : Nat)

/-- The records of a map task. -/
def recordsOf (m : Nat) : List KeyValue := app.mapFile (files.getD m "")

/-- The records for a reduce task. -/
def inputOf (r : Nat) : List KeyValue :=
  (List.range files.length).flatMap fun m => partition nReduce r (recordsOf app files m)

/-- The files of a map task have all its records. -/
def Stored (fs : FinMap String File) (m : Nat) : Prop :=
  ∀ r < nReduce, fs.lookup (interName m r) =
    some ((partition nReduce r (recordsOf app files m)).map some)

/-- A map task is completed. -/
def Mapped (j : Job) (m : Nat) : Prop :=
  (deref (j.tasks.coordinator.tasks .map) m).status = .completed

/-- What a reader has of the files `ms`, and of the first `pos` records of the next one. -/
def readSoFar (r : Nat) (ms rest : List Nat) (pos : Nat) : List KeyValue :=
  ms.flatMap (fun m => partition nReduce r (recordsOf app files m)) ++
    match rest with
    | m :: _ => (partition nReduce r (recordsOf app files m)).take pos
    | [] => []

/-- What is known at each point of the loop of a worker. -/
def PhaseOk (j : Job) : Phase → Prop
  | .creating task i => task ∈ j.tasks.held ∧ task.type = .map ∧ i ≤ nReduce ∧
    ∀ r < i, j.files.lookup (interName task.id r) = some []
  | .encoding task written left => task ∈ j.tasks.held ∧ task.type = .map ∧
    written ++ left = recordsOf app files task.id ∧
    ∀ r < nReduce, j.files.lookup (interName task.id r) =
      some ((partition nReduce r written).map some)
  | .reading task filenames pos intermediates => task ∈ j.tasks.held ∧ task.type = .reduce ∧
    (∀ m < files.length, Mapped j m) ∧
    ∃ ms rest, (ms ++ rest).Perm (List.range files.length) ∧
      filenames = rest.map (fun m => interName m task.id) ∧
      intermediates = readSoFar app files nReduce task.id ms rest pos
  | .reporting args => args.task ∈ j.tasks.held ∧
    ((args.task.type = .map ∧ args.intermidiateFiles = mapNames args.task ∧
        Stored app files nReduce j.files args.task.id) ∨
      (args.task.type = .reduce ∧ (j.outs.lookup (outName args.task.id)).isSome))
  | .idle => True
  | .exited => True

structure Job.Inv (j : Job) : Prop where
  tasks : j.tasks.Inv files nReduce
  phase : ∀ w, PhaseOk app files nReduce j (j.workers w)
  one : ∀ w w' m, (j.workers w).Begun m → (j.workers w').Begun m → w = w'
  stored : ∀ m < files.length, Mapped j m →
    Stored app files nReduce j.files m ∧ ∀ w, ¬ (j.workers w).Begun m
  outs : ∀ r < nReduce, ∀ lines, j.outs.lookup (outName r) = some lines →
    lines.Perm (grouped KeyValue.key app.line (inputOf app files nReduce r))
  reduced : ∀ r < nReduce, (deref (j.tasks.coordinator.tasks .reduce) r).status = .completed →
    (j.outs.lookup (outName r)).isSome

end Invariant

section Step

variable {app : App} {files : List String} {nReduce : Nat} {j j' : Job}

/-- What one worker relies on is kept by the steps of others. -/
theorem PhaseOk.frame {p : Phase} (h : PhaseOk app files nReduce j p)
    (hheld : ∀ t ∈ j.tasks.held, t ∈ j'.tasks.held) (hmapped : ∀ m, Mapped j m → Mapped j' m)
    (hfiles : ∀ m, p.Begun m → ∀ r,
      j'.files.lookup (interName m r) = j.files.lookup (interName m r))
    (houts : ∀ r, (j.outs.lookup (outName r)).isSome → (j'.outs.lookup (outName r)).isSome) :
    PhaseOk app files nReduce j' p := by
  cases p with
  | idle => trivial
  | exited => trivial
  | creating task i =>
    obtain ⟨hmem, htype, hi, hempty⟩ := h
    refine ⟨hheld task hmem, htype, hi, fun r hr => ?_⟩
    rw [hfiles task.id ⟨by omega, rfl⟩]
    exact hempty r hr
  | encoding task written left =>
    obtain ⟨hmem, htype, hsplit, hwritten⟩ := h
    refine ⟨hheld task hmem, htype, hsplit, fun r hr => ?_⟩
    rw [hfiles task.id rfl]
    exact hwritten r hr
  | reading task filenames pos intermediates =>
    obtain ⟨hmem, htype, hall, hread⟩ := h
    exact ⟨hheld task hmem, htype, fun m hm => hmapped m (hall m hm), hread⟩
  | reporting args =>
    obtain ⟨hmem, ⟨htype, hnames, hstored⟩ | ⟨htype, hout⟩⟩ := h
    · refine ⟨hheld _ hmem, Or.inl ⟨htype, hnames, fun r hr => ?_⟩⟩
      rw [hfiles args.task.id ⟨htype, rfl⟩]
      exact hstored r hr
    · exact ⟨hheld _ hmem, Or.inr ⟨htype, houts _ hout⟩⟩

namespace Job.Inv

/-- One worker goes on; the others keep what they rely on. -/
theorem next (h : j.Inv app files nReduce) {w : Nat} {p : Phase}
    (hworkers : j'.workers = Function.update j.workers w p) (htasks : j'.tasks.Inv files nReduce)
    (hheld : ∀ t ∈ j.tasks.held, t ∈ j'.tasks.held) (hmapped : ∀ m, Mapped j m → Mapped j' m)
    (hfiles : ∀ w', w' ≠ w → ∀ m, (j.workers w').Begun m → ∀ r,
      j'.files.lookup (interName m r) = j.files.lookup (interName m r))
    (hsome : ∀ r, (j.outs.lookup (outName r)).isSome → (j'.outs.lookup (outName r)).isSome)
    (hp : PhaseOk app files nReduce j' p)
    (hone : ∀ m, p.Begun m → ∀ w', w' ≠ w → ¬ (j.workers w').Begun m)
    (hstored : ∀ m < files.length, Mapped j' m → Stored app files nReduce j'.files m ∧
      ¬ p.Begun m ∧ ∀ w', w' ≠ w → ¬ (j.workers w').Begun m)
    (houts : ∀ r < nReduce, ∀ lines, j'.outs.lookup (outName r) = some lines →
      lines.Perm (grouped KeyValue.key app.line (inputOf app files nReduce r)))
    (hreduced : ∀ r < nReduce,
      (deref (j'.tasks.coordinator.tasks .reduce) r).status = .completed →
      (j'.outs.lookup (outName r)).isSome) :
    j'.Inv app files nReduce := by
  have hself : j'.workers w = p := by rw [hworkers, Function.update_self]
  have hother : ∀ w', w' ≠ w → j'.workers w' = j.workers w' := by
    intro w' hne
    rw [hworkers, Function.update_of_ne hne]
  refine ⟨htasks, ?_, ?_, ?_, houts, hreduced⟩
  · intro w'
    by_cases hw : w' = w
    · rw [hw, hself]
      exact hp
    · rw [hother w' hw]
      exact (h.phase w').frame hheld hmapped (hfiles w' hw) hsome
  · intro w₁ w₂ m h₁ h₂
    by_cases hw₁ : w₁ = w
    · by_cases hw₂ : w₂ = w
      · rw [hw₁, hw₂]
      · rw [hw₁, hself] at h₁
        rw [hother w₂ hw₂] at h₂
        exact absurd h₂ (hone m h₁ w₂ hw₂)
    · rw [hother w₁ hw₁] at h₁
      by_cases hw₂ : w₂ = w
      · rw [hw₂, hself] at h₂
        exact absurd h₁ (hone m h₂ w₁ hw₁)
      · rw [hother w₂ hw₂] at h₂
        exact h.one w₁ w₂ m h₁ h₂
  · intro m hm hmap
    obtain ⟨hst, hnot, hnots⟩ := hstored m hm hmap
    refine ⟨hst, fun w' => ?_⟩
    by_cases hw : w' = w
    · rw [hw, hself]
      exact hnot
    · rw [hother w' hw]
      exact hnots w' hw

/-- A step of a worker that touches neither the coordinator nor a file. -/
theorem move (h : j.Inv app files nReduce) {w : Nat} {p : Phase}
    (hp : PhaseOk app files nReduce j p) (hbegun : ∀ m, p.Begun m → (j.workers w).Begun m) :
    (j.setWorker w p).Inv app files nReduce := by
  refine h.next (w := w) (p := p) rfl h.tasks (fun _ ht => ht) (fun _ hm => hm)
    (fun _ _ _ _ _ => rfl) (fun _ hr => hr) ?_ ?_ ?_ h.outs h.reduced
  · exact hp.frame (fun _ ht => ht) (fun _ hm => hm) (fun _ _ _ => rfl) (fun _ hr => hr)
  · intro m hm w' hne hm'
    exact hne (h.one w' w m hm' (hbegun m hm))
  · intro m hm hmap
    obtain ⟨hst, hnot⟩ := h.stored m hm hmap
    exact ⟨hst, fun hp => hnot w (hbegun m hp), fun w' _ => hnot w'⟩

/-- A step of the coordinator that completes no task. -/
theorem coordinate (h : j.Inv app files nReduce) {a : Mr.Action} {tasks : Tasks}
    (hstep : j.tasks.step a = some tasks) (ha : ∀ args, a ≠ .finishedTask args) {w : Nat} {p : Phase}
    (hp : PhaseOk app files nReduce { j with tasks := tasks } p)
    (hbegun : ∀ m, p.Begun m → (j.workers w).Begun m) :
    ({ j with tasks := tasks }.setWorker w p).Inv app files nReduce := by
  -- no task is completed by the step
  have hkept : ∀ ty, ty ≠ .none → ∀ id,
      (deref (tasks.coordinator.tasks ty) id).status = .completed ↔
        (deref (j.tasks.coordinator.tasks ty) id).status = .completed := by
    intro ty hty id
    obtain ⟨hkeep, hnew⟩ := h.tasks.completed_step hstep hty id
    refine ⟨fun hc => ?_, hkeep⟩
    rcases hnew hc with hc | ⟨args, rfl, -⟩
    · exact hc
    · exact absurd rfl (ha args)
  refine h.next (w := w) (p := p) rfl (h.tasks.step hstep) (fun t ht => Tasks.Inv.held_step hstep ht)
    (fun m hm => (hkept .map (by decide) m).mpr hm) (fun _ _ _ _ _ => rfl) (fun _ hr => hr) hp ?_ ?_
    h.outs (fun r hr hc => h.reduced r hr ((hkept .reduce (by decide) r).mp hc))
  · intro m hm w' hne hm'
    exact hne (h.one w' w m hm' (hbegun m hm))
  · intro m hm hmap
    obtain ⟨hst, hnot⟩ := h.stored m hm ((hkept .map (by decide) m).mp hmap)
    exact ⟨hst, fun hp => hnot w (hbegun m hp), fun w' _ => hnot w'⟩

/-- Such a step while the workers stay where they are. -/
theorem tick (h : j.Inv app files nReduce) {a : Mr.Action} {tasks : Tasks}
    (hstep : j.tasks.step a = some tasks) (ha : ∀ args, a ≠ .finishedTask args) :
    Job.Inv app files nReduce { j with tasks := tasks } := by
  have hsame : { j with tasks := tasks } = { j with tasks := tasks }.setWorker 0 (j.workers 0) := by
    unfold Job.setWorker
    rw [Function.update_eq_self]
  rw [hsame]
  refine h.coordinate hstep ha ?_ fun _ hm => hm
  exact (h.phase 0).frame (fun _ ht => Tasks.Inv.held_step hstep ht)
    (fun m hm => (h.tasks.completed_step hstep (by decide) m).1 hm) (fun _ _ _ => rfl)
    (fun _ hr => hr)

/-! ## The steps -/

theorem getTask (h : j.Inv app files nReduce) {w : Nat} (hstep : j.getTask w = some j') :
    j'.Inv app files nReduce := by
  unfold Job.getTask at hstep
  split at hstep
  · rename_i hidle
    obtain ⟨tasks, htasks, rfl⟩ := Option.map_eq_some_iff.mp hstep
    have hnone : ∀ args, Mr.Action.getTask ≠ .finishedTask args := fun _ heq => by contradiction
    have hheld : j.tasks.coordinator.getTask.2.2.task.type ≠ .none →
        j.tasks.coordinator.getTask.2.2.task ∈ tasks.held := by
      intro htype
      rw [Tasks.step_getTask] at htasks
      obtain rfl := Option.some.inj htasks
      dsimp only
      rw [if_neg htype]
      exact List.mem_append_right _ (List.mem_singleton_self _)
    dsimp only
    split
    · exact h.coordinate htasks hnone trivial (by simp [Phase.Begun])
    · split
      · rename_i htype
        refine h.coordinate htasks hnone ⟨hheld (by rw [htype]; decide), htype, Nat.zero_le _, ?_⟩ ?_
        · intro r hr
          omega
        · intro m hm
          exact absurd hm.1 (Nat.lt_irrefl 0)
      · rename_i htype
        obtain ⟨hall, hnames⟩ := h.tasks.reduce_task htype
        -- the names are those of the map tasks in some order
        have horder := congrFun (congrFun (List.eq_map_comp_perm fun m =>
          interName m j.tasks.coordinator.getTask.2.2.task.id)
          j.tasks.coordinator.getTask.2.2.task.fileNames) (List.range files.length)
        obtain ⟨ms, hms, hperm⟩ := horder.mpr hnames
        refine h.coordinate htasks hnone ⟨hheld (by rw [htype]; decide), htype, ?_, [], ms, hperm,
          hms, ?_⟩ (by simp [Phase.Begun])
        · intro m hm
          exact (h.tasks.completed_step htasks (by decide) m).1 (hall m hm)
        · cases ms with
          | nil => rfl
          | cons m ms => simp [readSoFar]
      · exact h.tick htasks hnone
  · contradiction

/-- What is known of the task of a worker. -/
theorem task_made (h : j.Inv app files nReduce) {t : WorkerDetail} (ht : t ∈ j.tasks.held)
    (htype : t.type = .map) :
    t.id < files.length ∧ t.nReduce = nReduce ∧
      app.mapFile t.fileName = recordsOf app files t.id := by
  obtain ⟨-, hid, hmade⟩ := h.tasks.held t ht
  rw [htype] at hid hmade
  refine ⟨hid, hmade.nReduce_eq, ?_⟩
  rw [recordsOf, List.getD_eq_getElem?_getD, hmade.fileName rfl]
  rfl

/-- A file of a map task is written by the only worker that has begun the task, and the task is not
completed. -/
theorem write (h : j.Inv app files nReduce) {w m r : Nat} {p : Phase} {file : File}
    (hm : m < files.length) (hopen : ¬ Mapped j m)
    (halone : ∀ w', w' ≠ w → ¬ (j.workers w').Begun m) (hbegun : ∀ m', p.Begun m' → m' = m)
    (hp : PhaseOk app files nReduce { j with files := j.files.insert (interName m r) file } p) :
    ({ j with files := j.files.insert (interName m r) file }.setWorker w p).Inv app files
      nReduce := by
  -- the files of other map tasks stay
  have hfiles : ∀ m', m' ≠ m → ∀ r', (j.files.insert (interName m r) file).lookup
      (interName m' r') = j.files.lookup (interName m' r') := by
    intro m' hne r'
    exact AList.lookup_insert_ne fun heq => hne (interName_inj heq).1
  refine h.next (w := w) (p := p) rfl h.tasks (fun _ ht => ht) (fun _ hm => hm) ?_
    (fun _ hr => hr) ?_ ?_ ?_ h.outs h.reduced
  · intro w' hne m' hm' r'
    refine hfiles m' ?_ r'
    rintro rfl
    exact halone w' hne hm'
  · exact hp.frame (fun _ ht => ht) (fun _ hm => hm) (fun _ _ _ => rfl) (fun _ hr => hr)
  · intro m' hm' w' hne
    rw [hbegun m' hm']
    exact halone w' hne
  · intro m' hm' hmapped
    have hne : m' ≠ m := by
      rintro rfl
      exact hopen hmapped
    obtain ⟨hst, hnot⟩ := h.stored m' hm' hmapped
    refine ⟨fun r' hr' => ?_, fun hp => hne (hbegun m' hp), fun w' _ => hnot w'⟩
    exact (hfiles m' hne r').trans (hst r' hr')

theorem create (h : j.Inv app files nReduce) (hn : 0 < nReduce) {w : Nat} {task : WorkerDetail}
    {i : Nat} (hw : j.workers w = .creating task i) (halone : j.Alone (.work w))
    (hstep : j.work app w = some j') : j'.Inv app files nReduce := by
  have hphase := h.phase w
  rw [hw] at hphase
  obtain ⟨hmem, htype, hi, hempty⟩ := hphase
  obtain ⟨hid, hred, hrecords⟩ := h.task_made hmem htype
  simp only [Job.Alone, hw] at halone
  simp only [Job.work, hw] at hstep
  split at hstep
  · rename_i hlt
    obtain rfl := Option.some.inj hstep
    obtain ⟨hopen, hnots⟩ := halone hlt
    refine h.write hid hopen hnots (fun m' hm' => hm'.2.symm) ⟨hmem, htype, by omega, ?_⟩
    intro r hr
    by_cases hri : r = i
    · rw [hri]
      exact AList.lookup_insert _
    · rw [AList.lookup_insert_ne fun heq => hri (interName_inj heq).2]
      exact hempty r (by omega)
  · rename_i hlt
    obtain rfl := Option.some.inj hstep
    have hall : i = nReduce := by omega
    refine h.move ⟨hmem, htype, by simpa using hrecords, ?_⟩ ?_
    · intro r hr
      exact hempty r (by omega)
    · intro m hm
      rw [hw]
      exact ⟨by omega, hm⟩

theorem partition_snoc (r : Nat) (kva : List KeyValue) (kv : KeyValue) :
    partition nReduce r (kva ++ [kv]) =
      partition nReduce r kva ++ if ihash kv.key % nReduce = r then [kv] else [] := by
  unfold partition
  rw [List.filter_append, List.filter_singleton]
  by_cases hr : ihash kv.key % nReduce = r
  · simp [hr]
  · simp [hr]

theorem encode (h : j.Inv app files nReduce) {w : Nat} {task : WorkerDetail}
    {written left : List KeyValue} (hw : j.workers w = .encoding task written left)
    (hstep : j.work app w = some j') : j'.Inv app files nReduce := by
  have hphase := h.phase w
  rw [hw] at hphase
  obtain ⟨hmem, htype, hsplit, hwritten⟩ := hphase
  obtain ⟨hid, hred, -⟩ := h.task_made hmem htype
  have hself : (j.workers w).Begun task.id := by
    rw [hw]
    exact rfl
  cases left with
  | nil =>
    simp only [Job.work, hw] at hstep
    obtain rfl := Option.some.inj hstep
    rw [List.append_nil] at hsplit
    refine h.move ⟨hmem, Or.inl ⟨htype, rfl, ?_⟩⟩ ?_
    · rw [Stored, ← hsplit]
      exact hwritten
    · intro m hm
      rw [hw]
      exact hm.2
  | cons kv left =>
    simp only [Job.work, hw] at hstep
    obtain rfl := Option.some.inj hstep
    refine h.write hid (fun hmapped => (h.stored _ hid hmapped).2 w hself)
      (fun w' hne hw' => hne (h.one w' w _ hw' hself)) (fun m' hm' => hm'.symm)
      ⟨hmem, htype, by simpa using hsplit, ?_⟩
    intro r hr
    rw [hred, partition_snoc]
    by_cases hri : ihash kv.key % nReduce = r
    · -- the record goes to the end of what the file has
      subst hri
      dsimp only
      rw [AList.lookup_insert, hwritten _ hr, if_pos rfl]
      simp [File.write]
    · dsimp only
      rw [AList.lookup_insert_ne fun heq => hri (interName_inj heq).2.symm, hwritten r hr,
        if_neg hri, List.append_nil]

theorem read (h : j.Inv app files nReduce) {w : Nat} {task : WorkerDetail} {filename : String}
    {filenames : List String} {pos : Nat} {intermediates : List KeyValue}
    (hw : j.workers w = .reading task (filename :: filenames) pos intermediates)
    (hstep : j.work app w = some j') : j'.Inv app files nReduce := by
  have hphase := h.phase w
  rw [hw] at hphase
  obtain ⟨hmem, htype, hall, ms, rest, hperm, hnames, hread⟩ := hphase
  cases rest with
  | nil => simp at hnames
  | cons m rest =>
    obtain ⟨rfl, rfl⟩ := List.cons.inj hnames
    have hm : m < files.length := List.mem_range.mp (hperm.mem_iff.mp (by simp))
    obtain ⟨-, hr, -⟩ := h.tasks.held task hmem
    rw [htype] at hr
    have hfile := (h.stored m hm (hall m hm)).1 task.id hr
    simp only [Job.work, hw, hfile, List.getElem?_map] at hstep
    cases hrec : (partition nReduce task.id (recordsOf app files m))[pos]? with
    | some kv =>
      simp only [hrec, Option.map_some] at hstep
      obtain rfl := Option.some.inj hstep
      refine h.move ⟨hmem, htype, hall, ms, m :: rest, hperm, rfl, ?_⟩ (by simp [Phase.Begun])
      simp only [hread, readSoFar, List.append_assoc, List.take_add_one, hrec, Option.toList_some]
    | none =>
      simp only [hrec, Option.map_none] at hstep
      obtain rfl := Option.some.inj hstep
      refine h.move ⟨hmem, htype, hall, ms ++ [m], rest, by simpa using hperm, rfl, ?_⟩
        (by simp [Phase.Begun])
      have hend := List.take_of_length_le (List.getElem?_eq_none_iff.mp hrec)
      simp only [hread, readSoFar, hend]
      cases rest with
      | nil => simp
      | cons m' rest => simp

/-- The lines of the runs of sorted records are those of the groups. -/
theorem reduceLoop_perm (hreduce : ∀ key vs vs', vs.Perm vs' → app.reducef key vs = app.reducef key vs')
    (sorter : Sorter) {kva kva' : List KeyValue} (hperm : kva.Perm kva') :
    (app.reduceLoop (sorter.sort kva)).Perm (grouped KeyValue.key app.line kva') := by
  refine runs_of_sorted ?_ (sorter.sorted kva) ((sorter.perm kva).trans hperm)
  intro key kvs kvs' hkvs
  unfold App.line
  rw [hreduce key _ _ (hkvs.map _)]

theorem outName_inj {r r' : Nat} (h : outName r = outName r') : r = r' := by
  have hlists := congrArg String.toList h
  simp only [outName, String.toList_append] at hlists
  exact toString_inj (String.toList_inj.mp (List.append_cancel_left hlists))

theorem rename (h : j.Inv app files nReduce)
    (hreduce : ∀ key vs vs', vs.Perm vs' → app.reducef key vs = app.reducef key vs') {w : Nat}
    {task : WorkerDetail} {pos : Nat} {intermediates : List KeyValue}
    (hw : j.workers w = .reading task [] pos intermediates) (hstep : j.work app w = some j') :
    j'.Inv app files nReduce := by
  have hphase := h.phase w
  rw [hw] at hphase
  obtain ⟨hmem, htype, hall, ms, rest, hperm, hnames, hread⟩ := hphase
  obtain rfl : rest = [] := by simpa using hnames.symm
  simp only [Job.work, hw] at hstep
  obtain rfl := Option.some.inj hstep
  have hinput : intermediates.Perm (inputOf app files nReduce task.id) := by
    rw [hread, readSoFar, List.append_nil, inputOf]
    rw [List.append_nil] at hperm
    exact hperm.flatMap_right _
  have hsome : ∀ r, (j.outs.lookup (outName r)).isSome →
      ((j.outs.insert (outName task.id) (app.reduceLoop (app.sortSlice.sort intermediates))).lookup
        (outName r)).isSome := by
    intro r hr
    rw [FinMap.lookup_insert_ite]
    split
    · rfl
    · exact hr
  refine h.next (w := w) (p := .reporting ⟨task, []⟩) rfl h.tasks (fun _ ht => ht) (fun _ hm => hm)
    (fun _ _ _ _ _ => rfl) hsome ⟨hmem, Or.inr ⟨htype, ?_⟩⟩ ?_ ?_ ?_
    (fun r hr hc => hsome r (h.reduced r hr hc))
  · exact Option.isSome_iff_exists.mpr ⟨_, AList.lookup_insert _⟩
  · rintro m ⟨hmap, -⟩
    rw [htype] at hmap
    contradiction
  · intro m hm hmapped
    obtain ⟨hst, hnot⟩ := h.stored m hm hmapped
    refine ⟨hst, ?_, fun w' _ => hnot w'⟩
    rintro ⟨hmap, -⟩
    rw [htype] at hmap
    contradiction
  · intro r hr lines hlines
    dsimp only [Job.setWorker] at hlines
    rw [FinMap.lookup_insert_ite] at hlines
    split at hlines
    · rename_i heq
      obtain rfl := Option.some.inj hlines
      rw [outName_inj heq]
      exact reduceLoop_perm hreduce _ hinput
    · exact h.outs r hr lines hlines

theorem report (h : j.Inv app files nReduce) {w : Nat} {args : Args}
    (hw : j.workers w = .reporting args) (hstep : j.work app w = some j') :
    j'.Inv app files nReduce := by
  have hphase := h.phase w
  rw [hw] at hphase
  obtain ⟨hmem, hkind⟩ := hphase
  simp only [Job.work, hw] at hstep
  obtain ⟨c, hc, rfl⟩ := Option.map_eq_some_iff.mp hstep
  have hreports : j.tasks.Reports args := by
    refine ⟨hmem, fun htype => ?_⟩
    rcases hkind with ⟨-, hnames, -⟩ | ⟨hreduce, -⟩
    · exact hnames
    · rw [htype] at hreduce
      contradiction
  have htasks : j.tasks.step (.finishedTask args) = some { j.tasks with coordinator := c } := by
    simp [Tasks.step, hreports, hc]
  have hcompleted := fun (ty : WorkerType) (hty : ty ≠ .none) (id : Nat) =>
    h.tasks.completed_step htasks hty id
  refine h.next (w := w) (p := .idle) rfl (h.tasks.step htasks) (fun _ ht => ht)
    (fun m hm => (hcompleted .map (by decide) m).1 hm) (fun _ _ _ _ _ => rfl) (fun _ hr => hr)
    trivial (fun m hm => hm.elim) ?_ h.outs ?_
  · intro m hm hmapped
    rcases (hcompleted .map (by decide) m).2 hmapped with hold | ⟨args', heq, htype, hid⟩
    · obtain ⟨hst, hnot⟩ := h.stored m hm hold
      exact ⟨hst, fun hp => hp.elim, fun w' _ => hnot w'⟩
    · -- the worker that completes the task was the only one that had begun it
      obtain rfl : args = args' := by simpa using heq
      rcases hkind with ⟨-, -, hst⟩ | ⟨hreduce, -⟩
      · subst hid
        refine ⟨hst, fun hp => hp.elim, fun w' hne hw' => hne (h.one w' w _ hw' ?_)⟩
        rw [hw]
        exact ⟨htype, rfl⟩
      · rw [htype] at hreduce
        contradiction
  · intro r hr hdone
    rcases (hcompleted .reduce (by decide) r).2 hdone with hold | ⟨args', heq, htype, hid⟩
    · exact h.reduced r hr hold
    · obtain rfl : args = args' := by simpa using heq
      rcases hkind with ⟨hmap, -⟩ | ⟨-, hout⟩
      · rw [htype] at hmap
        contradiction
      · rw [← hid]
        exact hout

theorem step (h : j.Inv app files nReduce) (hn : 0 < nReduce)
    (hreduce : ∀ key vs vs', vs.Perm vs' → app.reducef key vs = app.reducef key vs') {a : Job.Action}
    (halone : j.Alone a) (hstep : j.step app a = some j') : j'.Inv app files nReduce := by
  cases a with
  | getTask w => exact h.getTask hstep
  | work w =>
    have hwork : j.work app w = some j' := hstep
    cases hw : j.workers w with
    | idle => simp [Job.work, hw] at hwork
    | exited => simp [Job.work, hw] at hwork
    | creating task i => exact h.create hn hw halone hwork
    | encoding task written left => exact h.encode hw hwork
    | reading task filenames pos intermediates =>
      cases filenames with
      | nil => exact h.rename hreduce hw hwork
      | cons filename filenames => exact h.read hw hwork
    | reporting args => exact h.report hw hwork
  | crash w =>
    obtain rfl := Option.some.inj hstep
    exact h.move trivial fun m hm => hm.elim
  | checkFinished i =>
    obtain ⟨tasks, htasks, rfl⟩ := Option.map_eq_some_iff.mp hstep
    exact h.tick htasks fun _ heq => by contradiction
  | done =>
    have hstep : (j.tasks.step .done).map (fun tasks => { j with tasks := tasks }) = some j' := hstep
    obtain ⟨tasks, htasks, rfl⟩ := Option.map_eq_some_iff.mp hstep
    exact h.tick htasks fun _ heq => by contradiction

theorem init {c : Coordinator} (hc : makeCoordinator files nReduce = some c) :
    Job.Inv app files nReduce ⟨⟨c, [], []⟩, ∅, ∅, fun _ => .idle⟩ := by
  have hnone : ∀ ty, ty ≠ .none → ∀ id, (deref (c.tasks ty) id).status ≠ .completed := by
    intro ty hty id
    rw [open_of_makeCoordinator hc hty id]
    decide
  refine ⟨Tasks.Inv.init hc, fun _ => trivial, fun _ _ _ hm => hm.elim, ?_, by simp, ?_⟩
  · intro m _ hm
    exact absurd hm (hnone .map (by decide) m)
  · intro r _ hr
    exact absurd hr (hnone .reduce (by decide) r)

end Job.Inv

end Step

/-! ## Whole runs -/

/-- The input of a reduce task is its part of all records. -/
theorem inputOf_eq (app : App) (files : List String) (nReduce r : Nat) :
    inputOf app files nReduce r = partition nReduce r (files.flatMap app.mapFile) := by
  have hfiles : files = (List.range files.length).map fun m => files.getD m "" := by
    refine List.ext_getElem (by simp) ?_
    intro i hi _
    simp [hi]
  conv_rhs => rw [hfiles]
  rw [partition, List.flatMap_map, List.filter_flatMap]
  rfl

/-- Output files that have the lines of their groups have together those of the sequential program. -/
theorem lines_sequential {app : App} {files : List String} {nReduce : Nat} (hn : 0 < nReduce)
    (hreduce : ∀ key vs vs', vs.Perm vs' → app.reducef key vs = app.reducef key vs')
    {lines : Nat → List String} (hlines : ∀ r ∈ List.range nReduce, (lines r).Perm
      (grouped KeyValue.key app.line (inputOf app files nReduce r))) :
    ((List.range nReduce).flatMap lines).Perm (app.sequential files) :=
  calc ((List.range nReduce).flatMap lines).Perm ((List.range nReduce).flatMap fun r =>
          grouped KeyValue.key app.line (inputOf app files nReduce r)) :=
        List.Perm.flatMap_left _ hlines
    _ = (List.range nReduce).flatMap fun r => grouped KeyValue.key app.line
          (partition nReduce r (files.flatMap app.mapFile)) := by
        simp only [inputOf_eq]
    List.Perm _ (grouped KeyValue.key app.line (files.flatMap app.mapFile)) :=
        grouped_split app.line (fun key => ihash key % nReduce)
          (fun _ => Nat.mod_lt _ hn) (files.flatMap app.mapFile)
    List.Perm _ (app.sequential files) := (Job.Inv.reduceLoop_perm hreduce _ (List.Perm.refl _)).symm

/-- When all tasks are completed, the output has the lines of the sequential program. -/
theorem Job.Inv.output {app : App} {files : List String} {nReduce : Nat} {j : Job}
    (h : j.Inv app files nReduce) (hn : 0 < nReduce)
    (hreduce : ∀ key vs vs', vs.Perm vs' → app.reducef key vs = app.reducef key vs')
    (hdone : j.tasks.coordinator.done.2 = true) :
    (j.output nReduce).Perm (app.sequential files) := by
  have hreduces : allCompleted (j.tasks.coordinator.tasks .reduce) = true :=
    (Bool.and_eq_true_iff.mp hdone).2
  refine lines_sequential hn hreduce ?_
  intro r hr
  have hr := List.mem_range.mp hr
  obtain ⟨t, ht⟩ := h.tasks.present .reduce (by decide) r hr
  have hcompleted : (deref (j.tasks.coordinator.tasks .reduce) r).status = .completed := by
    simpa [deref, ht] using allCompleted_iff.mp hreduces r t ht
  obtain ⟨lines, hlook⟩ := Option.isSome_iff_exists.mp (h.reduced r hr hcompleted)
  rw [hlook]
  exact h.outs r hr lines hlook

/-- In a run in which every step that creates an intermediate file finds its map task not completed,
and no other running worker at the files of the task, `Done` returns true only when the lines of
the output files are those that the sequential program writes. -/
theorem output_sequential (app : App) (files : List String) {nReduce : Nat} (hn : 1 ≤ nReduce)
    (hreduce : ∀ key vs vs', vs.Perm vs' → app.reducef key vs = app.reducef key vs')
    {j j' : Job} {tr : List (Job × Job.Action)} (hj : (Job.lts app files nReduce).init j)
    (hrun : (Job.lts app files nReduce).Run j tr j') (halone : ∀ x ∈ tr, x.1.Alone x.2) :
    ∀ u, (u, Job.Action.done) ∈ tr → u.tasks.coordinator.done.2 = true →
      (u.output nReduce).Perm (app.sequential files) := by
  obtain ⟨c, hc, rfl⟩ := hj
  intro u hu hdone
  have hinv := hrun.invariant_on (I := fun j => j.Inv app files nReduce)
    (fun v a w hmem hv hstep => hv.step hn hreduce (halone _ hmem) hstep) (Job.Inv.init hc) u
    (List.mem_append_left _ (List.mem_map_of_mem hu))
  exact hinv.output hn hreduce hdone

/-! ## A job with one file and one reduce task -/

section Sample

def byKey : Sorter where
  sort := List.insertionSort fun a b => a.key ≤ b.key
  perm kva := List.perm_insertionSort _ kva
  sorted kva := List.pairwise_insertionSort _ kva

/-- Every file has one word, and words are counted. -/
def counting : App where
  mapf := fun _ _ => [⟨"k", "v"⟩]
  reducef := fun _ vs => toString vs.length
  content := fun _ => ""
  sortSlice := byKey
  sortSort := byKey

theorem counting_reducef (key : String) (vs vs' : List String) (h : vs.Perm vs') :
    counting.reducef key vs = counting.reducef key vs' := by
  change toString vs.length = toString vs'.length
  rw [h.length_eq]

def oneFile : Job := ⟨⟨(makeCoordinator ["a"] 1).get (by decide), [], []⟩, ∅, ∅, fun _ => .idle⟩

theorem oneFile_init : (Job.lts counting ["a"] 1).init oneFile :=
  ⟨_, (Option.some_get _).symm, rfl⟩

/-- One worker does all of the job. -/
def soleRun : List Job.Action :=
  [.getTask 0, .work 0, .work 0, .work 0, .work 0, .work 0, .done, .getTask 0, .work 0, .work 0,
    .work 0, .work 0, .done]

/-- The worker that a step is of is 0. -/
def Job.Action.sole : Job.Action → Bool
  | .getTask w => w == 0
  | .work w => w == 0
  | .crash w => w == 0
  | _ => true

theorem setWorker_other {j : Job} {w w' : Nat} {p : Phase} (h : w' ≠ w) :
    (j.setWorker w p).workers w' = j.workers w' :=
  Function.update_of_ne h _ _

/-- The other workers do not start. -/
theorem step_sole {app : App} {j j' : Job} {a : Job.Action} (ha : a.sole = true)
    (hstep : j.step app a = some j') {w : Nat} (hw : w ≠ 0) : j'.workers w = j.workers w := by
  cases a with
  | getTask v =>
    obtain rfl : v = 0 := by simpa [Job.Action.sole] using ha
    simp only [Job.step, Job.getTask] at hstep
    split at hstep
    · obtain ⟨tasks, -, rfl⟩ := Option.map_eq_some_iff.mp hstep
      split
      · exact setWorker_other hw
      · split
        · exact setWorker_other hw
        · exact setWorker_other hw
        · rfl
    · contradiction
  | work v =>
    obtain rfl : v = 0 := by simpa [Job.Action.sole] using ha
    simp only [Job.step, Job.work] at hstep
    repeat' split at hstep
    all_goals first
      | contradiction
      | (obtain rfl := Option.some.inj hstep
         exact setWorker_other hw)
      | (obtain ⟨c, -, rfl⟩ := Option.map_eq_some_iff.mp hstep
         exact setWorker_other hw)
  | crash v =>
    obtain rfl : v = 0 := by simpa [Job.Action.sole] using ha
    obtain rfl := Option.some.inj hstep
    exact setWorker_other hw
  | checkFinished i =>
    obtain ⟨tasks, -, rfl⟩ := Option.map_eq_some_iff.mp hstep
    rfl
  | done =>
    obtain rfl := Option.some.inj hstep
    rfl

/-- Worker 0 does not create a file of a completed task. -/
def createsOpen (x : Job × Job.Action) : Bool :=
  match x.1.workers 0 with
  | .creating task _ =>
    decide ((deref x.1.tasks.coordinator.mapsTaskList task.id).status ≠ .completed)
  | _ => true

theorem output_sequential_sole :
    ((after (Job.step counting) oneFile (soleRun.take 12)).output 1).Perm ["k 1\n"] := by
  have hrun : (Job.lts counting ["a"] 1).Run oneFile (traceOf (Job.step counting) oneFile soleRun)
      (after (Job.step counting) oneFile soleRun) :=
    Lts.run_of_steps (fun _ _ _ h => h) (by decide +kernel)
  have hsole : ∀ x ∈ traceOf (Job.step counting) oneFile soleRun, x.2.sole = true := by
    intro x hx
    have hlabel := List.mem_map_of_mem (f := Prod.snd) hx
    rw [traceOf_labels] at hlabel
    have hall : ∀ a ∈ soleRun, a.sole = true := by
      rw [← List.all_eq_true]
      decide
    exact hall _ hlabel
  have hothers := hrun.invariant_on (I := fun j => ∀ w, w ≠ 0 → j.workers w = .idle)
    (fun u a v hmem hu hstep w hw => (step_sole (hsole _ hmem) hstep hw).trans (hu w hw))
    (fun _ _ => rfl)
  have hopen : (traceOf (Job.step counting) oneFile soleRun).all createsOpen = true := by
    decide +kernel
  have halone : ∀ x ∈ traceOf (Job.step counting) oneFile soleRun, x.1.Alone x.2 := by
    rintro ⟨u, a⟩ hx
    have hidle := hothers u (List.mem_append_left _ (List.mem_map_of_mem hx))
    have hcreates := List.all_eq_true.mp hopen _ hx
    cases a with
    | work w =>
      obtain rfl : w = 0 := by simpa [Job.Action.sole] using hsole _ hx
      simp only [Job.Alone]
      split
      · rename_i task i hphase
        intro _
        refine ⟨by simpa [createsOpen, hphase] using hcreates, fun w' hw' => ?_⟩
        rw [hidle w' hw']
        exact fun hbegun => hbegun
      · trivial
    | _ => trivial
  have hlast : (after (Job.step counting) oneFile (soleRun.take 12), Job.Action.done) ∈
      traceOf (Job.step counting) oneFile soleRun := mem_traceOf oneFile (soleRun.take 12) .done []
  have hsequential : counting.sequential ["a"] = ["k 1\n"] := by decide +kernel
  rw [← hsequential]
  exact output_sequential counting ["a"] le_rfl counting_reducef oneFile_init hrun halone _ hlast
    (by decide +kernel)

/-- Worker 0 is slow. After the timeout worker 1 does its map task, and then worker 0 creates the
file anew, before worker 2 reads it. -/
def overtaken : List Job.Action :=
  [.getTask 0, .checkFinished 0, .getTask 1, .work 1, .work 1, .work 1, .work 1, .work 1, .done,
    .work 0, .getTask 2, .work 2, .work 2, .work 2, .done]

/-- `Done` returns true and the output is empty, where the sequential program writes a line. -/
theorem truncated_output_differs :
    (Job.lts counting ["a"] 1).init oneFile ∧
      (Job.lts counting ["a"] 1).Run oneFile (traceOf (Job.step counting) oneFile overtaken)
        (after (Job.step counting) oneFile overtaken) ∧
      (after (Job.step counting) oneFile (overtaken.take 14), Job.Action.done) ∈
        traceOf (Job.step counting) oneFile overtaken ∧
      (after (Job.step counting) oneFile (overtaken.take 14)).tasks.coordinator.done.2 = true ∧
      (after (Job.step counting) oneFile (overtaken.take 14)).output 1 = [] ∧
      counting.sequential ["a"] = ["k 1\n"] := by
  refine ⟨oneFile_init, ?_, mem_traceOf oneFile (overtaken.take 14) .done [], by decide +kernel,
    by decide +kernel, by decide +kernel⟩
  exact Lts.run_of_steps (fun _ _ _ h => h) (by decide +kernel)

end Sample

end DistSys.Mr
