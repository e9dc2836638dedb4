import DistSys.Mr.Output
import Mathlib.Data.List.Induction

/- `MapWork` and `ReduceWork` as whole functions, against mrsequential.go.

   Here every task is run once, one after another: the map tasks in any order, then the
   reduce tasks in any order, each on the files of the map tasks in any order. The two loops
   over the sorted records are with their indices, as the sources have them; the
   calls of the reduce function that they make are the runs of equal keys (`callLoop_eq`), each
   with all values of its key (`calls_spec`). So the partition into files and the sorts,
   which need not be stable, do not show in the lines (`batch_sequential`).

   The steps that a worker of a job takes come to what these functions compute, when no
   other worker takes one in between (`work_mapWork`, `work_reduceWork`). -/
namespace DistSys.Mr

open Lib

/-! ## Grouping -/

/-- The inner loop: the first index from `j` on at which the key is not that of the record `i`. -/
def runEnd (kva : List KeyValue) (i j : Nat) : Nat :=
  if j < kva.length ∧ kva[j]?.map KeyValue.key = kva[i]?.map KeyValue.key then runEnd kva i (j + 1)
  else j
termination_by kva.length - j

theorem le_runEnd (kva : List KeyValue) (i j : Nat) : j ≤ runEnd kva i j := by
  fun_induction runEnd kva i j with
  | case1 j _ ih => omega
  | case2 j _ => exact le_rfl

/-- The outer loop from the record `i` on: the keys and values that the reduce function is called
with. -/
def callLoop (kva : List KeyValue) (i : Nat) : List (String × List String) :=
  if h : i < kva.length then
    let j := runEnd kva i (i + 1)
    (kva[i].key, ((kva.take j).drop i).map KeyValue.value) :: callLoop kva j
  else []
termination_by kva.length - i
decreasing_by
  have hle := le_runEnd kva i (i + 1)
  omega

/-- `fmt.Fprintf` of a key and what the reduce function makes of its values. -/
def App.print (app : App) (call : String × List String) : String :=
  call.1 ++ " " ++ app.reducef call.1 call.2 ++ "\n"

theorem runEnd_eq {kva : List KeyValue} {i : Nat} {kv : KeyValue} (hi : kva[i]? = some kv) (j : Nat) :
    runEnd kva i j = j + ((kva.drop j).takeWhile fun x => x.key = kv.key).length := by
  fun_induction runEnd kva i j with
  | case1 j hsame ih =>
    obtain ⟨hj, hkey⟩ := hsame
    have hkey : kva[j].key = kv.key := by simpa [hi, hj] using hkey
    rw [ih, List.drop_eq_getElem_cons hj, List.takeWhile_cons_of_pos (by simpa using hkey),
      List.length_cons]
    omega
  | case2 j hend =>
    by_cases hj : j < kva.length
    · have hkey : kva[j].key ≠ kv.key := by simpa [hi, hj] using hend
      rw [List.drop_eq_getElem_cons hj, List.takeWhile_cons_of_neg (by simpa using hkey)]
      rfl
    · rw [List.drop_eq_nil_of_le (by omega)]
      rfl

/-- The calls are the runs of equal keys. -/
theorem callLoop_eq (kva : List KeyValue) (i : Nat) :
    callLoop kva i = (runs KeyValue.key (kva.drop i)).map fun p => (p.1, p.2.map KeyValue.value) := by
  fun_induction callLoop kva i with
  | case1 i hi j ih =>
    rw [ih, List.drop_eq_getElem_cons hi, runs_cons]
    have hj : j = i + 1 + ((kva.drop (i + 1)).takeWhile fun x => x.key = kva[i].key).length :=
      runEnd_eq (List.getElem?_eq_getElem hi) (i + 1)
    -- the records after `i` are the rest of its run, up to `j`, and what is left
    have hsplit := (List.takeWhile_append_dropWhile (p := fun x : KeyValue => x.key = kva[i].key)
      (l := kva.drop (i + 1))).symm
    generalize (kva.drop (i + 1)).takeWhile (fun x => x.key = kva[i].key) = run at hj hsplit ⊢
    generalize (kva.drop (i + 1)).dropWhile (fun x => x.key = kva[i].key) = rest at hsplit ⊢
    have hrun : (kva.take j).drop i = kva[i] :: run := by
      rw [List.drop_take, List.drop_eq_getElem_cons hi, hsplit,
        show j - i = run.length + 1 by omega, List.take_succ_cons, List.take_left' rfl]
    have hrest : kva.drop j = rest := by
      rw [hj, ← List.drop_drop, hsplit, List.drop_left' rfl]
    rw [hrun, hrest]
    rfl
  | case2 i hi =>
    rw [List.drop_eq_nil_of_le (by omega)]
    rfl

/-! ## MapWork -/

/-- A file is created, or emptied, for each reduce task. -/
def createLoop (task : WorkerDetail) (files : FinMap String File) : FinMap String File :=
  (List.range task.nReduce).foldl (fun files i => files.insert (interName task.id i) []) files

/-- Each record goes to the end of the file that its key belongs to. -/
def encodeLoop (task : WorkerDetail) (kva : List KeyValue) (files : FinMap String File) :
    FinMap String File :=
  kva.foldl (fun files kv =>
    let name := interName task.id (ihash kv.key % task.nReduce)
    files.insert name ((files.lookup name).getD [] ++ [some kv])) files

def mapWork (app : App) (task : WorkerDetail) (files : FinMap String File) :
    FinMap String File × List String :=
  (encodeLoop task (app.mapFile task.fileName) (createLoop task files), mapNames task)

theorem lookup_createLoop (task : WorkerDetail) (files : FinMap String File) (name : String) :
    (createLoop task files).lookup name =
      if name ∈ mapNames task then some [] else files.lookup name := by
  unfold createLoop mapNames
  induction task.nReduce with
  | zero => simp
  | succ n ih =>
    rw [List.range_succ, List.foldl_append, List.foldl_cons, List.foldl_nil,
      FinMap.lookup_insert_ite, ih, List.map_append]
    by_cases hname : name = interName task.id n
    · simp [hname]
    · simp [hname]

theorem encodeLoop_cons (task : WorkerDetail) (kv : KeyValue) (kva : List KeyValue)
    (files : FinMap String File) : encodeLoop task (kv :: kva) files =
      encodeLoop task kva (files.insert (interName task.id (ihash kv.key % task.nReduce))
        ((files.lookup (interName task.id (ihash kv.key % task.nReduce))).getD [] ++ [some kv])) :=
  rfl

/-- The file for a reduce task grows by the records that belong to it. -/
theorem lookup_encodeLoop {task : WorkerDetail} {r : Nat} (kva : List KeyValue)
    {files : FinMap String File} {file : File}
    (hfile : files.lookup (interName task.id r) = some file) :
    (encodeLoop task kva files).lookup (interName task.id r) =
      some (file ++ (partition task.nReduce r kva).map some) := by
  induction kva generalizing files file with
  | nil => simpa [encodeLoop, partition] using hfile
  | cons kv kva ih =>
    rw [encodeLoop_cons]
    by_cases hr : ihash kv.key % task.nReduce = r
    · subst hr
      rw [hfile, Option.getD_some, ih (AList.lookup_insert _)]
      simp [partition]
    · have hne : interName task.id r ≠ interName task.id (ihash kv.key % task.nReduce) :=
        fun heq => hr (interName_inj heq).2.symm
      rw [ih ((AList.lookup_insert_ne hne).trans hfile)]
      simp [partition, hr]

theorem mem_mapNames {task : WorkerDetail} {r : Nat} (hr : r < task.nReduce) :
    interName task.id r ∈ mapNames task :=
  List.mem_map_of_mem (List.mem_range.mpr hr)

/-- No other file is written. -/
theorem lookup_encodeLoop_other {task : WorkerDetail} (hn : 0 < task.nReduce) (kva : List KeyValue)
    (files : FinMap String File) {name : String} (hname : name ∉ mapNames task) :
    (encodeLoop task kva files).lookup name = files.lookup name := by
  induction kva generalizing files with
  | nil => rfl
  | cons kv kva ih =>
    rw [encodeLoop_cons, ih, AList.lookup_insert_ne]
    rintro rfl
    exact hname (mem_mapNames (Nat.mod_lt _ hn))

/-- A map task leaves its records, partitioned over its files, and touches no other file. -/
theorem mapWork_spec (app : App) {task : WorkerDetail} (hn : 0 < task.nReduce)
    (files : FinMap String File) :
    (∀ r < task.nReduce, (mapWork app task files).1.lookup (interName task.id r) =
      some ((partition task.nReduce r (app.mapFile task.fileName)).map some)) ∧
    ∀ name ∉ mapNames task, (mapWork app task files).1.lookup name = files.lookup name := by
  constructor
  · intro r hr
    have hempty : (createLoop task files).lookup (interName task.id r) = some [] := by
      rw [lookup_createLoop, if_pos (mem_mapNames hr)]
    exact lookup_encodeLoop _ hempty
  · intro name hname
    show (encodeLoop task _ (createLoop task files)).lookup name = _
    rw [lookup_encodeLoop_other hn _ _ hname, lookup_createLoop, if_neg hname]

/-! ## ReduceWork -/

/-- The loop of the decoder: it stops at the end of the file, or at what it cannot decode. -/
def decodeLoop : File → List KeyValue
  | some kv :: file => kv :: decodeLoop file
  | _ => []

/-- The loop over the files; `none` is the exit on a file that is not there. -/
def readLoop (files : FinMap String File) : List String → Option (List KeyValue)
  | [] => some []
  | filename :: filenames =>
    match files.lookup filename with
    | none => none
    | some file => (readLoop files filenames).map (decodeLoop file ++ ·)

/-- What a reduce task calls, and prints to its file. -/
structure Printed where
  calls : List (String × List String)
  lines : List String

def reduceWork (app : App) (task : WorkerDetail) (files : FinMap String File) :
    Option (String × Printed) :=
  (readLoop files task.fileNames).map fun intermediates =>
    let calls := callLoop (app.sortSlice.sort intermediates) 0
    (outName task.id, { calls := calls, lines := calls.map app.print })

/-- mrsequential.go, up to the name of its file. -/
def mrsequential (app : App) (filenames : List String) : Printed :=
  let intermediate := filenames.foldl (fun intermediate f => intermediate ++ app.mapFile f) []
  let calls := callLoop (app.sortSort.sort intermediate) 0
  { calls := calls, lines := calls.map app.print }

theorem decodeLoop_map (kva : List KeyValue) : decodeLoop (kva.map some) = kva := by
  induction kva with
  | nil => rfl
  | cons kv kva ih => exact congrArg (List.cons kv) ih

theorem print_callLoop (app : App) (kva : List KeyValue) :
    (callLoop kva 0).map app.print = app.reduceLoop kva := by
  rw [callLoop_eq, List.drop_zero, List.map_map]
  rfl

theorem lines_mrsequential (app : App) (filenames : List String) :
    (mrsequential app filenames).lines = app.sequential filenames := by
  have hall : ∀ acc, filenames.foldl (fun intermediate f => intermediate ++ app.mapFile f) acc =
      acc ++ filenames.flatMap app.mapFile := by
    induction filenames with
    | nil => simp
    | cons f filenames ih => simp [ih]
  show (callLoop _ 0).map app.print = _
  rw [hall, print_callLoop]
  rfl

/-! ## What the reduce function is called with -/

/-- The values that records have for a key. -/
def valuesOf (key : String) (kva : List KeyValue) : List String :=
  (kva.filter fun kv => kv.key = key).map KeyValue.value

/-- After any sort: one call for each key, in increasing order, with all its values. -/
theorem calls_spec (sorter : Sorter) (kva : List KeyValue) :
    ((callLoop (sorter.sort kva) 0).map Prod.fst).Pairwise (· < ·) ∧
    (∀ key, key ∈ (callLoop (sorter.sort kva) 0).map Prod.fst ↔ key ∈ kva.map KeyValue.key) ∧
    ∀ call ∈ callLoop (sorter.sort kva) 0, call.2.Perm (valuesOf call.1 kva) := by
  have hkeys : (callLoop (sorter.sort kva) 0).map Prod.fst =
      (runs KeyValue.key (sorter.sort kva)).map Prod.fst := by
    rw [callLoop_eq, List.drop_zero, List.map_map]
    rfl
  have hsorted := runs_sorted (sorter.sorted kva)
  refine ⟨hkeys ▸ hsorted, ?_, ?_⟩
  · intro key
    rw [hkeys, mem_keys_runs]
    exact ((sorter.perm kva).map _).mem_iff
  · intro call hcall
    rw [callLoop_eq, List.drop_zero] at hcall
    obtain ⟨p, hp, rfl⟩ := List.mem_map.mp hcall
    have hrun := run_eq_filter (hsorted.imp fun hlt => ne_of_lt hlt) hp
    show (p.2.map KeyValue.value).Perm _
    rw [hrun]
    exact ((sorter.perm kva).filter _).map _

/-- In the part of the records that its key belongs to, a key has all its values. -/
theorem valuesOf_partition (nReduce : Nat) (key : String) (kva : List KeyValue) :
    valuesOf key (partition nReduce (ihash key % nReduce) kva) = valuesOf key kva := by
  unfold valuesOf partition
  rw [List.filter_filter]
  congr 1
  apply List.filter_congr
  intro kv _
  by_cases hkey : kv.key = key
  · simp [hkey]
  · simp [hkey]

theorem mem_keys_partition {nReduce r : Nat} {key : String} {kva : List KeyValue} :
    key ∈ (partition nReduce r kva).map KeyValue.key ↔
      key ∈ kva.map KeyValue.key ∧ ihash key % nReduce = r := by
  simp only [partition, List.mem_map, List.mem_filter, decide_eq_true_eq]
  constructor
  · rintro ⟨kv, ⟨hmem, hr⟩, rfl⟩
    exact ⟨⟨kv, hmem, rfl⟩, hr⟩
  · rintro ⟨⟨kv, hmem, rfl⟩, hr⟩
    exact ⟨kv, ⟨hmem, hr⟩, rfl⟩

/-! ## All tasks -/

section All

variable (app : App) (files : List String) (nReduce : Nat)

/-- The map tasks `maps` run one after another. -/
def runMaps (maps : List Nat) (fs : FinMap String File) : FinMap String File :=
  maps.foldl (fun fs m => (mapWork app (mapTask nReduce (files.getD m "", m)) fs).1) fs

/-- The reduce tasks run one after another, each with its files; `none` is the exit of one of them. -/
def runReduces (fileNames : Nat → List String) (fs : FinMap String File) :
    List Nat → FinMap String Printed → Option (FinMap String Printed)
  | [], outs => some outs
  | r :: reduces, outs =>
    match reduceWork app { reduceTask nReduce r with fileNames := fileNames r } fs with
    | none => none
    | some (filename, printed) => runReduces fileNames fs reduces (outs.insert filename printed)

variable {app files nReduce}

/-- A file of a map task that was run has its records, whatever ran after it. -/
theorem lookup_runMaps (hn : 0 < nReduce) {maps : List Nat} (fs : FinMap String File) {m r : Nat}
    (hm : m ∈ maps) (hr : r < nReduce) :
    (runMaps app files nReduce maps fs).lookup (interName m r) =
      some ((partition nReduce r (recordsOf app files m)).map some) := by
  induction maps using List.reverseRecOn with
  | nil => simp at hm
  | append_singleton maps m' ih =>
    have hlast : runMaps app files nReduce (maps ++ [m']) fs =
        (mapWork app (mapTask nReduce (files.getD m' "", m')) (runMaps app files nReduce maps fs)).1 := by
      rw [runMaps, List.foldl_append]
      rfl
    have hn' : 0 < (mapTask nReduce (files.getD m' "", m')).nReduce := hn
    obtain ⟨hown, hother⟩ := mapWork_spec app hn' (runMaps app files nReduce maps fs)
    rw [hlast]
    by_cases hmm : m = m'
    · subst hmm
      exact hown r hr
    · rw [hother]
      · exact ih (by simpa [hmm] using hm)
      · intro hmem
        obtain ⟨r', -, heq⟩ := List.mem_map.mp hmem
        exact hmm (interName_inj heq).1.symm

theorem readLoop_map {fs : FinMap String File} {ms : List Nat} {r : Nat} {records : Nat → List KeyValue}
    (hstored : ∀ m ∈ ms, fs.lookup (interName m r) = some ((records m).map some)) :
    readLoop fs (ms.map fun m => interName m r) = some (ms.flatMap records) := by
  induction ms with
  | nil => rfl
  | cons m ms ih =>
    rw [List.map_cons, readLoop, hstored m List.mem_cons_self]
    dsimp only
    rw [ih fun m' hm' => hstored m' (List.mem_cons_of_mem _ hm'), decodeLoop_map]
    rfl

/-- A reduce task on all its files reads the records that belong to it. -/
theorem reduceWork_stored {fs : FinMap String File} {r : Nat} {fileNames : List String}
    (hstored : ∀ m < files.length, fs.lookup (interName m r) =
      some ((partition nReduce r (recordsOf app files m)).map some))
    (hnames : fileNames.Perm ((List.range files.length).map fun m => interName m r)) :
    ∃ intermediates, intermediates.Perm (inputOf app files nReduce r) ∧
      reduceWork app { reduceTask nReduce r with fileNames := fileNames } fs =
        some (outName r, ⟨callLoop (app.sortSlice.sort intermediates) 0,
          (callLoop (app.sortSlice.sort intermediates) 0).map app.print⟩) := by
  -- the names are those of the map tasks in some order
  have horder := congrFun (congrFun (List.eq_map_comp_perm fun m => interName m r) fileNames)
    (List.range files.length)
  obtain ⟨ms, rfl, hms⟩ := horder.mpr hnames
  refine ⟨_, hms.flatMap_right _, ?_⟩
  have hread := readLoop_map fun m hm => hstored m (List.mem_range.mp (hms.mem_iff.mp hm))
  show (readLoop fs (ms.map fun m => interName m r)).map _ = _
  rw [hread]
  rfl

/-- Each reduce task leaves its own file, and no other one is written. -/
theorem runReduces_spec {fileNames : Nat → List String} {fs : FinMap String File}
    {printed : Nat → Printed} {reduces : List Nat}
    (hwork : ∀ r ∈ reduces, reduceWork app { reduceTask nReduce r with fileNames := fileNames r } fs =
      some (outName r, printed r)) (outs : FinMap String Printed) :
    ∃ outs', runReduces app nReduce fileNames fs reduces outs = some outs' ∧
      (∀ r ∈ reduces, outs'.lookup (outName r) = some (printed r)) ∧
      ∀ name, (∀ r ∈ reduces, name ≠ outName r) → outs'.lookup name = outs.lookup name := by
  induction reduces generalizing outs with
  | nil => exact ⟨outs, rfl, by simp, fun _ _ => rfl⟩
  | cons r reduces ih =>
    obtain ⟨outs', hrun, hown, hother⟩ := ih (fun r' hr' => hwork r' (List.mem_cons_of_mem _ hr'))
      (outs.insert (outName r) (printed r))
    refine ⟨outs', ?_, ?_, ?_⟩
    · rw [runReduces, hwork r List.mem_cons_self]
      exact hrun
    · intro r' hr'
      by_cases hlater : r' ∈ reduces
      · exact hown r' hlater
      · obtain rfl : r' = r := by simpa [hlater] using hr'
        rw [hother, AList.lookup_insert]
        rintro r'' hr'' heq
        exact hlater (Job.Inv.outName_inj heq ▸ hr'')
    · intro name hname
      rw [hother name fun r' hr' => hname r' (List.mem_cons_of_mem _ hr'),
        AList.lookup_insert_ne (hname r List.mem_cons_self)]

end All

/-- What an output file has: a line for each call of the reduce function, sorted by key; a call for
each key that was emitted and belongs here; and with it all values that were emitted for the key. -/
structure Printed.Groups (app : App) (emitted : List KeyValue) (nReduce r : Nat) (printed : Printed) :
    Prop where
  lines : printed.lines =
    printed.calls.map fun call => call.1 ++ " " ++ app.reducef call.1 call.2 ++ "\n"
  sorted : (printed.calls.map Prod.fst).Pairwise (· < ·)
  keys : ∀ key, key ∈ printed.calls.map Prod.fst ↔
    key ∈ emitted.map KeyValue.key ∧ ihash key % nReduce = r
  values : ∀ call ∈ printed.calls, call.2.Perm (valuesOf call.1 emitted)

theorem groups_of_input {app : App} {emitted intermediates : List KeyValue} {nReduce r : Nat}
    (hinput : intermediates.Perm (partition nReduce r emitted)) :
    Printed.Groups app emitted nReduce r ⟨callLoop (app.sortSlice.sort intermediates) 0,
      (callLoop (app.sortSlice.sort intermediates) 0).map app.print⟩ := by
  obtain ⟨hsorted, hkeys, hvalues⟩ := calls_spec app.sortSlice intermediates
  have hkeys : ∀ key, key ∈ (callLoop (app.sortSlice.sort intermediates) 0).map Prod.fst ↔
      key ∈ emitted.map KeyValue.key ∧ ihash key % nReduce = r := by
    intro key
    rw [hkeys, (hinput.map _).mem_iff, mem_keys_partition]
  refine ⟨rfl, hsorted, hkeys, fun call hcall => ?_⟩
  obtain ⟨-, rfl⟩ := (hkeys call.1).mp (List.mem_map_of_mem hcall)
  rw [← valuesOf_partition nReduce call.1 emitted]
  exact (hvalues call hcall).trans ((hinput.filter _).map _)

/-- Every map task is run once, in any order, and then every reduce task, in any order and on the
files of the map tasks in any order. Then all of them return, each key that the map function emitted
for an input file has one line, in the file it belongs to and in no other, made of all its values;
each file is sorted by key, and no other file is written. If the reduce function does not look at the
order of the values, the lines of all files are together those of mrsequential. -/
theorem batch_sequential (app : App) (files : List String) {nReduce : Nat} (hn : 1 ≤ nReduce)
    (hreduce : ∀ key vs vs', vs.Perm vs' → app.reducef key vs = app.reducef key vs')
    {maps reduces : List Nat} (hmaps : maps.Perm (List.range files.length))
    (hreduces : reduces.Perm (List.range nReduce)) {fileNames : Nat → List String}
    (hnames : ∀ r < nReduce, (fileNames r).Perm
      ((List.range files.length).map fun m => "mr-" ++ toString m ++ "-" ++ toString r))
    (fs : FinMap String File) (outs : FinMap String Printed) :
    ∃ outs', runReduces app nReduce fileNames (runMaps app files nReduce maps fs) reduces outs =
        some outs' ∧
      (∀ r < nReduce, ∃ printed, outs'.lookup ("mr-out-" ++ toString r) = some printed ∧
        printed.Groups app (files.flatMap fun f => app.mapf f (app.content f)) nReduce r) ∧
      (∀ name, (∀ r < nReduce, name ≠ "mr-out-" ++ toString r) →
        outs'.lookup name = outs.lookup name) ∧
      ((List.range nReduce).flatMap fun r =>
        ((outs'.lookup ("mr-out-" ++ toString r)).map Printed.lines).getD []).Perm
          (mrsequential app files).lines := by
  have hmem : ∀ {r}, r ∈ reduces ↔ r < nReduce := by
    intro r
    rw [hreduces.mem_iff, List.mem_range]
  -- what each reduce task reads, as a function of the task
  have hworks : ∀ r, ∃ intermediates, r < nReduce →
      intermediates.Perm (inputOf app files nReduce r) ∧
      reduceWork app { reduceTask nReduce r with fileNames := fileNames r }
          (runMaps app files nReduce maps fs) =
        some (outName r, ⟨callLoop (app.sortSlice.sort intermediates) 0,
          (callLoop (app.sortSlice.sort intermediates) 0).map app.print⟩) := by
    intro r
    by_cases hr : r < nReduce
    · have hstored : ∀ m < files.length, (runMaps app files nReduce maps fs).lookup (interName m r) =
          some ((partition nReduce r (recordsOf app files m)).map some) := by
        intro m hm
        exact lookup_runMaps hn fs (hmaps.mem_iff.mpr (List.mem_range.mpr hm)) hr
      obtain ⟨intermediates, hwork⟩ := reduceWork_stored hstored (hnames r hr)
      exact ⟨intermediates, fun _ => hwork⟩
    · exact ⟨[], fun hr' => absurd hr' hr⟩
  choose intermediates hworks using hworks
  obtain ⟨outs', hrun, hown, hother⟩ :=
    runReduces_spec (fun r hr => (hworks r (hmem.mp hr)).2) outs
  refine ⟨outs', hrun, ?_, fun name hname => hother name fun r hr => hname r (hmem.mp hr), ?_⟩
  · intro r hr
    refine ⟨_, hown r (hmem.mpr hr), ?_⟩
    have hinput := (hworks r hr).1
    rw [inputOf_eq] at hinput
    exact groups_of_input hinput
  · rw [lines_mrsequential]
    refine lines_sequential hn hreduce ?_
    intro r hr
    have hr := List.mem_range.mp hr
    have hprinted : outs'.lookup ("mr-out-" ++ toString r) = _ := hown r (hmem.mpr hr)
    rw [hprinted, Option.map_some, Option.getD_some, print_callLoop]
    exact Job.Inv.reduceLoop_perm hreduce _ (hworks r hr).1

/-- The words of two files are counted. -/
def wordCount : App where
  mapf := fun _ content => (content.toList.splitOn ' ').map fun word => ⟨String.ofList word, "1"⟩
  reducef := fun _ vs => toString vs.length
  content := fun filename => if filename = "x" then "b a b" else "c a"
  sortSlice := byKey
  sortSort := byKey

/-- Two files and two reduce tasks, all in another order than they are numbered. -/
theorem batch_sequential_backwards :
    ∃ outs, runReduces wordCount 2 (fun r => [interName 1 r, interName 0 r])
        (runMaps wordCount ["x", "y"] 2 [1, 0] ∅) [1, 0] ∅ = some outs ∧
      (outs.lookup "mr-out-0").map Printed.lines = some ["a 2\n", "c 1\n"] ∧
      (outs.lookup "mr-out-1").map Printed.lines = some ["b 2\n"] ∧
      (mrsequential wordCount ["x", "y"]).lines = ["a 2\n", "b 2\n", "c 1\n"] ∧
      ((List.range 2).flatMap fun r =>
        ((outs.lookup ("mr-out-" ++ toString r)).map Printed.lines).getD []).Perm
          ["a 2\n", "b 2\n", "c 1\n"] := by
  have hreduce : ∀ key vs vs', vs.Perm vs' → wordCount.reducef key vs = wordCount.reducef key vs' :=
    fun _ _ _ hperm => congrArg toString hperm.length_eq
  have hnames : ∀ r < 2, [interName 1 r, interName 0 r].Perm
      ((List.range ["x", "y"].length).map fun m => "mr-" ++ toString m ++ "-" ++ toString r) :=
    fun r _ => List.Perm.swap _ _ []
  obtain ⟨outs, hrun, -, -, hlines⟩ := batch_sequential wordCount ["x", "y"] (by decide : 1 ≤ 2)
    hreduce (by decide : [1, 0].Perm (List.range ["x", "y"].length))
    (by decide : [1, 0].Perm (List.range 2)) hnames ∅ ∅
  have hfirst : ((runReduces wordCount 2 (fun r => [interName 1 r, interName 0 r])
      (runMaps wordCount ["x", "y"] 2 [1, 0] ∅) [1, 0] ∅).bind (AList.lookup "mr-out-0")).map
        Printed.lines = some ["a 2\n", "c 1\n"] := by decide +kernel
  have hsecond : ((runReduces wordCount 2 (fun r => [interName 1 r, interName 0 r])
      (runMaps wordCount ["x", "y"] 2 [1, 0] ∅) [1, 0] ∅).bind (AList.lookup "mr-out-1")).map
        Printed.lines = some ["b 2\n"] := by decide +kernel
  have hsequential : (mrsequential wordCount ["x", "y"]).lines = ["a 2\n", "b 2\n", "c 1\n"] := by
    decide +kernel
  rw [hrun] at hfirst hsecond
  rw [hsequential] at hlines
  exact ⟨outs, hrun, hfirst, hsecond, hsequential, hlines⟩

/-! ## The steps of a worker

A worker that nobody interrupts does what the functions compute. -/

namespace Job

/-- Steps of one worker, with no other step in between. -/
def Works (app : App) (w : Nat) : Job → Job → Prop :=
  Relation.ReflTransGen fun j j' => j.work app w = some j'

variable {app : App} {j : Job} {w : Nat} {task : WorkerDetail}

/-- A worker at a point of its loop, with the files as they are then. -/
def at_ (j : Job) (w : Nat) (files : FinMap String File) (phase : Phase) : Job :=
  { j with files := files }.setWorker w phase

theorem workers_at (files : FinMap String File) (phase : Phase) :
    (j.at_ w files phase).workers w = phase :=
  Function.update_self _ _ _

/-- One step from there to the next point. -/
theorem work_at {files files' : FinMap String File} {phase phase' : Phase}
    (h : (j.at_ w files phase).work app w =
      some ({ j.at_ w files phase with files := files' }.setWorker w phase')) :
    (j.at_ w files phase).work app w = some (j.at_ w files' phase') := by
  rw [h]
  unfold at_ setWorker
  rw [Function.update_idem]

theorem works_createLoop (files : FinMap String File) {i : Nat} (hi : i ≤ task.nReduce) :
    Works app w (j.at_ w files (.creating task 0))
      (j.at_ w ((List.range i).foldl (fun files i => files.insert (interName task.id i) []) files)
        (.creating task i)) := by
  induction i with
  | zero => exact .refl
  | succ i ih =>
    refine (ih (by omega)).tail ?_
    apply work_at
    rw [work, workers_at]
    dsimp only
    rw [if_pos (by omega), List.range_succ, List.foldl_append]
    rfl

/-- Each file is as long as the records that were written to it, so the next one goes to its end. -/
theorem works_encodeLoop (hn : 0 < task.nReduce) (files : FinMap String File)
    (written left : List KeyValue)
    (hfiles : ∀ r < task.nReduce, files.lookup (interName task.id r) =
      some ((partition task.nReduce r written).map some)) :
    Works app w (j.at_ w files (.encoding task written left))
      (j.at_ w (encodeLoop task left files) (.encoding task (written ++ left) [])) := by
  induction left generalizing files written with
  | nil =>
    rw [List.append_nil]
    exact .refl
  | cons kv left ih =>
    have hlast : ∀ r < task.nReduce, (files.insert (interName task.id (ihash kv.key % task.nReduce))
        ((files.lookup (interName task.id (ihash kv.key % task.nReduce))).getD [] ++ [some kv])).lookup
          (interName task.id r) = some ((partition task.nReduce r (written ++ [kv])).map some) := by
      intro r hr
      have hone := lookup_encodeLoop [kv] (hfiles r hr)
      rw [← List.map_append, partition, partition, ← List.filter_append] at hone
      exact hone
    have hrest := ih _ (written ++ [kv]) hlast
    rw [List.append_assoc, List.singleton_append] at hrest
    refine Relation.ReflTransGen.head ?_ hrest
    apply work_at
    have hend : ((files.lookup (interName task.id (ihash kv.key % task.nReduce))).getD []).write
        (partition task.nReduce (ihash kv.key % task.nReduce) written).length kv =
          (files.lookup (interName task.id (ihash kv.key % task.nReduce))).getD [] ++ [some kv] := by
      rw [hfiles _ (Nat.mod_lt _ hn)]
      simp [File.write]
    rw [work, workers_at, ← hend]
    rfl

/-- A map task from its first file to its report. -/
theorem work_mapWork (hn : 0 < task.nReduce) (files : FinMap String File) :
    Works app w (j.at_ w files (.creating task 0))
      (j.at_ w (mapWork app task files).1 (.reporting ⟨task, (mapWork app task files).2⟩)) := by
  have hcreate : Works app w (j.at_ w files (.creating task 0))
      (j.at_ w (createLoop task files) (.encoding task [] (app.mapFile task.fileName))) := by
    refine (works_createLoop files le_rfl).tail ?_
    apply work_at
    rw [work, workers_at]
    dsimp only
    rw [if_neg (Nat.lt_irrefl _)]
    rfl
  have hempty : ∀ r < task.nReduce, (createLoop task files).lookup (interName task.id r) =
      some ((partition task.nReduce r []).map some) := by
    intro r hr
    rw [lookup_createLoop, if_pos (mem_mapNames hr)]
    rfl
  refine (hcreate.trans (works_encodeLoop hn _ [] _ hempty)).tail ?_
  apply work_at
  rw [work, workers_at]
  rfl

section Reading

variable {files : FinMap String File} {filename : String} {file : File} {filenames : List String}
  {pos : Nat} {intermediates : List KeyValue}

theorem work_record (hfile : files.lookup filename = some file) {kv : KeyValue}
    (hrecord : file[pos]? = some (some kv)) :
    (j.at_ w files (.reading task (filename :: filenames) pos intermediates)).work app w =
      some (j.at_ w files (.reading task (filename :: filenames) (pos + 1)
        (intermediates ++ [kv]))) := by
  apply work_at
  have hlook : (j.at_ w files (.reading task (filename :: filenames) pos intermediates)).files.lookup
      filename = some file := hfile
  rw [work, workers_at]
  dsimp only
  rw [hlook]
  dsimp only
  rw [hrecord]
  rfl

/-- At the end of a file, or at a hole, the worker turns to the next file. -/
theorem work_nextFile (hfile : files.lookup filename = some file)
    (hrecord : ∀ kv, file[pos]? ≠ some (some kv)) :
    (j.at_ w files (.reading task (filename :: filenames) pos intermediates)).work app w =
      some (j.at_ w files (.reading task filenames 0 intermediates)) := by
  apply work_at
  have hlook : (j.at_ w files (.reading task (filename :: filenames) pos intermediates)).files.lookup
      filename = some file := hfile
  rw [work, workers_at]
  dsimp only
  rw [hlook]
  dsimp only
  split
  · rename_i kv hkv
    exact absurd hkv (hrecord kv)
  · rfl

/-- The loop of the decoder over the rest of a file. -/
theorem works_decodeLoop (hfile : files.lookup filename = some file) :
    Works app w (j.at_ w files (.reading task (filename :: filenames) pos intermediates))
      (j.at_ w files (.reading task filenames 0 (intermediates ++ decodeLoop (file.drop pos)))) := by
  generalize hrest : file.drop pos = rest
  induction rest generalizing pos intermediates with
  | nil =>
    have hnext : file[pos]? = none := by rw [← List.head?_drop, hrest, List.head?_nil]
    rw [decodeLoop, List.append_nil]
    · exact .single (work_nextFile hfile (by simp [hnext]))
    · simp
  | cons record rest ih =>
    have hnext : file[pos]? = some record := by rw [← List.head?_drop, hrest, List.head?_cons]
    cases record with
    | none =>
      rw [decodeLoop, List.append_nil]
      · exact .single (work_nextFile hfile (by simp [hnext]))
      · simp
    | some kv =>
      have hdrop : file.drop (pos + 1) = rest := by rw [← List.drop_drop, hrest]; rfl
      have hgoes : Works app w (j.at_ w files (.reading task (filename :: filenames) (pos + 1)
          (intermediates ++ [kv]))) _ := ih hdrop
      rw [List.append_assoc, List.singleton_append] at hgoes
      exact .head (work_record hfile hnext) hgoes

end Reading

theorem works_readLoop {files : FinMap String File} {filenames : List String}
    {records : List KeyValue} (hread : readLoop files filenames = some records)
    (intermediates : List KeyValue) :
    Works app w (j.at_ w files (.reading task filenames 0 intermediates))
      (j.at_ w files (.reading task [] 0 (intermediates ++ records))) := by
  induction filenames generalizing intermediates records with
  | nil =>
    obtain rfl : [] = records := Option.some.inj hread
    rw [List.append_nil]
    exact .refl
  | cons filename filenames ih =>
    rw [readLoop] at hread
    cases hfile : files.lookup filename with
    | none => simp [hfile] at hread
    | some file =>
      rw [hfile] at hread
      obtain ⟨rest, hrest, rfl⟩ := Option.map_eq_some_iff.mp hread
      have hdecode : Works app w
          (j.at_ w files (.reading task (filename :: filenames) 0 intermediates)) _ :=
        works_decodeLoop hfile
      rw [← List.append_assoc]
      exact hdecode.trans (ih hrest _)

/-- A reduce task from its first file to its report. -/
theorem work_reduceWork {files : FinMap String File} {filename : String} {printed : Printed}
    (hwork : reduceWork app task files = some (filename, printed)) :
    Works app w (j.at_ w files (.reading task task.fileNames 0 []))
      ({ j with outs := j.outs.insert filename printed.lines }.at_ w files (.reporting ⟨task, []⟩)) := by
  obtain ⟨records, hread, heq⟩ := Option.map_eq_some_iff.mp hwork
  obtain ⟨rfl, rfl⟩ := Prod.mk.inj heq
  refine (works_readLoop hread []).tail ?_
  rw [work, workers_at]
  dsimp only
  rw [print_callLoop]
  unfold at_ setWorker
  rw [Function.update_idem]
  rfl

end Job

end DistSys.Mr
