import DistSys.Lib.Grouping
import DistSys.Mr.Tasks
import Mathlib.Data.String.Basic

/- The workers and their files: mr/worker.go, and main/mrsequential.go.

   A worker is at a point of its loop (`Phase`), and one step of it is one of: an
   `os.Create`, an encoded record, a decoded record, the output with its rename, or a
   call of the coordinator. An intermediate file is written in place. It is a list of
   records by position, since two runs of one map task write the same records in the same
   order and so at the same offsets; what lies before the offset of a writer whose file
   was truncated by another one is a hole, at which a decoder stops.

   JSON is taken to give back the records written, and a rename to be atomic. The input
   files are there and are not written. `sort.Slice` and `sort.Sort` may leave records with equal
   keys in any order. -/
namespace DistSys.Mr

open Lib

structure KeyValue where
  key : String
  value : String
  deriving DecidableEq

/-- FNV-1a over the bytes of the key, without the top bit. -/
def ihash (key : String) : Nat :=
  let sum32 := key.toUTF8.data.toList.foldl (fun h b => (h ^^^ b.toUInt32) * 16777619)
    (2166136261 : UInt32)
  (sum32 &&& 0x7fffffff).toNat

/-- The records that go to a reduce task. -/
def partition (nReduce reduceId : Nat) (kva : List KeyValue) : List KeyValue :=
  kva.filter fun kv => ihash kv.key % nReduce = reduceId

/-- A way to sort by key. -/
structure Sorter where
  sort : List KeyValue → List KeyValue
  perm : ∀ kva, (sort kva).Perm kva
  sorted : ∀ kva, (sort kva).Pairwise fun a b => a.key ≤ b.key

/-- The two functions of an application, its input, and the sorts of the standard library. -/
structure App where
  mapf : String → String → List KeyValue
  reducef : String → List String → String
  content : String → String
  sortSlice : Sorter
  sortSort : Sorter

namespace App

/-- One line of output. -/
def line (app : App) (key : String) (kvs : List KeyValue) : String :=
  key ++ " " ++ app.reducef key (kvs.map KeyValue.value) ++ "\n"

/-- The loop over the sorted records: a line for each run of equal keys. -/
def reduceLoop (app : App) (intermediates : List KeyValue) : List String :=
  (runs KeyValue.key intermediates).map fun p => app.line p.1 p.2

/-- What the map function makes of a file. -/
def mapFile (app : App) (filename : String) : List KeyValue :=
  app.mapf filename (app.content filename)

/-- The lines that mrsequential writes to its output. -/
def sequential (app : App) (filenames : List String) : List String :=
  app.reduceLoop (app.sortSort.sort (filenames.flatMap app.mapFile))

end App

/-! ## Files -/

/-- An intermediate file: a record at each position, or a hole. -/
abbrev File := List (Option KeyValue)

/-- A record is written at a position. -/
def File.write (file : File) (pos : Nat) (kv : KeyValue) : File :=
  if pos < file.length then file.set pos (some kv)
  else file ++ List.replicate (pos - file.length) none ++ [some kv]

def outName (reduceId : Nat) : String := "mr-out-" ++ toString reduceId

/-! ## One worker -/

/-- Where a worker is in its loop. -/
inductive Phase where
  /-- about to ask for a task -/
  | idle
  /-- in `MapWork`, about to create the file for reduce task `i` -/
  | creating (task : WorkerDetail) (i : Nat)
  /-- in `MapWork`, with the records that are written and those that are left -/
  | encoding (task : WorkerDetail) (written left : List KeyValue)
  /-- in `ReduceWork`, at a position of the first of the files that are left -/
  | reading (task : WorkerDetail) (filenames : List String) (pos : Nat)
      (intermediates : List KeyValue)
  /-- about to report a task -/
  | reporting (args : Args)
  /-- returned or crashed -/
  | exited

structure Job where
  tasks : Tasks
  files : FinMap String File
  outs : FinMap String (List String)
  workers : Nat → Phase

namespace Job

def setWorker (j : Job) (w : Nat) (phase : Phase) : Job :=
  { j with workers := Function.update j.workers w phase }

/-- A worker asks for a task and turns to it. -/
def getTask (j : Job) (w : Nat) : Option Job :=
  match j.workers w with
  | .idle =>
    (j.tasks.step .getTask).map fun tasks =>
      let reply := j.tasks.coordinator.getTask.2.2
      let j := { j with tasks := tasks }
      if reply.isFinished then j.setWorker w .exited
      else match reply.task.type with
        | .map => j.setWorker w (.creating reply.task 0)
        | .reduce => j.setWorker w (.reading reply.task reply.task.fileNames 0 [])
        | .none => j
  | _ => none

/-- The next step of a worker that has a task. -/
def work (app : App) (j : Job) (w : Nat) : Option Job :=
  match j.workers w with
  | .creating task i =>
    if i < task.nReduce then
      some ({ j with files := j.files.insert (interName task.id i) [] }.setWorker w
        (.creating task (i + 1)))
    else some (j.setWorker w (.encoding task [] (app.mapFile task.fileName)))
  | .encoding task written (kv :: left) =>
    let i := ihash kv.key % task.nReduce
    let name := interName task.id i
    let pos := (partition task.nReduce i written).length
    some ({ j with files := j.files.insert name (((j.files.lookup name).getD []).write pos kv)
      }.setWorker w (.encoding task (written ++ [kv]) left))
  | .encoding task _ [] => some (j.setWorker w (.reporting ⟨task, mapNames task⟩))
  | .reading task (filename :: filenames) pos intermediates =>
    match j.files.lookup filename with
    | none => some (j.setWorker w .exited)
    | some file =>
      match file[pos]? with
      | some (some kv) =>
        some (j.setWorker w (.reading task (filename :: filenames) (pos + 1)
          (intermediates ++ [kv])))
      | _ => some (j.setWorker w (.reading task filenames 0 intermediates))
  | .reading task [] _ intermediates =>
    let lines := app.reduceLoop (app.sortSlice.sort intermediates)
    some ({ j with outs := j.outs.insert (outName task.id) lines }.setWorker w
      (.reporting ⟨task, []⟩))
  | .reporting args =>
    (j.tasks.coordinator.finishedTask args).map fun c =>
      { j with tasks := { j.tasks with coordinator := c } }.setWorker w .idle
  | .idle => none
  | .exited => none

inductive Action where
  | getTask (w : Nat)
  | work (w : Nat)
  | crash (w : Nat)
  | checkFinished (i : Nat)
  | done

def step (app : App) (j : Job) : Action → Option Job
  | .getTask w => j.getTask w
  | .work w => j.work app w
  | .crash w => some (j.setWorker w .exited)
  | .checkFinished i => (j.tasks.step (.checkFinished i)).map fun tasks => { j with tasks := tasks }
  | .done => (j.tasks.step .done).map fun tasks => { j with tasks := tasks }

/-- The runs of a job. -/
def lts (app : App) (files : List String) (nReduce : Nat) : Lts Job Action where
  init j := ∃ c, makeCoordinator files nReduce = some c ∧ j = ⟨⟨c, [], []⟩, ∅, ∅, fun _ => .idle⟩
  step j a j' := j.step app a = some j'

/-- The lines of all output files. -/
def output (j : Job) (nReduce : Nat) : List String :=
  (List.range nReduce).flatMap fun r => (j.outs.lookup (outName r)).getD []

end Job

end DistSys.Mr
