import DistSys.Lib.FinMap
import Mathlib.Algebra.Ring.Int.Defs
import Mathlib.Algebra.Ring.Nat
import Mathlib.Data.List.Perm.Basic

/- The coordinator of the map/reduce job: mr/common.go, mr/rpc.go and mr/coordinator.go,
   in the order of the sources.

   A task is in its list under its id, and a channel holds pointers into the list,
   which are ids here. A send to a full channel blocks for good, since the sender holds
   the lock or the coordinator is not up yet: it is `none`, as is a panic. `GetTask` starts
   a goroutine for `CheckFinished`, which is the second thing it returns. The lock, the
   RPC server and the fields no function reads are left out. -/
namespace DistSys.Mr

open Lib

/-! ## Tasks -/

inductive WorkerStatus where
  | idle
  | inProcess
  | completed
  | error
  deriving DecidableEq

inductive WorkerType where
  | none
  | map
  | reduce
  deriving DecidableEq

structure WorkerDetail where
  id : Nat
  status : WorkerStatus
  type : WorkerType
  fileName : String
  fileNames : List String
  nReduce : Nat
  deriving DecidableEq

namespace WorkerDetail

/-- The value of a variable that is not set. -/
def zero : WorkerDetail :=
  { id := 0, status := .idle, type := .none, fileName := "", fileNames := [], nReduce := 0 }

def isCompleted (wd : WorkerDetail) : Bool := wd.status = .completed

def isInProcess (wd : WorkerDetail) : Bool := wd.status = .inProcess

def changeStatusToCompleted (wd : WorkerDetail) : WorkerDetail := { wd with status := .completed }

def changeStatusToIdle (wd : WorkerDetail) : WorkerDetail := { wd with status := .idle }

def changeStatusToInProcess (wd : WorkerDetail) : WorkerDetail := { wd with status := .inProcess }

end WorkerDetail

/-! ## RPC definitions -/

structure Args where
  task : WorkerDetail
  intermidiateFiles : List String
  deriving DecidableEq

structure Reply where
  task : WorkerDetail
  isFinished : Bool
  deriving DecidableEq

/-! ## File names -/

/-- The value of decimal digits; 0 for what is not a numeral. -/
def numeral (digits : List Char) : Nat :=
  if digits ≠ [] ∧ digits.all Char.isDigit then Nat.ofDigitChars 10 digits 0 else 0

/-- The number that `strconv.Atoi` returns, with or without an error: a numeral may have a sign, what
is not one gives 0, and what is out of the range of an `int` gives the nearest `int`. -/
def atoi (s : String) : Int :=
  match s.toList with
  | '-' :: digits => max (-(numeral digits)) (-2 ^ 63)
  | '+' :: digits => min (numeral digits) (2 ^ 63 - 1)
  | digits => min (numeral digits) (2 ^ 63 - 1)

/-- `strings.Split(s, "-")`. -/
def split (s : String) : List String := (s.toList.splitOn '-').map String.ofList

/-- The name of the file a map task writes for a reduce task. -/
def interName (mapId reduceId : Nat) : String := "mr-" ++ toString mapId ++ "-" ++ toString reduceId

/-- The names that `MapWork` returns. -/
def mapNames (task : WorkerDetail) : List String := (List.range task.nReduce).map (interName task.id)

/-! ## The coordinator -/

/-- A buffered channel. -/
structure Chan where
  queue : List Nat
  cap : Nat

def Chan.send (ch : Chan) (id : Nat) : Option Chan :=
  if ch.queue.length < ch.cap then some { ch with queue := ch.queue ++ [id] } else none

structure Coordinator where
  mapsTaskList : FinMap Nat WorkerDetail
  reduceTaskList : FinMap Nat WorkerDetail
  reduceChan : Chan
  mapChan : Chan
  isAllMapWorkerFinished : Bool
  interFiles : FinMap Int (List String)

/-- The loops over a task list. -/
def allCompleted (tasks : FinMap Nat WorkerDetail) : Bool :=
  tasks.entries.all fun e => e.2.isCompleted

/-- The task a pointer is to. -/
def deref (tasks : FinMap Nat WorkerDetail) (id : Nat) : WorkerDetail :=
  (tasks.lookup id).getD WorkerDetail.zero

/-- A call of `CheckFinished` that sleeps. -/
abbrev Check := Nat × WorkerType

namespace Coordinator

/-- The list for tasks of a type: the two branches that many functions start with. -/
def tasks (c : Coordinator) (type : WorkerType) : FinMap Nat WorkerDetail :=
  if type = .map then c.mapsTaskList else c.reduceTaskList

def chan (c : Coordinator) (type : WorkerType) : Chan :=
  if type = .map then c.mapChan else c.reduceChan

/-- A change to a task, through a pointer into the list. -/
def setTask (c : Coordinator) (type : WorkerType) (id : Nat) (task : WorkerDetail) : Coordinator :=
  if type = .map then { c with mapsTaskList := c.mapsTaskList.insert id task }
  else { c with reduceTaskList := c.reduceTaskList.insert id task }

def setChan (c : Coordinator) (type : WorkerType) (ch : Chan) : Coordinator :=
  if type = .map then { c with mapChan := ch } else { c with reduceChan := ch }

def allTasksDone (c : Coordinator) : Bool :=
  allCompleted c.mapsTaskList && allCompleted c.reduceTaskList

def getTask (c : Coordinator) : Coordinator × List Check × Reply :=
  if c.allTasksDone then (c, [], { task := .zero, isFinished := true })
  else if !c.isAllMapWorkerFinished then
    match c.mapChan.queue with
    | id :: queue =>
      let task := (deref c.mapsTaskList id).changeStatusToInProcess
      ((c.setChan .map { c.mapChan with queue := queue }).setTask .map id task,
        [(task.id, task.type)], { task := task, isFinished := false })
    | [] => (c, [], { task := .zero, isFinished := false })
  else
    match c.reduceChan.queue with
    | id :: queue =>
      let task := (deref c.reduceTaskList id).changeStatusToInProcess
      let task := { task with fileNames := (c.interFiles.lookup (task.id : Int)).getD [] }
      ((c.setChan .reduce { c.reduceChan with queue := queue }).setTask .reduce id task,
        [(task.id, task.type)], { task := task, isFinished := false })
    | [] => (c, [], { task := .zero, isFinished := false })

/-- The body of the loop over the file names of a report. -/
def addInterFile (interFiles : FinMap Int (List String)) (filename : String) :
    Option (FinMap Int (List String)) :=
  ((split filename)[2]?).map fun part =>
    interFiles.insert (atoi part) ((interFiles.lookup (atoi part)).getD [] ++ [filename])

def finishedTask (c : Coordinator) (args : Args) : Option Coordinator :=
  ((c.tasks args.task.type).lookup args.task.id).bind fun task =>
    if task.isInProcess then
      let c := c.setTask args.task.type args.task.id task.changeStatusToCompleted
      if task.type = .map then
        (args.intermidiateFiles.foldlM addInterFile c.interFiles).map fun interFiles =>
          { c with interFiles := interFiles }
      else some c
    else some c

def checkFinished (c : Coordinator) (taskId : Nat) (taskType : WorkerType) : Option Coordinator :=
  ((c.tasks taskType).lookup taskId).bind fun t =>
    if t.isCompleted then some c
    else ((c.chan taskType).send taskId).map fun ch =>
      (c.setTask taskType taskId t.changeStatusToIdle).setChan taskType ch

def done (c : Coordinator) : Coordinator × Bool :=
  let mapAllFinished := allCompleted c.mapsTaskList
  let c := { c with isAllMapWorkerFinished := mapAllFinished }
  (c, mapAllFinished && allCompleted c.reduceTaskList)

/-- The body of the two loops that make the tasks. -/
def addTask (c : Coordinator) (t : WorkerDetail) : Option Coordinator :=
  ((c.chan t.type).send t.id).map fun ch => (c.setTask t.type t.id t).setChan t.type ch

end Coordinator

def mapTask (nReduce : Nat) (file : String × Nat) : WorkerDetail :=
  { WorkerDetail.zero with id := file.2, type := .map, fileName := file.1, nReduce := nReduce }

def reduceTask (nReduce : Nat) (i : Nat) : WorkerDetail :=
  { WorkerDetail.zero with id := i, type := .reduce, nReduce := nReduce }

/-- `nReduce` is an `int`. The map channel has room for 10000 tasks; with more input files this does
not return. -/
def makeCoordinator (files : List String) (nReduce : Nat) : Option Coordinator :=
  let c : Coordinator :=
    { mapsTaskList := ∅, reduceTaskList := ∅
      mapChan := { queue := [], cap := 10000 }, reduceChan := { queue := [], cap := nReduce }
      isAllMapWorkerFinished := false, interFiles := ∅ }
  if nReduce < 2 ^ 63 then
    ((files.zipIdx.map (mapTask nReduce)).foldlM Coordinator.addTask c).bind fun c =>
      ((List.range nReduce).map (reduceTask nReduce)).foldlM Coordinator.addTask c
  else none

/-! ## Names and numerals -/

theorem toList_toString (n : Nat) : (toString n).toList = Nat.toDigits 10 n := by
  rw [Nat.toString_eq_repr, Nat.toList_repr]

theorem isDigit_toString {n : Nat} {ch : Char} (h : ch ∈ (toString n).toList) : ch.isDigit := by
  rw [toList_toString] at h
  exact Nat.isDigit_of_mem_toDigits (by decide) (by decide) h

theorem numeral_toString (n : Nat) : numeral (toString n).toList = n := by
  have hdigits : (toString n).toList.all Char.isDigit = true :=
    List.all_eq_true.mpr fun ch hch => isDigit_toString hch
  have hne : (toString n).toList ≠ [] := by
    rw [toList_toString]
    exact Nat.toDigits_ne_nil
  rw [numeral, if_pos ⟨hne, hdigits⟩, toList_toString]
  simp

/-- A number in the range of an `int` is read back. -/
theorem atoi_toString {n : Nat} (h : n < 2 ^ 63) : atoi (toString n) = n := by
  have hno : ∀ digits : List Char, ∀ ch ∈ ['-', '+'], (toString n).toList ≠ ch :: digits := by
    intro digits ch hch heq
    have hdigit : ch.isDigit := isDigit_toString (n := n) (by rw [heq]; exact List.mem_cons_self)
    simp only [List.mem_cons, List.not_mem_nil, or_false] at hch
    rcases hch with rfl | rfl <;> contradiction
  unfold atoi
  split
  · rename_i digits heq
    exact absurd heq (hno digits '-' (by simp))
  · rename_i digits heq
    exact absurd heq (hno digits '+' (by simp))
  · rw [numeral_toString]
    omega

theorem split_interName (m r : Nat) : split (interName m r) = ["mr", toString m, toString r] := by
  have hparts : (interName m r).toList =
      ['-'].intercalate [['m', 'r'], (toString m).toList, (toString r).toList] := by
    simp [interName, List.intercalate, List.intersperse]
  have hno : ∀ n : Nat, '-' ∉ (toString n).toList := by
    intro n hmem
    have hdigit := isDigit_toString hmem
    contradiction
  have hall : ∀ l ∈ [['m', 'r'], (toString m).toList, (toString r).toList], '-' ∉ l := by
    intro l hl
    simp only [List.mem_cons, List.not_mem_nil, or_false] at hl
    rcases hl with rfl | rfl | rfl
    · decide
    · exact hno m
    · exact hno r
  rw [split, hparts, List.splitOn_intercalate _ hall (by simp)]
  simp only [List.map_cons, List.map_nil, String.ofList_toList]

theorem toString_inj {m n : Nat} (h : toString m = toString n) : m = n := by
  rw [← numeral_toString m, h, numeral_toString]

theorem interName_inj {m m' r r' : Nat} (h : interName m r = interName m' r') :
    m = m' ∧ r = r' := by
  have hsplit := congrArg split h
  rw [split_interName, split_interName] at hsplit
  simp only [List.cons.injEq, true_and, and_true] at hsplit
  exact ⟨toString_inj hsplit.1, toString_inj hsplit.2⟩

theorem addInterFile_interName (interFiles : FinMap Int (List String)) (m : Nat) {r : Nat}
    (hr : r < 2 ^ 63) : Coordinator.addInterFile interFiles (interName m r) =
      some (interFiles.insert (r : Int) ((interFiles.lookup (r : Int)).getD [] ++ [interName m r])) := by
  rw [Coordinator.addInterFile, split_interName]
  simp only [List.getElem?_cons_succ, List.getElem?_cons_zero, Option.map_some]
  rw [atoi_toString hr]

end DistSys.Mr
