import DistSys.Lib.FinMap
import Mathlib.Data.List.Induction
import Mathlib.Data.List.Sort
import Mathlib.Data.String.Basic

/- What the linearizability checker tests a history against: `KvModel` of models1/kv.go.

   An operation is its input and output; its times and its client are for the search
   that the checker makes for an order, which is not part of the model. The state
   "<invalid>" that `Step` gives together with `false` is `none`: no step is taken from it.
   `DescribeOperation` is left out. -/
namespace DistSys.Models1

open Lib

structure KvInput where
  op : UInt8
  key : String
  value : String
  version : UInt64
  deriving DecidableEq

structure KvOutput where
  value : String
  version : UInt64
  err : String
  deriving DecidableEq

structure KvState where
  value : String
  version : UInt64
  deriving DecidableEq

structure Operation where
  input : KvInput
  output : KvOutput
  deriving DecidableEq

namespace KvModel

/-- The map from a key to its operations, in their order. -/
def byKey (history : List Operation) : FinMap String (List Operation) :=
  history.foldl
    (fun m v => m.insert v.input.key ((m.lookup v.input.key).getD [] ++ [v])) ∅

def partition (history : List Operation) : List (List Operation) :=
  let m := byKey history
  (m.keys.insertionSort (· ≤ ·)).map fun k => (m.lookup k).getD []

def init : KvState := { value := "", version := 0 }

def step (st : KvState) (inp : KvInput) (out : KvOutput) : Bool × Option KvState :=
  match inp.op with
  | 0 => (out.value == st.value, some st)
  | 1 =>
    if st.version = inp.version then
      (out.err == "OK" || out.err == "ErrMaybe", some { value := inp.value, version := st.version + 1 })
    else (out.err == "ErrVersion" || out.err == "ErrMaybe", some st)
  | _ => (false, none)

/-- Where the operations lead if `Step` accepts them one after another. -/
def run : KvState → List Operation → Option KvState
  | st, [] => some st
  | st, v :: history =>
    match step st v.input v.output with
    | (true, some st') => run st' history
    | _ => none

/-- One more operation. -/
theorem run_snoc {st st' st'' : KvState} {history : List Operation} {v : Operation}
    (h : run st history = some st') (hstep : step st' v.input v.output = (true, some st'')) :
    run st (history ++ [v]) = some st'' := by
  induction history generalizing st with
  | nil =>
    obtain rfl : st = st' := Option.some.inj h
    simp only [List.nil_append, run, hstep]
  | cons w history ih =>
    simp only [List.cons_append, run] at h ⊢
    split at h
    · exact ih h
    · contradiction

/-! ## The parts of a history -/

/-- The operations on a key. -/
def onKey (key : String) (history : List Operation) : List Operation :=
  history.filter fun v => v.input.key = key

theorem lookup_byKey (history : List Operation) (key : String) :
    (byKey history).lookup key =
      if onKey key history = [] then none else some (onKey key history) := by
  -- the loop appends at the end, so the induction is on the last operation
  induction history using List.reverseRecOn with
  | nil => simp [byKey, onKey]
  | append_singleton history v ih =>
    have hloop : byKey (history ++ [v]) = (byKey history).insert v.input.key
        (((byKey history).lookup v.input.key).getD [] ++ [v]) := by
      simp only [byKey, List.foldl_append, List.foldl_cons, List.foldl_nil]
    have hpart : onKey key (history ++ [v]) =
        onKey key history ++ if v.input.key = key then [v] else [] := by
      by_cases hkey : v.input.key = key <;> simp [onKey, hkey]
    rw [hloop, hpart, FinMap.lookup_insert_ite]
    by_cases hkey : v.input.key = key
    · subst hkey
      rw [if_pos rfl, if_pos rfl, ih]
      by_cases hnil : onKey v.input.key history = [] <;> simp [hnil]
    · rw [if_neg (Ne.symm hkey), if_neg hkey, List.append_nil, ih]

/-- The parts are the operations on the keys of the history. -/
theorem mem_partition {history ops : List Operation} :
    ops ∈ partition history ↔ ∃ v ∈ history, ops = onKey v.input.key history := by
  have hkeys : ∀ key, key ∈ (byKey history).keys ↔ onKey key history ≠ [] := by
    intro key
    rw [← AList.mem_keys, ← AList.lookup_isSome, lookup_byKey]
    by_cases hnil : onKey key history = [] <;> simp [hnil]
  have hlook : ∀ key, onKey key history ≠ [] →
      ((byKey history).lookup key).getD [] = onKey key history := by
    intro key hne
    rw [lookup_byKey, if_neg hne, Option.getD_some]
  simp only [partition, List.mem_map, List.mem_insertionSort, hkeys]
  constructor
  · rintro ⟨key, hne, rfl⟩
    obtain ⟨v, hv⟩ := List.exists_mem_of_ne_nil _ hne
    obtain ⟨hmem, rfl⟩ : v ∈ history ∧ v.input.key = key := by simpa [onKey] using hv
    exact ⟨v, hmem, hlook _ hne⟩
  · rintro ⟨v, hv, rfl⟩
    have hmem : v ∈ onKey v.input.key history := by simpa [onKey] using hv
    exact ⟨_, List.ne_nil_of_mem hmem, hlook _ (List.ne_nil_of_mem hmem)⟩

end KvModel

end DistSys.Models1
