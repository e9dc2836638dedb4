import Mathlib.Data.List.Sublists
import Mathlib.Order.Basic

/- Histories of concurrent calls, and what it means that they are linearizable.

   A history is the list of the calls and returns of a run, in the order in which they happened. A
   linearization puts calls in one order: every call that returned, with what it returned, and
   any of those that have not. The order keeps to real time: a call that was made after another
   had returned comes after it. As a sequence of calls made one after the other it is one that the
   specification accepts.

   Where a system refines another one with the same history, it is linearizable if the other one
   is, for nothing else of a run is looked at. `realTime_of_places` is for a system that is
   looked at itself: it is enough to have a place for each call, taken between its call and its
   return. -/
namespace DistSys.Lib

variable {ι In Out : Type*}

/-- A call named by `ι` is made with an input, or returns with an output. -/
inductive Event (ι In Out : Type*) where
  | call (i : ι) (input : In)
  | ret (i : ι) (output : Out)
  deriving DecidableEq

/-- Some calls in an order that explains the history. -/
structure Linearization (history : List (Event ι In Out)) (accepts : List (In × Out) → Prop)
    (order : List (ι × In × Out)) : Prop where
  nodup : (order.map Prod.fst).Nodup
  called : ∀ x ∈ order, .call x.1 x.2.1 ∈ history
  returned : ∀ i output, .ret i output ∈ history → ∃ input, (i, input, output) ∈ order
  realTime : order.Pairwise fun x y =>
    ∀ input output, ¬ List.Sublist [.ret y.1 output, .call x.1 input] history
  accepted : accepts (order.map Prod.snd)

def Linearizable (history : List (Event ι In Out)) (accepts : List (In × Out) → Prop) : Prop :=
  ∃ order, Linearization history accepts order

/-! ## Histories of runs -/

section Trace

variable {α β : Type*}

/-- Two events of a run, one after the other, happen at two steps of it, one after the other. -/
theorem exists_of_sublist_filterMap {event : α → Option β} {tr : List α} {x y : β}
    (h : List.Sublist [x, y] (tr.filterMap event)) :
    ∃ (i j : ℕ) (u v : α), i < j ∧ tr[i]? = some u ∧ event u = some x ∧ tr[j]? = some v ∧
      event v = some y := by
  induction tr with
  | nil => simp at h
  | cons a tr ih =>
    have hlater : List.Sublist [x, y] (tr.filterMap event) → ∃ (i j : ℕ) (u v : α), i < j ∧
        (a :: tr)[i]? = some u ∧ event u = some x ∧ (a :: tr)[j]? = some v ∧ event v = some y := by
      intro h
      obtain ⟨i, j, u, v, hij, hu, hx, hv, hy⟩ := ih h
      exact ⟨i + 1, j + 1, u, v, by omega, hu, hx, hv, hy⟩
    cases hevent : event a with
    | none =>
      rw [List.filterMap_cons_none hevent] at h
      exact hlater h
    | some z =>
      rw [List.filterMap_cons_some hevent] at h
      cases h with
      | cons _ h => exact hlater h
      | cons_cons _ h =>
        obtain ⟨v, hv, hy⟩ := List.mem_filterMap.mp (List.singleton_sublist.mp h)
        obtain ⟨j, hj⟩ := List.mem_iff_getElem?.mp hv
        exact ⟨0, j + 1, a, v, by omega, rfl, hevent, hj, hy⟩

/-- Calls that are listed by their places keep to real time, if one that is made after another has
returned has the later place. -/
theorem realTime_of_places {γ : Type*} {event : α → Option (Event ι In Out)} {tr : List α}
    {entries : List γ} (place : γ → ℕ) (hsorted : entries.Pairwise fun x y => place x < place y)
    (f : γ → ι × In × Out)
    (hlater : ∀ x ∈ entries, ∀ y ∈ entries, ∀ input output u v, ∀ d p : ℕ, d < p →
      tr[d]? = some u → event u = some (.ret (f y).1 output) →
      tr[p]? = some v → event v = some (.call (f x).1 input) → place y < place x) :
    (entries.map f).Pairwise fun x y =>
      ∀ input output, ¬ List.Sublist [.ret y.1 output, .call x.1 input] (tr.filterMap event) := by
  rw [List.pairwise_map]
  refine hsorted.imp_of_mem ?_
  intro x y hx hy hxy input output hsub
  obtain ⟨d, p, u, v, hdp, hd, hret, hp, hcall⟩ := exists_of_sublist_filterMap hsub
  exact Nat.lt_asymm hxy (hlater x hx y hy input output u v d p hdp hd hret hp hcall)

end Trace

end DistSys.Lib
