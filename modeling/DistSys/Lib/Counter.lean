import DistSys.Lib.Transition
import Mathlib.Algebra.Group.Nat.Defs

/- Counters that wrap around.

   A number of `B` values that some steps of a system raise by one, modulo `B`,
   and all others leave as it is, is the number of those steps, modulo `B`. As long
   as a run has fewer than `B` of them nothing wraps: the number only grows, and it
   is another one before each of the steps that raise it. -/
namespace DistSys.Lib

/-- Below the largest `int64` the next one is one larger. -/
theorem toInt_succ {a b : Int64} (hle : a ≤ b) (hb : b ≠ Int64.maxValue) :
    (a + 1).toInt = a.toInt + 1 := by
  have hb' : b.toInt < Int64.maxValue.toInt :=
    Int64.lt_iff_toInt_lt.mp (Int64.lt_of_le_of_ne (Int64.le_maxValue b) hb)
  have hab := Int64.le_iff_toInt_le.mp hle
  have hlow := Int64.le_toInt a
  rw [Int64.toInt_add, Int64.toInt_one]
  rw [Int64.toInt_maxValue] at hb'
  exact Int.bmod_eq_of_le (by omega) (by omega)

/-- Each step that is marked raises `val` by one, modulo `B`; no other changes it. -/
structure Lts.Counts {σ lab : Type*} (M : Lts σ lab) (B : ℕ) (val : σ → ℕ)
    (marked : σ × lab → Bool) : Prop where
  raises : ∀ {s a t}, M.step s a t → marked (s, a) = true → val t = (val s + 1) % B
  keeps : ∀ {s a t}, M.step s a t → marked (s, a) = false → val t = val s

namespace Lts.Counts

variable {σ lab : Type*} {M : Lts σ lab} {B : ℕ} {val : σ → ℕ} {marked : σ × lab → Bool}
variable {s t : σ} {tr : List (σ × lab)}

theorem val_run (h : M.Counts B val marked) (hrun : M.Run s tr t) (hs : val s = 0) :
    val t = tr.countP marked % B := by
  induction hrun with
  | nil => simpa using hs
  | @snoc tr u w a _ hstep ih =>
    rw [List.countP_append, List.countP_singleton]
    cases hmark : marked (u, a) with
    | true =>
      rw [h.raises hstep hmark, ih, if_pos rfl, Nat.mod_add_mod]
    | false =>
      rw [h.keeps hstep hmark, ih, if_neg Bool.false_ne_true, Nat.add_zero]

/-! ## Runs that do not wrap around -/

section Few

variable (h : M.Counts B val marked) (hs : val s = 0) (hrun : M.Run s tr t)
  (hfew : tr.countP marked < B)
include h hs hrun hfew

/-- In every state the number is how many steps raised it before. -/
theorem val_at {i : ℕ} {u : σ} (hi : (visited tr t)[i]? = some u) :
    val u = (tr.take i).countP marked := by
  obtain ⟨hbefore, -⟩ := hrun.at_visited hi
  rw [h.val_run hbefore hs]
  exact Nat.mod_eq_of_lt (lt_of_le_of_lt (List.take_sublist i tr).countP_le hfew)

theorem val_mono {i j : ℕ} {u w : σ} (hij : i ≤ j) (hi : (visited tr t)[i]? = some u)
    (hj : (visited tr t)[j]? = some w) : val u ≤ val w := by
  rw [h.val_at hs hrun hfew hi, h.val_at hs hrun hfew hj]
  exact (List.take_sublist_take_left hij).countP_le

/-- A step that raises the number raises it by one, without a wrap. -/
theorem val_succ {i : ℕ} {u w : σ} {a : lab} (hi : tr[i]? = some (u, a))
    (hmark : marked (u, a) = true) (hw : (visited tr t)[i + 1]? = some w) : val w = val u + 1 := by
  rw [h.val_at hs hrun hfew hw, h.val_at hs hrun hfew (visited_of_step hi), List.take_add_one, hi,
    List.countP_append]
  simp [hmark]

/-- The value it starts from is not there again. -/
theorem val_lt {i j : ℕ} {u w : σ} {a : lab} (hij : i < j) (hi : tr[i]? = some (u, a))
    (hmark : marked (u, a) = true) (hj : (visited tr t)[j]? = some w) : val u < val w := by
  obtain ⟨w', hw'⟩ : ∃ w', (visited tr t)[i + 1]? = some w' := by
    refine ⟨_, List.getElem?_eq_getElem ?_⟩
    have hlt := (List.getElem?_eq_some_iff.mp hj).1
    omega
  have hsucc := h.val_succ hs hrun hfew hi hmark hw'
  have hmono := h.val_mono hs hrun hfew hij hw' hj
  omega

end Few

end Lts.Counts

end DistSys.Lib
