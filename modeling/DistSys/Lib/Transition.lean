import Mathlib.Logic.Relation
import Mathlib.Order.Monotone.Basic

/- Labelled transition systems and their runs.

   A run is kept with its history: every state it left, paired with the label
   it left by, oldest first. "Ever" and "later" are then membership in that
   list and its splits. Two rules are proved once and used by every
   development over it:

     1. `Run.invariant`: what holds at the start and is kept by every step
        holds in every state the run visits.
     2. `Run.ghost`: a history variable that only grows can be carried along a
        run, each visited state having a value of it below the last one. -/
namespace DistSys.Lib

/-- A labelled transition system. -/
structure Lts (σ lab : Type*) where
  init : σ → Prop
  step : σ → lab → σ → Prop

/-- `M.Run s tr t`: a run from `s` to `t`; `tr` lists the states left and the
labels taken, oldest first. -/
inductive Lts.Run {σ lab : Type*} (M : Lts σ lab) (s : σ) : List (σ × lab) → σ → Prop where
  | nil : M.Run s [] s
  | snoc {tr : List (σ × lab)} {t u : σ} {a : lab} :
      M.Run s tr t → M.step t a u → M.Run s (tr ++ [(t, a)]) u

/-- The states a run visits: those it left and the last one. -/
def visited {σ lab : Type*} (tr : List (σ × lab)) (t : σ) : List σ := tr.map Prod.fst ++ [t]

theorem visited_append {σ lab : Type*} (tr₁ tr₂ : List (σ × lab)) (t : σ) :
    visited (tr₁ ++ tr₂) t = tr₁.map Prod.fst ++ visited tr₂ t := by
  simp [visited]

theorem visited_of_step {σ lab : Type*} {tr : List (σ × lab)} {t u : σ} {a : lab} {i : ℕ}
    (hi : tr[i]? = some (u, a)) : (visited tr t)[i]? = some u := by
  obtain ⟨hlt, hget⟩ := List.getElem?_eq_some_iff.mp hi
  rw [visited, List.getElem?_append_left (by simpa using hlt)]
  simp [hlt, hget]

namespace Lts.Run

variable {σ lab γ : Type*} {M : Lts σ lab}

theorem append {s t u : σ} {tr tr' : List (σ × lab)} (h : M.Run s tr t) (h' : M.Run t tr' u) :
    M.Run s (tr ++ tr') u := by
  induction h' with
  | nil => simpa using h
  | snoc _ hstep ih =>
    rw [← List.append_assoc]
    exact ih.snoc hstep

theorem single {s t : σ} {a : lab} (h : M.step s a t) : M.Run s [(s, a)] t :=
  (Run.nil (M := M)).snoc h

/-- A run through a recorded step splits there. -/
theorem split {s t v : σ} {a : lab} {tr₁ tr₂ : List (σ × lab)}
    (h : M.Run s (tr₁ ++ (v, a) :: tr₂) t) :
    M.Run s tr₁ v ∧ ∃ w, M.step v a w ∧ M.Run w tr₂ t := by
  generalize hs : tr₁ ++ (v, a) :: tr₂ = tr at h
  induction h generalizing tr₂ with
  | nil => simp at hs
  | @snoc tr u w b hrun hstep ih =>
    rcases List.eq_nil_or_concat tr₂ with rfl | ⟨tr₃, x, rfl⟩
    · obtain ⟨rfl, he⟩ := List.append_inj' hs rfl
      simp only [List.cons.injEq, Prod.mk.injEq, and_true] at he
      obtain ⟨rfl, rfl⟩ := he
      exact ⟨hrun, w, hstep, .nil⟩
    · rw [List.concat_eq_append, ← List.cons_append, ← List.append_assoc] at hs
      obtain ⟨htr, he⟩ := List.append_inj' hs rfl
      obtain ⟨hv, w', hw', hrest⟩ := ih htr
      simp only [List.cons.injEq, and_true] at he
      subst he
      refine ⟨hv, w', hw', ?_⟩
      rw [List.concat_eq_append]
      exact hrest.snoc hstep

/-- The run up to any state it visits. -/
theorem to_visited {s t u : σ} {tr : List (σ × lab)} (h : M.Run s tr t)
    (hu : u ∈ visited tr t) : ∃ tr₁ tr₂, tr = tr₁ ++ tr₂ ∧ M.Run s tr₁ u ∧ M.Run u tr₂ t := by
  rcases List.mem_append.mp hu with hu | hu
  · obtain ⟨⟨v, a⟩, hva, rfl⟩ := List.mem_map.mp hu
    obtain ⟨tr₁, tr₂, rfl⟩ := List.append_of_mem hva
    obtain ⟨h₁, w, hw, h₂⟩ := h.split
    exact ⟨tr₁, (v, a) :: tr₂, rfl, h₁, (single hw).append h₂⟩
  · rw [List.mem_singleton] at hu
    subst hu
    exact ⟨tr, [], by simp, h, .nil⟩

/-- What the steps of a run keep holds in every state it visits. -/
theorem invariant_on {I : σ → Prop} {s t : σ} {tr : List (σ × lab)} (h : M.Run s tr t)
    (hstep : ∀ u a w, (u, a) ∈ tr → I u → M.step u a w → I w) (hs : I s) :
    ∀ u ∈ visited tr t, I u := by
  have last : ∀ {tr : List (σ × lab)} {t : σ}, M.Run s tr t →
      (∀ u a w, (u, a) ∈ tr → I u → M.step u a w → I w) → I t := by
    intro tr t h hstep
    induction h with
    | nil => exact hs
    | snoc _ hst ih =>
      exact hstep _ _ _ (by simp) (ih fun u a w hm => hstep u a w (List.mem_append_left _ hm)) hst
  intro u hu
  obtain ⟨tr₁, tr₂, rfl, h₁, -⟩ := h.to_visited hu
  exact last h₁ fun u a w hm => hstep u a w (List.mem_append_left _ hm)

/-- What every step keeps holds in every state visited. -/
theorem invariant {I : σ → Prop} (hstep : ∀ s a t, I s → M.step s a t → I t) {s t : σ}
    {tr : List (σ × lab)} (h : M.Run s tr t) (hs : I s) : ∀ u ∈ visited tr t, I u :=
  h.invariant_on (fun u a w _ => hstep u a w) hs

/-- A history variable related to every state and growing along every step:
the last state has a value of it above one for each state visited. -/
theorem ghost [Preorder γ] {R : σ → γ → Prop} {s t : σ} {tr : List (σ × lab)} (h : M.Run s tr t)
    (hstep : ∀ u a w g, (u, a) ∈ tr → R u g → M.step u a w → ∃ g', g ≤ g' ∧ R w g') {g₀ : γ}
    (hs : R s g₀) :
    ∃ g, g₀ ≤ g ∧ R t g ∧ ∀ u ∈ visited tr t, ∃ gu, g₀ ≤ gu ∧ gu ≤ g ∧ R u gu := by
  induction h with
  | nil => exact ⟨g₀, le_rfl, hs, fun u hu => ⟨g₀, le_rfl, le_rfl, by simp_all [visited]⟩⟩
  | @snoc tr v w a _ hst ih =>
    obtain ⟨g, hg, hR, hall⟩ :=
      ih (fun u b x g hm => hstep u b x g (List.mem_append_left _ hm))
    obtain ⟨g', hg', hR'⟩ := hstep v a w g (by simp) hR hst
    refine ⟨g', hg.trans hg', hR', ?_⟩
    intro u hu
    simp only [visited, List.map_append, List.map_cons, List.map_nil, List.append_assoc,
      List.mem_append, List.mem_singleton] at hu
    rcases hu with hu | hu | hu
    · obtain ⟨gu, h₁, h₂, h₃⟩ := hall u (List.mem_append.mpr (Or.inl hu))
      exact ⟨gu, h₁, h₂.trans hg', h₃⟩
    · exact ⟨g, hg, hg', hu ▸ hR⟩
    · exact ⟨g', hg.trans hg', le_rfl, hu ▸ hR'⟩

/-- The states visited so far stay where they are when the run goes on. -/
theorem visited_extends {s t : σ} {tr tr' : List (σ × lab)} (h : M.Run s tr' t) :
    visited tr s <+: visited (tr ++ tr') t := by
  induction h with
  | nil => simp
  | @snoc tr'' u w a _ _ ih =>
    have hsnoc : visited (tr ++ (tr'' ++ [(u, a)])) w = visited (tr ++ tr'') u ++ [w] := by
      simp [visited]
    rw [hsnoc]
    exact ih.trans ⟨[w], rfl⟩

/-- The run up to a step, the step, and the run from it on. -/
theorem at_step {s t u : σ} {a : lab} {tr : List (σ × lab)} {i : ℕ} (h : M.Run s tr t)
    (hi : tr[i]? = some (u, a)) :
    M.Run s (tr.take i) u ∧ ∃ w, M.step u a w ∧ M.Run w (tr.drop (i + 1)) t := by
  obtain ⟨hlt, hget⟩ := List.getElem?_eq_some_iff.mp hi
  have hsplit : tr = tr.take i ++ (u, a) :: tr.drop (i + 1) := by
    rw [← hget, ← List.drop_eq_getElem_cons hlt, List.take_append_drop]
  rw [hsplit] at h
  exact h.split

theorem visited_head {s t : σ} {tr : List (σ × lab)} (h : M.Run s tr t) :
    (visited tr t)[0]? = some s := by
  cases tr with
  | nil =>
    generalize hnil : ([] : List (σ × lab)) = tr at h
    cases h with
    | nil => rfl
    | snoc _ _ => simp at hnil
  | cons x tr =>
    obtain ⟨hnil, -⟩ := h.at_step (i := 0) (u := x.1) (a := x.2) rfl
    generalize htake : (x :: tr).take 0 = tr' at hnil
    cases hnil with
    | nil => rfl
    | snoc _ _ => simp at htake

/-- The state a step leads to is visited next. -/
theorem visited_succ {s t u : σ} {a : lab} {tr : List (σ × lab)} {i : ℕ} (h : M.Run s tr t)
    (hi : tr[i]? = some (u, a)) : ∃ w, (visited tr t)[i + 1]? = some w ∧ M.step u a w := by
  obtain ⟨-, w, hstep, hrest⟩ := h.at_step hi
  obtain ⟨hlt, -⟩ := List.getElem?_eq_some_iff.mp hi
  refine ⟨w, ?_, hstep⟩
  have hsplit : visited tr t = (tr.take (i + 1)).map Prod.fst ++ visited (tr.drop (i + 1)) t := by
    rw [← visited_append, List.take_append_drop]
  have hlen : ((tr.take (i + 1)).map Prod.fst).length = i + 1 := by
    simp only [List.length_map, List.length_take]
    omega
  rw [hsplit, List.getElem?_append_right (by omega), hlen, Nat.sub_self]
  exact hrest.visited_head

/-- The run up to a state and the run from it on. -/
theorem at_visited {s t u : σ} {tr : List (σ × lab)} {i : ℕ} (h : M.Run s tr t)
    (hi : (visited tr t)[i]? = some u) : M.Run s (tr.take i) u ∧ M.Run u (tr.drop i) t := by
  by_cases hlt : i < tr.length
  · obtain ⟨hrun, w, hstep, hrest⟩ := h.at_step (List.getElem?_eq_getElem hlt)
    obtain rfl : tr[i].1 = u :=
      Option.some.inj ((visited_of_step (List.getElem?_eq_getElem hlt)).symm.trans hi)
    refine ⟨hrun, ?_⟩
    rw [List.drop_eq_getElem_cons hlt]
    exact (single hstep).append hrest
  · obtain ⟨hle, hget⟩ := List.getElem?_eq_some_iff.mp hi
    obtain rfl : i = tr.length := by
      simp [visited] at hle
      omega
    obtain rfl : t = u := by simpa [visited] using hget
    simpa using And.intro h (Run.nil (M := M))

/-- The run from one state visited to a later one. -/
theorem between {s t u v : σ} {tr : List (σ × lab)} {i j : ℕ} (h : M.Run s tr t) (hij : i ≤ j)
    (hi : (visited tr t)[i]? = some u) (hj : (visited tr t)[j]? = some v) :
    M.Run u ((tr.take j).drop i) v := by
  obtain ⟨hv, hrest⟩ := h.at_visited hj
  have hle : j ≤ tr.length := by
    have hlt := (List.getElem?_eq_some_iff.mp hj).1
    simp only [visited, List.length_append, List.length_map, List.length_singleton] at hlt
    omega
  have hext : visited (tr.take j) v <+: visited tr t := by
    have hpre : visited (tr.take j) v <+: visited (tr.take j ++ tr.drop j) t := hrest.visited_extends
    rwa [List.take_append_drop] at hpre
  have hlen : i < (visited (tr.take j) v).length := by
    simp only [visited, List.length_append, List.length_map, List.length_take, List.length_singleton]
    omega
  refine (hv.at_visited ?_).2
  obtain ⟨r, hr⟩ := hext
  rwa [← hr, List.getElem?_append_left hlen] at hi

/-- What every step keeps is kept from one state visited to any later one. -/
theorem kept {I : σ → Prop} (hstep : ∀ s a t, I s → M.step s a t → I t) {s t u w : σ}
    {tr : List (σ × lab)} {i j : ℕ} (h : M.Run s tr t) (hij : i ≤ j)
    (hi : (visited tr t)[i]? = some u) (hj : (visited tr t)[j]? = some w) (hu : I u) : I w := by
  induction j, hij using Nat.le_induction generalizing w with
  | base =>
    obtain rfl : u = w := Option.some.inj (hi.symm.trans hj)
    exact hu
  | succ j hij ih =>
    have hlt : j < tr.length := by
      have hlen := (List.getElem?_eq_some_iff.mp hj).1
      simp [visited] at hlen
      exact hlen
    obtain ⟨w', hw', hst⟩ := h.visited_succ (List.getElem?_eq_getElem hlt)
    obtain rfl : w' = w := Option.some.inj (hw'.symm.trans hj)
    exact hstep _ _ _ (ih (visited_of_step (List.getElem?_eq_getElem hlt))) hst

end Lts.Run

/-! ## What can still happen -/

/-- From `s` the system can go to `t` by steps that are `ok` in the states they are taken in. -/
def Lts.GoesTo {σ lab : Type*} (M : Lts σ lab) (ok : σ → lab → Prop) (s t : σ) : Prop :=
  ∃ tr, M.Run s tr t ∧ ∀ x ∈ tr, ok x.1 x.2

namespace Lts.GoesTo

variable {σ lab : Type*} {M : Lts σ lab} {ok : σ → lab → Prop} {s t u : σ}

theorem refl (s : σ) : M.GoesTo ok s s := ⟨[], .nil, fun _ hx => by simp at hx⟩

theorem trans (h : M.GoesTo ok s t) (h' : M.GoesTo ok t u) : M.GoesTo ok s u := by
  obtain ⟨tr, hrun, hok⟩ := h
  obtain ⟨tr', hrun', hok'⟩ := h'
  refine ⟨tr ++ tr', hrun.append hrun', fun x hx => ?_⟩
  rcases List.mem_append.mp hx with hx | hx
  · exact hok x hx
  · exact hok' x hx

theorem single {a : lab} (ha : ok s a) (h : M.step s a t) : M.GoesTo ok s t := by
  refine ⟨[(s, a)], Run.single h, fun x hx => ?_⟩
  obtain rfl := List.mem_singleton.mp hx
  exact ha

end Lts.GoesTo

/-! ## Simulation -/

section Simulation
variable {σ τ lab lab' : Type*} {M : Lts σ lab} {N : Lts τ lab'}

/-- A run of `N` that keeps pace with a run of `M`: `f` says where in the run of `N` each state of
the run of `M` is matched. `I` relates the matched states, `R` a step of `M` with the matched states
before and after it. -/
structure Tracks (I : σ → τ → Prop) (R : σ × lab → τ → τ → Prop) (tr : List (σ × lab)) (s : σ)
    (ntr : List (τ × lab')) (t : τ) (f : Nat → Nat) : Prop where
  mono : Monotone f
  states : ∀ i u, (visited tr s)[i]? = some u →
    ∃ b, (visited ntr t)[f i]? = some b ∧ I u b
  steps : ∀ i x, tr[i]? = some x → ∃ b b', (visited ntr t)[f i]? = some b ∧
    (visited ntr t)[f (i + 1)]? = some b' ∧ R x b b'

theorem visited_length {tr : List (σ × lab)} {s : σ} : (visited tr s).length = tr.length + 1 := by
  simp [visited]

theorem visited_last {tr : List (σ × lab)} {s : σ} : (visited tr s)[tr.length]? = some s := by
  simp [visited]

/-- Forward simulation: if every step of `M` from related states is matched by a run of `N` to
related states, every run of `M` is tracked by a run of `N`. -/
theorem Lts.Run.simulated {I : σ → τ → Prop} {R : σ × lab → τ → τ → Prop} {s s' : σ} {t : τ}
    {tr : List (σ × lab)} (h : M.Run s tr s') (h₀ : I s t)
    (hstep : ∀ u x w b, (u, x) ∈ tr → I u b → M.step u x w →
      ∃ ntr b', N.Run b ntr b' ∧ I w b' ∧ R (u, x) b b') :
    ∃ ntr t' f, N.Run t ntr t' ∧ I s' t' ∧ f tr.length = ntr.length ∧
      Tracks I R tr s' ntr t' f := by
  induction h with
  | nil =>
    refine ⟨[], t, fun _ => 0, .nil, h₀, rfl, fun _ _ _ => le_rfl, ?_, ?_⟩
    · intro i u hu
      refine ⟨t, rfl, ?_⟩
      obtain ⟨hlt, rfl⟩ := List.getElem?_eq_some_iff.mp hu
      obtain rfl : i = 0 := by simpa [visited] using hlt
      exact h₀
    · intro i x hx
      simp at hx
  | @snoc tr u w x hrun hst ih =>
    obtain ⟨ntr, b, f, hN, hI, hf, hmono, hstates, hsteps⟩ :=
      ih (fun u' y v c hm => hstep u' y v c (List.mem_append_left _ hm))
    obtain ⟨ntr', b', hN', hI', hR⟩ := hstep u x w b (by simp) hI hst
    have hext : visited ntr b <+: visited (ntr ++ ntr') b' := hN'.visited_extends
    have hkeep : ∀ {i : Nat} {c : τ}, (visited ntr b)[i]? = some c →
        (visited (ntr ++ ntr') b')[i]? = some c := by
      intro i c hc
      obtain ⟨hlt, -⟩ := List.getElem?_eq_some_iff.mp hc
      obtain ⟨r, hr⟩ := hext
      rw [← hr, List.getElem?_append_left hlt]
      exact hc
    -- the new state of `M` is matched at the end of the longer run of `N`
    refine ⟨ntr ++ ntr', b', fun i => if i ≤ tr.length then f i else (ntr ++ ntr').length,
      hN.append hN', hI', by simp, ?_, ?_, ?_⟩
    · intro i j hij
      by_cases hj : j ≤ tr.length
      · simp only [if_pos hj, if_pos (hij.trans hj)]
        exact hmono hij
      · by_cases hi : i ≤ tr.length
        · simp only [if_pos hi, if_neg hj, List.length_append]
          have := hmono hi
          omega
        · simp [hi, hj]
    · intro i v hv
      have hsnoc : visited (tr ++ [(u, x)]) w = visited tr u ++ [w] := by simp [visited]
      rw [hsnoc] at hv
      by_cases hi : i ≤ tr.length
      · rw [List.getElem?_append_left (by rw [visited_length]; omega)] at hv
        obtain ⟨c, hc, hIc⟩ := hstates i v hv
        exact ⟨c, by simp only [if_pos hi]; exact hkeep hc, hIc⟩
      · obtain ⟨hlt, rfl⟩ := List.getElem?_eq_some_iff.mp hv
        rw [List.length_append, visited_length] at hlt
        obtain rfl : i = tr.length + 1 := by simp at hlt; omega
        refine ⟨b', by simp only [if_neg hi]; exact visited_last, ?_⟩
        rw [List.getElem_append_right (by rw [visited_length])]
        simpa using hI'
    · intro i y hy
      by_cases hi : i < tr.length
      · rw [List.getElem?_append_left hi] at hy
        obtain ⟨c, c', hc, hc', hRc⟩ := hsteps i y hy
        refine ⟨c, c', ?_, ?_, hRc⟩
        · simp only [if_pos hi.le]; exact hkeep hc
        · simp only [if_pos (show i + 1 ≤ tr.length by omega)]; exact hkeep hc'
      · obtain ⟨hlt, -⟩ := List.getElem?_eq_some_iff.mp hy
        obtain rfl : i = tr.length := by simp at hlt; omega
        obtain rfl : (u, x) = y := by simpa using hy
        refine ⟨b, b', ?_, ?_, hR⟩
        · simp only [if_pos le_rfl, hf]
          exact hkeep visited_last
        · simp only [if_neg (show ¬ tr.length + 1 ≤ tr.length by omega)]
          exact visited_last

end Simulation

/-! ## Runs from a list of labels

A system whose step is a partial function can be run on a list of labels. -/

section Exec

variable {σ lab : Type*} (step : σ → lab → Option σ)

/-- The state after some labels; one that is not enabled is skipped. -/
def after : σ → List lab → σ
  | s, [] => s
  | s, a :: as => after ((step s a).getD s) as

/-- The states left on the way, with the labels. -/
def traceOf : σ → List lab → List (σ × lab)
  | _, [] => []
  | s, a :: as => (s, a) :: traceOf ((step s a).getD s) as

/-- Every label is enabled in turn, and meets `ok`. -/
def enabled (ok : lab → Bool) : σ → List lab → Bool
  | _, [] => true
  | s, a :: as => ok a && (step s a).isSome && enabled ok ((step s a).getD s) as

variable {step}

theorem after_append (s : σ) (as bs : List lab) :
    after step s (as ++ bs) = after step (after step s as) bs := by
  induction as generalizing s with
  | nil => rfl
  | cons a as ih => exact ih _

theorem traceOf_append (s : σ) (as bs : List lab) :
    traceOf step s (as ++ bs) = traceOf step s as ++ traceOf step (after step s as) bs := by
  induction as generalizing s with
  | nil => rfl
  | cons a as ih => simp only [List.cons_append, traceOf, after, ih]

/-- A label is taken in the state after those before it. -/
theorem mem_traceOf (s : σ) (as : List lab) (b : lab) (bs : List lab) :
    (after step s as, b) ∈ traceOf step s (as ++ b :: bs) := by
  rw [traceOf_append]
  exact List.mem_append_right _ List.mem_cons_self

theorem traceOf_labels (s : σ) (as : List lab) : (traceOf step s as).map Prod.snd = as := by
  induction as generalizing s with
  | nil => rfl
  | cons a as ih => simp only [traceOf, List.map_cons, ih]

/-- A state on the way is visited. -/
theorem after_mem_visited (s : σ) (as bs : List lab) :
    after step s as ∈ visited (traceOf step s (as ++ bs)) (after step s (as ++ bs)) := by
  rw [traceOf_append, after_append, visited_append]
  refine List.mem_append_right _ ?_
  cases bs with
  | nil => simp [traceOf, after, visited]
  | cons b bs => simp [traceOf, visited]

theorem Lts.run_of_enabled {M : Lts σ lab} {ok : lab → Bool}
    (h : ∀ s a t, ok a = true → step s a = some t → M.step s a t) {as : List lab} {s : σ}
    (hs : enabled step ok s as = true) : M.Run s (traceOf step s as) (after step s as) := by
  induction as generalizing s with
  | nil => exact .nil
  | cons a as ih =>
    simp only [enabled, Bool.and_eq_true] at hs
    obtain ⟨⟨hok, hsome⟩, hrest⟩ := hs
    obtain ⟨t, ht⟩ := Option.isSome_iff_exists.mp hsome
    simp only [traceOf, after]
    rw [ht] at hrest ⊢
    exact (Lts.Run.single (h s a t hok ht)).append (ih hrest)

/-- The same for a system all of whose steps are those of `step`. -/
theorem Lts.run_of_steps {M : Lts σ lab} (h : ∀ s a t, step s a = some t → M.step s a t)
    {as : List lab} {s : σ} (hs : enabled step (fun _ => true) s as = true) :
    M.Run s (traceOf step s as) (after step s as) :=
  Lts.run_of_enabled (fun s a t _ => h s a t) hs

end Exec

end DistSys.Lib
