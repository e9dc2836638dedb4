import Mathlib.Data.Set.Equitable
import Mathlib.InformationTheory.Hamming

/- Even assignments of items to bins.

   An assignment is even over a set of bins when it uses these bins only and no two of
   them differ by more than one item. With `n` items and `m` bins every bin then has
   `n / m` items or one more, and `n % m` bins have one more. So of what an assignment
   with the counts `c` gives to the bins, an even one can leave in place at most

     min (Σ min (c g) (n/m) + n % m) (Σ min (c g) (n/m + 1))

   items (`EvenOver.card_le`). Two moves raise this bound by one: an item that is in no bin
   goes to a least loaded one (`keepable_place`), and an item goes from a most loaded bin to a
   least loaded one that has two fewer (`keepable_shift`). As the bound is at most `n`, a program
   of such moves ends, and it moves no more items than it has to (`Frugal.hammingDist_le`). -/
namespace DistSys.Lib

variable {ι γ : Type*}

/-! ## Counts -/

section Counts

/-- The most items that stay in place when `n` items with counts `c` are spread evenly. -/
def keepable (n : ℕ) (G : Finset γ) (c : γ → ℕ) : ℕ :=
  min (∑ g ∈ G, min (c g) (n / G.card) + n % G.card) (∑ g ∈ G, min (c g) (n / G.card + 1))

variable {n : ℕ} {G : Finset γ} {c c' : γ → ℕ} {lg mg : γ}

theorem keepable_le (n : ℕ) (G : Finset γ) (c : γ → ℕ) : keepable n G c ≤ n := by
  have hsum : ∑ g ∈ G, min (c g) (n / G.card) ≤ G.card * (n / G.card) := by
    apply Finset.sum_le_card_nsmul
    intro g _
    exact min_le_right _ _
  have hdiv := Nat.div_add_mod n G.card
  calc keepable n G c ≤ ∑ g ∈ G, min (c g) (n / G.card) + n % G.card := min_le_left _ _
    _ ≤ G.card * (n / G.card) + n % G.card := Nat.add_le_add_right hsum _
    _ = n := hdiv

/-- A least loaded bin has at most its share. -/
theorem least_le (hlg : lg ∈ G) (hleast : ∀ g ∈ G, c lg ≤ c g) (hsum : ∑ g ∈ G, c g ≤ n) :
    c lg ≤ n / G.card := by
  have hle : G.card * c lg ≤ ∑ g ∈ G, c g := Finset.card_nsmul_le_sum G c (c lg) hleast
  rw [Nat.le_div_iff_mul_le (Finset.card_pos.mpr ⟨lg, hlg⟩), Nat.mul_comm]
  exact hle.trans hsum

/-- When the least loaded bin has its share, all have, and all of the shares can be kept. -/
theorem sum_min_of_least (hleast : ∀ g ∈ G, c lg ≤ c g) (hlg : n / G.card ≤ c lg) :
    ∑ g ∈ G, min (c g) (n / G.card) = G.card * (n / G.card) := by
  apply Finset.sum_const_nat
  intro g hg
  exact min_eq_right (hlg.trans (hleast g hg))

/-- An item from outside goes to a least loaded bin. -/
theorem keepable_place (hlg : lg ∈ G) (hleast : ∀ g ∈ G, c lg ≤ c g) (hsum : ∑ g ∈ G, c g < n)
    (hself : c' lg = c lg + 1) (hother : ∀ g ∈ G, g ≠ lg → c' g = c g) :
    keepable n G c + 1 ≤ keepable n G c' := by
  have hq : c lg ≤ n / G.card := least_le hlg hleast hsum.le
  have hle : ∀ g ∈ G, c g ≤ c' g := by
    intro g hg
    by_cases heq : g = lg
    · rw [heq, hself]
      exact Nat.le_succ _
    · rw [hother g hg heq]
  apply le_min
  · rcases Nat.eq_or_lt_of_le hq with heq | hlt
    · -- all bins have their share already, and some item is outside
      have hall : ∑ g ∈ G, min (c' g) (n / G.card) = G.card * (n / G.card) := by
        apply Finset.sum_const_nat
        intro g hg
        exact min_eq_right (heq.ge.trans ((hleast g hg).trans (hle g hg)))
      have hkeep : keepable n G c ≤ ∑ g ∈ G, c g :=
        (min_le_right _ _).trans (Finset.sum_le_sum fun g _ => min_le_left _ _)
      rw [hall, Nat.div_add_mod]
      omega
    · have hmore : ∑ g ∈ G, min (c g) (n / G.card) < ∑ g ∈ G, min (c' g) (n / G.card) := by
        apply Finset.sum_lt_sum
        · intro g hg
          exact min_le_min_right _ (hle g hg)
        · exact ⟨lg, hlg, by omega⟩
      have hkeep : keepable n G c ≤ ∑ g ∈ G, min (c g) (n / G.card) + n % G.card := min_le_left _ _
      omega
  · have hmore : ∑ g ∈ G, min (c g) (n / G.card + 1) < ∑ g ∈ G, min (c' g) (n / G.card + 1) := by
      apply Finset.sum_lt_sum
      · intro g hg
        exact min_le_min_right _ (hle g hg)
      · exact ⟨lg, hlg, by omega⟩
    have hkeep : keepable n G c ≤ ∑ g ∈ G, min (c g) (n / G.card + 1) := min_le_right _ _
    omega

/-- An item goes from a most loaded bin to a least loaded one. -/
theorem keepable_shift (hlg : lg ∈ G) (hmg : mg ∈ G) (hleast : ∀ g ∈ G, c lg ≤ c g)
    (hmost : ∀ g ∈ G, c g ≤ c mg) (hgap : c lg + 2 ≤ c mg) (hsum : ∑ g ∈ G, c g = n)
    (hsum' : ∑ g ∈ G, c' g = n) (hself : c' lg = c lg + 1) (hfrom : c' mg + 1 = c mg)
    (hother : ∀ g, g ≠ lg → g ≠ mg → c' g = c g) : keepable n G c + 1 ≤ keepable n G c' := by
  have hq : c lg ≤ n / G.card := least_le hlg hleast hsum.le
  have hdiv := Nat.div_add_mod n G.card
  have hkeep₁ : keepable n G c ≤ ∑ g ∈ G, min (c g) (n / G.card) + n % G.card := min_le_left _ _
  have hkeep₂ : keepable n G c ≤ ∑ g ∈ G, min (c g) (n / G.card + 1) := min_le_right _ _
  -- the most loaded bin has more than its share
  have hmore : n / G.card < c mg := by
    by_contra hle
    have hlt : ∑ g ∈ G, c g < ∑ g ∈ G, n / G.card := by
      apply Finset.sum_lt_sum
      · intro g hg
        exact (hmost g hg).trans (not_lt.mp hle)
      · exact ⟨lg, hlg, by omega⟩
    rw [Finset.sum_const, smul_eq_mul] at hlt
    omega
  have hkept : ∀ q, q < c mg → ∀ g ∈ G, min (c g) q ≤ min (c' g) q := by
    intro q hlt g _
    by_cases hg : g = lg
    · rw [hg]
      omega
    · by_cases hg' : g = mg
      · rw [hg']
        omega
      · rw [hother g hg hg']
  apply le_min
  · rcases Nat.eq_or_lt_of_le hq with heq | hlt
    · -- all bins have their share already, and the most loaded one has two more
      have hall : ∑ g ∈ G, min (c g) (n / G.card) = G.card * (n / G.card) :=
        sum_min_of_least hleast heq.ge
      have hall' : ∑ g ∈ G, min (c g) (n / G.card) ≤ ∑ g ∈ G, min (c' g) (n / G.card) :=
        Finset.sum_le_sum (hkept _ hmore)
      have hless : ∑ g ∈ G, min (c g) (n / G.card + 1) < ∑ g ∈ G, c g := by
        apply Finset.sum_lt_sum
        · intro g _
          exact min_le_left _ _
        · exact ⟨mg, hmg, by omega⟩
      omega
    · have hgain : ∑ g ∈ G, min (c g) (n / G.card) < ∑ g ∈ G, min (c' g) (n / G.card) := by
        apply Finset.sum_lt_sum (hkept _ hmore)
        exact ⟨lg, hlg, by omega⟩
      omega
  · by_cases hone : c mg = n / G.card + 1
    · -- no bin has more than one above its share, so all items count before and after
      have hall : ∑ g ∈ G, min (c' g) (n / G.card + 1) = ∑ g ∈ G, c' g := by
        apply Finset.sum_congr rfl
        intro g hg
        apply min_eq_left
        by_cases hg₁ : g = lg
        · rw [hg₁]
          omega
        · by_cases hg₂ : g = mg
          · rw [hg₂]
            omega
          · rw [hother g hg₁ hg₂]
            exact (hmost g hg).trans hone.le
      have hless : ∑ g ∈ G, min (c g) (n / G.card) < G.card * (n / G.card) := by
        have hlt : ∑ g ∈ G, min (c g) (n / G.card) < ∑ g ∈ G, n / G.card := by
          apply Finset.sum_lt_sum
          · intro g _
            exact min_le_right _ _
          · exact ⟨lg, hlg, by omega⟩
        rwa [Finset.sum_const, smul_eq_mul] at hlt
      omega
    · have hgain : ∑ g ∈ G, min (c g) (n / G.card + 1) < ∑ g ∈ G, min (c' g) (n / G.card + 1) := by
        apply Finset.sum_lt_sum (hkept _ (by omega))
        exact ⟨lg, hlg, by omega⟩
      omega

end Counts

/-! ## Assignments -/

section Assignments

variable [Fintype ι] [DecidableEq γ]

/-- How many items an assignment gives to a bin. -/
def load (f : ι → γ) (g : γ) : ℕ := (Finset.univ.filter (f · = g)).card

/-- Every item is in a bin of `G`, and no two of these differ by more than one. -/
structure EvenOver (G : Finset γ) (f : ι → γ) : Prop where
  valid : ∀ i, f i ∈ G
  equitable : (G : Set γ).EquitableOn (load f)

variable {G : Finset γ} {f f' f'' : ι → γ}

theorem load_le_card (f : ι → γ) (g : γ) : load f g ≤ Fintype.card ι := Finset.card_le_univ _

theorem sum_load (G : Finset γ) (f : ι → γ) :
    ∑ g ∈ G, load f g = (Finset.univ.filter (f · ∈ G)).card := by
  have hmaps : ((Finset.univ.filter (f · ∈ G) : Finset ι) : Set ι).MapsTo f G := by
    intro i hi
    simpa using hi
  rw [Finset.card_eq_sum_card_fiberwise hmaps]
  apply Finset.sum_congr rfl
  intro g hg
  rw [Finset.filter_filter, load]
  congr 1
  apply Finset.filter_congr
  intro i _
  constructor
  · intro hi
    exact ⟨hi ▸ hg, hi⟩
  · exact And.right

theorem sum_load_of_valid (hf : ∀ i, f i ∈ G) : ∑ g ∈ G, load f g = Fintype.card ι := by
  rw [sum_load, Finset.filter_true_of_mem fun i _ => hf i, Finset.card_univ]

/-- An even assignment leaves at most `keepable` items where they are. -/
theorem EvenOver.card_le {e : ι → γ} (he : EvenOver G e) (f : ι → γ) :
    Fintype.card ι ≤ hammingDist f e + keepable (Fintype.card ι) G (load f) := by
  have hsum := sum_load_of_valid he.valid
  have hlow : ∀ g ∈ G, Fintype.card ι / G.card ≤ load e g := by
    intro g hg
    rw [← hsum]
    exact Finset.EquitableOn.le he.equitable hg
  have hhigh : ∀ g ∈ G, load e g ≤ Fintype.card ι / G.card + 1 := by
    intro g hg
    rw [← hsum]
    exact Finset.EquitableOn.le_add_one he.equitable hg
  -- what stays in a bin counts in both assignments
  have hstay : (Finset.univ.filter fun i => f i = e i).card ≤ ∑ g ∈ G, min (load f g) (load e g) := by
    have hmaps : ((Finset.univ.filter fun i => f i = e i : Finset ι) : Set ι).MapsTo e G :=
      fun i _ => he.valid i
    rw [Finset.card_eq_sum_card_fiberwise hmaps]
    apply Finset.sum_le_sum
    intro g _
    rw [Finset.filter_filter]
    apply le_min
    · apply Finset.card_le_card
      apply Finset.monotone_filter_right
      rintro i - ⟨hi, hg⟩
      exact hi.trans hg
    · apply Finset.card_le_card
      apply Finset.monotone_filter_right
      rintro i - ⟨-, hg⟩
      exact hg
  have hshare : ∑ g ∈ G, min (load f g) (load e g) ≤
      ∑ g ∈ G, min (load f g) (Fintype.card ι / G.card) + Fintype.card ι % G.card := by
    have hover : ∑ g ∈ G, (load e g - Fintype.card ι / G.card) = Fintype.card ι % G.card := by
      have hsub := Finset.sum_tsub_distrib G hlow
      rw [hsub, hsum, Finset.sum_const, smul_eq_mul]
      have hdiv := Nat.div_add_mod (Fintype.card ι) G.card
      omega
    calc ∑ g ∈ G, min (load f g) (load e g)
        ≤ ∑ g ∈ G, (min (load f g) (Fintype.card ι / G.card) +
            (load e g - Fintype.card ι / G.card)) := by
          apply Finset.sum_le_sum
          intro g _
          omega
      _ = ∑ g ∈ G, min (load f g) (Fintype.card ι / G.card) + Fintype.card ι % G.card := by
          rw [Finset.sum_add_distrib, hover]
  have hmax : ∑ g ∈ G, min (load f g) (load e g) ≤
      ∑ g ∈ G, min (load f g) (Fintype.card ι / G.card + 1) := by
    apply Finset.sum_le_sum
    intro g hg
    exact min_le_min_left _ (hhigh g hg)
  have hkeep : (Finset.univ.filter fun i => f i = e i).card ≤
      keepable (Fintype.card ι) G (load f) := hstay.trans (le_min hshare hmax)
  have hsplit := Finset.card_filter_add_card_filter_not (s := Finset.univ) fun i => f i = e i
  rw [Finset.card_univ] at hsplit
  have hdist : hammingDist f e = (Finset.univ.filter fun i => ¬ f i = e i).card := rfl
  omega

/-! ## Moves -/

/-- Getting from `f` to `f'` has used up no more of what can be kept than it has moved. -/
def Frugal (G : Finset γ) (f f' : ι → γ) : Prop :=
  hammingDist f f' + keepable (Fintype.card ι) G (load f) ≤ keepable (Fintype.card ι) G (load f')

theorem Frugal.refl (G : Finset γ) (f : ι → γ) : Frugal G f f := by
  rw [Frugal, hammingDist_self, Nat.zero_add]

theorem Frugal.trans (h : Frugal G f f') (h' : Frugal G f' f'') : Frugal G f f'' := by
  have htriangle := hammingDist_triangle f f' f''
  simp only [Frugal] at h h' ⊢
  omega

/-- A frugal way is not longer than the way to any even assignment. -/
theorem Frugal.hammingDist_le (h : Frugal G f f') {e : ι → γ} (he : EvenOver G e) :
    hammingDist f f' ≤ hammingDist f e := by
  have hle := he.card_le f
  have hkeep := keepable_le (Fintype.card ι) G (load f')
  simp only [Frugal] at h
  omega

variable [DecidableEq ι] {i : ι} {g : γ}

theorem load_update_self (h : f i ≠ g) : load (Function.update f i g) g = load f g + 1 := by
  have hset : Finset.univ.filter (Function.update f i g · = g) =
      insert i (Finset.univ.filter (f · = g)) := by
    ext j
    by_cases hj : j = i
    · simp [hj]
    · simp [hj]
  rw [load, hset, Finset.card_insert_of_notMem (by simpa using h), load]

theorem load_update_from (h : f i ≠ g) : load (Function.update f i g) (f i) + 1 = load f (f i) := by
  have hset : Finset.univ.filter (Function.update f i g · = f i) =
      (Finset.univ.filter (f · = f i)).erase i := by
    ext j
    by_cases hj : j = i
    · simp [hj, h.symm]
    · simp [hj]
  rw [load, hset, Finset.card_erase_add_one (by simp), load]

theorem load_update_of_ne {g' : γ} (hg : g' ≠ g) (hi : g' ≠ f i) :
    load (Function.update f i g) g' = load f g' := by
  rw [load, load]
  congr 1
  apply Finset.filter_congr
  intro j _
  by_cases hj : j = i
  · simp [hj, hg.symm, hi.symm]
  · simp [Function.update_of_ne hj]

theorem hammingDist_update_le (f : ι → γ) (i : ι) (g : γ) :
    hammingDist f (Function.update f i g) ≤ 1 := by
  rw [hammingDist]
  apply Finset.card_le_one.mpr
  have hat : ∀ j ∈ Finset.univ.filter (fun j => f j ≠ Function.update f i g j), j = i := by
    intro j hj
    by_contra hne
    simp [Function.update_of_ne hne] at hj
  intro a ha b hb
  rw [hat a ha, hat b hb]

/-- An item in no bin goes to a least loaded one. -/
theorem Frugal.place (hi : f i ∉ G) (hg : g ∈ G) (hleast : ∀ g' ∈ G, load f g ≤ load f g') :
    Frugal G f (Function.update f i g) := by
  have hne : f i ≠ g := by
    intro heq
    exact hi (heq ▸ hg)
  have hsum : ∑ g ∈ G, load f g < Fintype.card ι := by
    rw [sum_load, ← Finset.card_univ]
    apply Finset.card_lt_card
    rw [Finset.filter_ssubset]
    exact ⟨i, Finset.mem_univ i, hi⟩
  have hmoved := hammingDist_update_le f i g
  -- the bins of `G` other than `g` keep their loads
  have hkeep : keepable (Fintype.card ι) G (load f) + 1 ≤
      keepable (Fintype.card ι) G (load (Function.update f i g)) := by
    apply keepable_place hg hleast hsum (load_update_self hne)
    intro g' hg' heq
    exact load_update_of_ne heq fun h => hi (h ▸ hg')
  simp only [Frugal]
  omega

/-- An item goes from a most loaded bin to a least loaded one that has two fewer. -/
theorem Frugal.shift (hf : ∀ j, f j ∈ G) (hg : g ∈ G) (hleast : ∀ g' ∈ G, load f g ≤ load f g')
    (hmost : ∀ g' ∈ G, load f g' ≤ load f (f i)) (hgap : load f g + 2 ≤ load f (f i)) :
    Frugal G f (Function.update f i g) ∧ keepable (Fintype.card ι) G (load f) <
      keepable (Fintype.card ι) G (load (Function.update f i g)) := by
  have hne : f i ≠ g := by
    intro heq
    rw [heq] at hgap
    omega
  have hvalid : ∀ j, Function.update f i g j ∈ G := by
    intro j
    by_cases hj : j = i
    · simpa [hj] using hg
    · simpa [Function.update_of_ne hj] using hf j
  have hmoved := hammingDist_update_le f i g
  have hkeep := keepable_shift hg (hf i) hleast hmost hgap (sum_load_of_valid hf)
    (sum_load_of_valid hvalid) (load_update_self hne) (load_update_from hne)
    (fun g' h₁ h₂ => load_update_of_ne h₁ h₂)
  simp only [Frugal]
  constructor
  · omega
  · omega

end Assignments

end DistSys.Lib
