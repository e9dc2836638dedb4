import Mathlib.Data.List.Dedup
import Mathlib.Data.List.Perm.Lattice
import Mathlib.Order.Lattice

/- Grouping records by key.

   A program that sorts its records and takes the runs of equal keys one after
   another gets one group for each key. What it computes from the groups does then
   not depend on the order the records came in, when it does not depend on the order in
   a group (`runs_of_sorted`); and it can be done apart for the parts of any split of the
   keys (`grouped_split`). -/
namespace DistSys.Lib

variable {ρ κ β : Type*}

section Runs

variable [DecidableEq κ] (key : ρ → κ)

/-- The longest runs of records with one key. -/
def runs : List ρ → List (κ × List ρ)
  | [] => []
  | x :: xs =>
    match runs xs with
    | [] => [(key x, [x])]
    | (k, g) :: gs => if key x = k then (k, x :: g) :: gs else (key x, [x]) :: (k, g) :: gs

/-- What `f` computes from each group of records, the groups in no particular order. -/
def grouped (f : κ → List ρ → β) (l : List ρ) : List β :=
  (l.map key).dedup.map fun k => f k (l.filter fun x => key x = k)

variable {key}

theorem runs_flatten (l : List ρ) : (runs key l).flatMap Prod.snd = l := by
  induction l with
  | nil => rfl
  | cons x xs ih =>
    unfold runs
    split
    · rename_i heq
      rw [heq] at ih
      simpa using ih
    · rename_i k g gs heq
      rw [heq] at ih
      split
      · simpa using ih
      · simpa using ih

/-- The first run goes as far as its key does. -/
theorem runs_cons (x : ρ) (xs : List ρ) :
    runs key (x :: xs) = (key x, x :: xs.takeWhile fun y => key y = key x) ::
      runs key (xs.dropWhile fun y => key y = key x) := by
  induction xs generalizing x with
  | nil => rfl
  | cons y ys ih =>
    rw [runs, ih y]
    by_cases hxy : key x = key y
    · simp [hxy]
    · rw [List.takeWhile_cons_of_neg (by simpa using Ne.symm hxy),
        List.dropWhile_cons_of_neg (by simpa using Ne.symm hxy), ih y]
      simp [hxy]

theorem key_of_mem_runs {l : List ρ} : ∀ p ∈ runs key l, p.2 ≠ [] ∧ ∀ x ∈ p.2, key x = p.1 := by
  induction l with
  | nil => simp [runs]
  | cons x xs ih =>
    unfold runs
    split
    · simp
    · rename_i k g gs heq
      rw [heq] at ih
      split
      · rename_i hk
        intro p hp
        rcases List.mem_cons.mp hp with rfl | hp
        · obtain ⟨-, hg⟩ := ih (k, g) List.mem_cons_self
          exact ⟨by simp, by simpa [hk] using hg⟩
        · exact ih p (List.mem_cons_of_mem _ hp)
      · intro p hp
        rcases List.mem_cons.mp hp with rfl | hp
        · simp
        · exact ih p hp

theorem mem_keys_runs {l : List ρ} {k : κ} : k ∈ (runs key l).map Prod.fst ↔ k ∈ l.map key := by
  constructor
  · intro hk
    obtain ⟨p, hp, rfl⟩ := List.mem_map.mp hk
    obtain ⟨hne, hkey⟩ := key_of_mem_runs p hp
    obtain ⟨x, hx⟩ := List.exists_mem_of_ne_nil _ hne
    have hflat : (runs key l).flatMap Prod.snd = l := runs_flatten l
    refine List.mem_map.mpr ⟨x, ?_, hkey x hx⟩
    rw [← hflat]
    exact List.mem_flatMap.mpr ⟨p, hp, hx⟩
  · intro hk
    obtain ⟨x, hx, rfl⟩ := List.mem_map.mp hk
    have hflat : (runs key l).flatMap Prod.snd = l := runs_flatten l
    rw [← hflat] at hx
    obtain ⟨p, hp, hxp⟩ := List.mem_flatMap.mp hx
    exact List.mem_map.mpr ⟨p, hp, ((key_of_mem_runs p hp).2 x hxp).symm⟩

/-- With no key in two runs, a run is all records of its key. -/
theorem run_eq_filter {l : List ρ} (hnodup : ((runs key l).map Prod.fst).Nodup)
    {p : κ × List ρ} (hp : p ∈ runs key l) : p.2 = l.filter fun x => key x = p.1 := by
  have hpart : ∀ (gs : List (κ × List ρ)), (gs.map Prod.fst).Nodup →
      (∀ q ∈ gs, ∀ x ∈ q.2, key x = q.1) → p ∈ gs →
      (gs.flatMap Prod.snd).filter (fun x => key x = p.1) = p.2 := by
    intro gs
    induction gs with
    | nil => simp
    | cons q gs ih =>
      intro hnodup hkeys hmem
      rw [List.map_cons, List.nodup_cons] at hnodup
      rw [List.flatMap_cons, List.filter_append]
      rcases List.mem_cons.mp hmem with rfl | hmem
      · -- the rest has other keys
        rw [List.filter_eq_self.mpr fun x hx => by simp [hkeys p List.mem_cons_self x hx],
          List.filter_eq_nil_iff.mpr ?_, List.append_nil]
        intro x hx
        obtain ⟨r, hr, hxr⟩ := List.mem_flatMap.mp hx
        have hne : r.1 ≠ p.1 := fun heq => hnodup.1 (heq ▸ List.mem_map_of_mem hr)
        simpa [hkeys r (List.mem_cons_of_mem _ hr) x hxr] using hne
      · have hne : q.1 ≠ p.1 := fun heq => hnodup.1 (heq ▸ List.mem_map_of_mem hmem)
        rw [List.filter_eq_nil_iff.mpr fun x hx => by
            simpa [hkeys q List.mem_cons_self x hx] using hne, List.nil_append]
        exact ih hnodup.2 (fun r hr => hkeys r (List.mem_cons_of_mem _ hr)) hmem
  have hrun := hpart (runs key l) hnodup (fun q hq => (key_of_mem_runs q hq).2) hp
  rw [runs_flatten] at hrun
  exact hrun.symm

theorem grouped_perm {f : κ → List ρ → β}
    (hf : ∀ k g g', g.Perm g' → f k g = f k g') {l m : List ρ} (h : l.Perm m) :
    (grouped key f l).Perm (grouped key f m) := by
  have hmap : (l.map key).dedup.map (fun k => f k (l.filter fun x => key x = k)) =
      (l.map key).dedup.map (fun k => f k (m.filter fun x => key x = k)) := by
    refine List.map_congr_left ?_
    intro k _
    exact hf k _ _ (h.filter _)
  unfold grouped
  rw [hmap]
  exact ((h.map key).dedup).map _

/-- The parts of a split of the keys, each grouped apart. -/
theorem grouped_split (f : κ → List ρ → β) (part : κ → ℕ) {n : ℕ} (hpart : ∀ k, part k < n)
    (l : List ρ) :
    ((List.range n).flatMap fun r => grouped key f (l.filter fun x => part (key x) = r)).Perm
      (grouped key f l) := by
  -- in its part, a key has all its records
  have hfilter : ∀ r, grouped key f (l.filter fun x => part (key x) = r) =
      ((l.filter fun x => part (key x) = r).map key).dedup.map
        fun k => f k (l.filter fun x => key x = k) := by
    intro r
    refine List.map_congr_left ?_
    intro k hk
    obtain ⟨y, hy, rfl⟩ := List.mem_map.mp (List.mem_dedup.mp hk)
    have hr : part (key y) = r := by simpa using (List.mem_filter.mp hy).2
    rw [List.filter_filter]
    congr 1
    refine List.filter_congr ?_
    intro x _
    by_cases hx : key x = key y
    · simp [hx, hr]
    · simp [hx]
  simp only [hfilter]
  rw [← List.map_flatMap]
  refine List.Perm.map _ ?_
  refine (List.perm_ext_iff_of_nodup ?_ (List.nodup_dedup _)).mpr ?_
  · refine List.nodup_flatMap.mpr ⟨fun r _ => List.nodup_dedup _, ?_⟩
    refine List.nodup_range.imp ?_
    intro r r' hne k hk hk'
    have hpartOf : ∀ {r : ℕ}, k ∈ ((l.filter fun x => part (key x) = r).map key).dedup →
        part k = r := by
      intro r hk
      obtain ⟨y, hy, rfl⟩ := List.mem_map.mp (List.mem_dedup.mp hk)
      simpa using (List.mem_filter.mp hy).2
    exact hne ((hpartOf hk).symm.trans (hpartOf hk'))
  · intro k
    simp only [List.mem_flatMap, List.mem_range, List.mem_dedup, List.mem_map, List.mem_filter,
      decide_eq_true_eq]
    constructor
    · rintro ⟨r, -, x, ⟨hx, -⟩, rfl⟩
      exact ⟨x, hx, rfl⟩
    · rintro ⟨x, hx, rfl⟩
      exact ⟨part (key x), hpart _, x, ⟨hx, rfl⟩, rfl⟩

end Runs

section Sorted

variable [LinearOrder κ] {key : ρ → κ}

/-- In a sorted list every key has one run. -/
theorem runs_sorted {l : List ρ} (h : l.Pairwise fun x y => key x ≤ key y) :
    ((runs key l).map Prod.fst).Pairwise (· < ·) := by
  induction l with
  | nil => simp [runs]
  | cons x xs ih =>
    obtain ⟨hx, hxs⟩ := List.pairwise_cons.mp h
    have ih := ih hxs
    unfold runs
    split
    · simp
    · rename_i k g gs heq
      rw [heq] at ih
      split
      · exact ih
      · rename_i hne
        have hk : k ∈ xs.map key := mem_keys_runs.mp (by rw [heq]; simp)
        obtain ⟨y, hy, rfl⟩ := List.mem_map.mp hk
        have hlt : key x < key y := lt_of_le_of_ne (hx y hy) hne
        rw [List.map_cons, List.map_cons, List.pairwise_cons] at *
        refine ⟨?_, by simpa using ih⟩
        intro k' hk'
        rcases List.mem_cons.mp hk' with rfl | hk'
        · exact hlt
        · exact hlt.trans (ih.1 k' hk')

/-- The runs of a sorted list are the groups of any list with the same records. -/
theorem runs_of_sorted {f : κ → List ρ → β} (hf : ∀ k g g', g.Perm g' → f k g = f k g')
    {l m : List ρ} (hsorted : l.Pairwise fun x y => key x ≤ key y) (hperm : l.Perm m) :
    ((runs key l).map fun p => f p.1 p.2).Perm (grouped key f m) := by
  have hnodup : ((runs key l).map Prod.fst).Nodup := (runs_sorted hsorted).imp fun h => ne_of_lt h
  have hruns : (runs key l).map (fun p => f p.1 p.2) =
      ((runs key l).map Prod.fst).map fun k => f k (l.filter fun x => key x = k) := by
    rw [List.map_map]
    refine List.map_congr_left ?_
    intro p hp
    rw [Function.comp_apply, ← run_eq_filter hnodup hp]
  have hkeys : ((runs key l).map Prod.fst).Perm (l.map key).dedup := by
    refine (List.perm_ext_iff_of_nodup hnodup (List.nodup_dedup _)).mpr ?_
    intro k
    rw [mem_keys_runs, List.mem_dedup]
  rw [hruns]
  exact (hkeys.map _).trans (grouped_perm hf hperm)

end Sorted

end DistSys.Lib
