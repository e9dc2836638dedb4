import Mathlib.Data.List.AList

/- Finite maps with a loop over their entries.

   The maps are association lists without a repeated key; reading and assignment
   are `lookup` and `insert`. A loop that looks at each entry on its own, and keeps,
   changes or deletes it, is `filterMap`; a loop whose body may fail to return is
   `traverse`. What such a loop leaves at a key depends on the entry at that key
   only, so the order it takes the entries in does not matter. -/
namespace DistSys.Lib

abbrev FinMap (κ ν : Type*) := AList fun _ : κ => ν

namespace FinMap

variable {κ ν ω : Type*} [DecidableEq κ]

theorem lookup_insert_ite (m : FinMap κ ν) (k : κ) (v : ν) (a : κ) :
    (m.insert k v).lookup a = if a = k then some v else m.lookup a := by
  by_cases ha : a = k
  · subst ha
    rw [if_pos rfl, AList.lookup_insert]
  · rw [if_neg ha, AList.lookup_insert_ne ha]

theorem lookup_singleton (k : κ) (v : ν) (a : κ) :
    (AList.singleton k v : FinMap κ ν).lookup a = if a = k then some v else none := by
  rw [← AList.insert_empty, lookup_insert_ite, AList.lookup_empty]

/-- Every entry is replaced or deleted. -/
def filterMap (f : κ → ν → Option ω) (m : FinMap κ ν) : FinMap κ ω where
  entries := m.entries.filterMap fun e => (f e.1 e.2).map (Sigma.mk e.1)
  nodupKeys := by
    rw [List.nodupKeys_iff_pairwise, List.pairwise_filterMap]
    refine (List.nodupKeys_iff_pairwise.mp m.nodupKeys).imp ?_
    intro e e' hne b hb b' hb'
    obtain ⟨w, -, rfl⟩ := Option.map_eq_some_iff.mp hb
    obtain ⟨w', -, rfl⟩ := Option.map_eq_some_iff.mp hb'
    exact hne

@[simp] theorem lookup_filterMap (f : κ → ν → Option ω) (m : FinMap κ ν) (a : κ) :
    (m.filterMap f).lookup a = (m.lookup a).bind (f a) := by
  ext w
  rw [← Option.mem_def, AList.mem_lookup_iff, Option.bind_eq_some_iff]
  simp only [filterMap, List.mem_filterMap, Option.map_eq_some_iff]
  constructor
  · rintro ⟨⟨k, v⟩, hmem, w', hw', heq⟩
    obtain ⟨rfl, rfl⟩ : k = a ∧ w' = w := by simpa using heq
    exact ⟨v, AList.mem_lookup_iff.mpr hmem, hw'⟩
  · rintro ⟨v, hv, hw⟩
    exact ⟨⟨a, v⟩, AList.mem_lookup_iff.mp hv, w, hw, rfl⟩

/-- Every entry is replaced, if the body returns on all of them. -/
def traverse (f : κ → ν → Option ω) (m : FinMap κ ν) : Option (FinMap κ ω) :=
  if m.entries.all fun e => (f e.1 e.2).isSome then some (m.filterMap f) else none

theorem traverse_eq_some {f : κ → ν → Option ω} {m : FinMap κ ν}
    (h : ∀ a v, m.lookup a = some v → (f a v).isSome) : m.traverse f = some (m.filterMap f) := by
  refine if_pos (List.all_eq_true.mpr ?_)
  rintro ⟨a, v⟩ hmem
  exact h a v (AList.mem_lookup_iff.mpr hmem)

theorem traverse_eq_none {f : κ → ν → Option ω} {m : FinMap κ ν} {a : κ} {v : ν}
    (ha : m.lookup a = some v) (h : f a v = none) : m.traverse f = none := by
  refine if_neg fun hall => ?_
  have hv := List.all_eq_true.mp hall ⟨a, v⟩ (AList.mem_lookup_iff.mp ha)
  simp [h] at hv

end FinMap

end DistSys.Lib
