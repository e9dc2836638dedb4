import Mathlib.Data.Fintype.Fin
import Mathlib.Data.Fintype.Card
import Mathlib.Order.Basic

/- `QuickSelect` of raft1/util.go: the k-th smallest element of an array, by
   partitioning it in place around a middle element and narrowing the window
   that holds position `k`.

   `quickSelect_spec`: for `k` inside the array the loop ends, the array is only
   permuted, and the value returned has no larger element before position `k`
   and no smaller one from it on. `quickSelect_counts` counts what a leader
   needs of it: at least `size - k` elements are as large as the answer, and
   fewer than that are larger. `quickSelect_correct` is about the same function over
   integer indices, each access checked against the bounds. -/
namespace DistSys.Raft1

variable {α : Type*} [LinearOrder α] [Inhabited α]

/-- The inner loop: `m` positions left to scan from `j`, the elements below the
pivot being collected from the left end up to `i`. -/
def partitionLoop (pivot : α) : Nat → Nat → Nat → Array α → Array α × Nat
  | 0, _, i, array => (array, i)
  | m + 1, j, i, array =>
    if array[j]! < pivot then
      partitionLoop pivot m (j + 1) (i + 1) (array.swapIfInBounds i j)
    else
      partitionLoop pivot m (j + 1) i array

/-- The outer loop on the window `left..right`; `none` when the fuel is used up. -/
def quickSelectLoop (k : Nat) : Nat → Nat → Nat → Array α → Option (α × Array α)
  | 0, _, _, _ => none
  | fuel + 1, left, right, array =>
    if left = right then some (array[left]!, array)
    else
      let idx := (left + right) / 2
      let pivot := array[idx]!
      let array := array.swapIfInBounds idx right
      let parts := partitionLoop pivot (right - left) left left array
      let i := parts.2
      let array := parts.1.swapIfInBounds i right
      if k = i then some (array[i]!, array)
      else if k < i then quickSelectLoop k fuel left (i - 1) array
      else quickSelectLoop k fuel (i + 1) right array

/-- The answer and the array as it is left behind. -/
def quickSelect (array : Array α) (k : Nat) : Option (α × Array α) :=
  quickSelectLoop k array.size 0 (array.size - 1) array

example : (quickSelect #[5, 1, 4, 1, 3] 2).map Prod.fst = some 3 := by decide

/-! ## Rearranging a window -/

/-- `b` is `a` rearranged inside the positions `left..right`. -/
structure Rearranged (left right : Nat) (a b : Array α) : Prop where
  size : b.size = a.size
  perm : b.Perm a
  outside : ∀ x, x < left ∨ right < x → b[x]! = a[x]!
  inside : ∀ x, left ≤ x → x ≤ right → ∃ y, left ≤ y ∧ y ≤ right ∧ b[x]! = a[y]!

omit [LinearOrder α] in
theorem Rearranged.refl {left right : Nat} (a : Array α) : Rearranged left right a a where
  size := rfl
  perm := Array.Perm.refl a
  outside := fun _ _ => rfl
  inside := fun x h₁ h₂ => ⟨x, h₁, h₂, rfl⟩

omit [LinearOrder α] in
theorem Rearranged.trans {left right : Nat} {a b c : Array α} (h : Rearranged left right a b)
    (h' : Rearranged left right b c) : Rearranged left right a c where
  size := h'.size.trans h.size
  perm := h'.perm.trans h.perm
  outside := fun x hx => (h'.outside x hx).trans (h.outside x hx)
  inside := by
    intro x h₁ h₂
    obtain ⟨y, hy₁, hy₂, hy⟩ := h'.inside x h₁ h₂
    obtain ⟨z, hz₁, hz₂, hz⟩ := h.inside y hy₁ hy₂
    exact ⟨z, hz₁, hz₂, hy.trans hz⟩

omit [LinearOrder α] in
theorem Rearranged.widen {left right left' right' : Nat} {a b : Array α}
    (h : Rearranged left right a b) (hl : left' ≤ left) (hr : right ≤ right') :
    Rearranged left' right' a b where
  size := h.size
  perm := h.perm
  outside := fun x hx => h.outside x (by omega)
  inside := by
    intro x h₁ h₂
    by_cases hx : left ≤ x ∧ x ≤ right
    · obtain ⟨y, hy₁, hy₂, hy⟩ := h.inside x hx.1 hx.2
      exact ⟨y, by omega, by omega, hy⟩
    · exact ⟨x, h₁, h₂, h.outside x (by omega)⟩

omit [LinearOrder α] in
theorem getElem!_swap {a : Array α} {i j : Nat} (hi : i < a.size) (hj : j < a.size) (x : Nat) :
    (a.swapIfInBounds i j)[x]! = if x = i then a[j]! else if x = j then a[i]! else a[x]! := by
  grind

omit [LinearOrder α] in
theorem Rearranged.swap {left right : Nat} (a : Array α) {i j : Nat} (hr : right < a.size)
    (hi₁ : left ≤ i) (hi₂ : i ≤ right) (hj₁ : left ≤ j) (hj₂ : j ≤ right) :
    Rearranged left right a (a.swapIfInBounds i j) where
  size := Array.size_swapIfInBounds
  perm := by
    have h₁ : i < a.size := by omega
    have h₂ : j < a.size := by omega
    simpa [Array.swapIfInBounds_def, h₁, h₂] using Array.swap_perm h₁ h₂
  outside := by
    intro x hx
    rw [getElem!_swap (by omega) (by omega), if_neg (by omega), if_neg (by omega)]
  inside := by
    intro x h₁ h₂
    rw [getElem!_swap (by omega) (by omega)]
    split
    · exact ⟨j, hj₁, hj₂, rfl⟩
    · split
      · exact ⟨i, hi₁, hi₂, rfl⟩
      · exact ⟨x, h₁, h₂, rfl⟩

/-! ## The partition -/

/-- The zones of the scan: below the pivot up to `i`, not below it from `i` to `j`. -/
def Zones (pivot : α) (left i j : Nat) (a : Array α) : Prop :=
  (∀ x, left ≤ x → x < i → a[x]! < pivot) ∧ (∀ x, i ≤ x → x < j → pivot ≤ a[x]!)

theorem partitionLoop_spec (pivot : α) {left right : Nat} :
    ∀ (m j i : Nat) (a : Array α), left ≤ i → i ≤ j → j + m = right → right < a.size →
      Zones pivot left i j a →
      Rearranged left right a (partitionLoop pivot m j i a).1 ∧
        (partitionLoop pivot m j i a).1[right]! = a[right]! ∧
        i ≤ (partitionLoop pivot m j i a).2 ∧ (partitionLoop pivot m j i a).2 ≤ right ∧
        Zones pivot left (partitionLoop pivot m j i a).2 right (partitionLoop pivot m j i a).1 := by
  intro m
  induction m with
  | zero =>
    intro j i a hli hij hm hr hz
    obtain rfl : j = right := by omega
    exact ⟨Rearranged.refl a, rfl, Nat.le_refl _, hij, hz⟩
  | succ m ih =>
    intro j i a hli hij hm hr hz
    simp only [partitionLoop]
    split
    · rename_i hlt
      -- the element at `j` joins the low zone, the first of the high zone takes its place
      have hsw : ∀ x, (a.swapIfInBounds i j)[x]! =
          if x = i then a[j]! else if x = j then a[i]! else a[x]! :=
        getElem!_swap (by omega) (by omega)
      have hz' : Zones pivot left (i + 1) (j + 1) (a.swapIfInBounds i j) := by
        refine ⟨fun x h₁ h₂ => ?_, fun x h₁ h₂ => ?_⟩
        · rw [hsw]
          by_cases hx : x = i
          · rw [if_pos hx]; exact hlt
          · rw [if_neg hx, if_neg (by omega)]
            exact hz.1 x h₁ (by omega)
        · rw [hsw, if_neg (by omega)]
          by_cases hx : x = j
          · rw [if_pos hx]; exact hz.2 i (Nat.le_refl _) (by omega)
          · rw [if_neg hx]; exact hz.2 x (by omega) (by omega)
      obtain ⟨h₁, h₂, h₃, h₄, h₅⟩ := ih (j + 1) (i + 1) (a.swapIfInBounds i j) (by omega) (by omega)
        (by omega) (by simpa using hr) hz'
      refine ⟨(Rearranged.swap a hr hli (by omega) (by omega) (by omega)).trans h₁, ?_,
        by omega, h₄, h₅⟩
      rw [h₂, hsw, if_neg (by omega), if_neg (by omega)]
    · rename_i hge
      have hz' : Zones pivot left i (j + 1) a := by
        refine ⟨hz.1, fun x h₁ h₂ => ?_⟩
        by_cases hx : x = j
        · subst hx; exact not_lt.mp hge
        · exact hz.2 x h₁ (by omega)
      exact ih (j + 1) i a hli (by omega) (by omega) hr hz'

/-! ## The selection -/

/-- Position `p` splits the array: nothing larger before it, nothing smaller from it on. -/
def Splits (a : Array α) (p : Nat) : Prop :=
  (∀ x, x < p → a[x]! ≤ a[p]!) ∧ (∀ x, p ≤ x → x < a.size → a[p]! ≤ a[x]!)

/-- Everything before the window is at most, everything after it at least, what is in it. -/
structure Window (a : Array α) (left right : Nat) : Prop where
  low : ∀ x y, x < left → left ≤ y → y ≤ right → a[x]! ≤ a[y]!
  high : ∀ x y, left ≤ x → x ≤ right → right < y → y < a.size → a[x]! ≤ a[y]!

theorem Window.rearranged {a b : Array α} {left right : Nat} (h : Window a left right)
    (hr : Rearranged left right a b) : Window b left right where
  low := by
    intro x y h₁ h₂ h₃
    obtain ⟨z, hz₁, hz₂, hz⟩ := hr.inside y h₂ h₃
    rw [hr.outside x (Or.inl h₁), hz]
    exact h.low x z h₁ hz₁ hz₂
  high := by
    intro x y h₁ h₂ h₃ h₄
    obtain ⟨z, hz₁, hz₂, hz⟩ := hr.inside x h₁ h₂
    rw [hr.outside y (Or.inr h₃), hz]
    exact h.high z y hz₁ hz₂ h₃ (hr.size ▸ h₄)

theorem quickSelectLoop_spec (k : Nat) :
    ∀ (fuel left right : Nat) (a : Array α), right - left < fuel → left ≤ k → k ≤ right →
      right < a.size → Window a left right →
      ∃ b, quickSelectLoop k fuel left right a = some (b[k]!, b) ∧ Rearranged left right a b ∧
        Splits b k := by
  intro fuel
  induction fuel with
  | zero => intro left right a h; omega
  | succ fuel ih =>
    intro left right a hf hlk hkr hra hw
    simp only [quickSelectLoop]
    by_cases hlr : left = right
    · obtain rfl : k = left := by omega
      rw [if_pos hlr]
      refine ⟨a, rfl, Rearranged.refl a, fun x hx => hw.low x k hx (Nat.le_refl _) hkr, ?_⟩
      intro x h₁ h₂
      rcases Nat.eq_or_lt_of_le h₁ with rfl | h₁
      · exact le_rfl
      · exact hw.high k x (Nat.le_refl _) hkr (by omega) h₂
    · rw [if_neg hlr]
      generalize hidx : (left + right) / 2 = idx
      generalize hpv : a[idx]! = pivot
      generalize ha₁ : a.swapIfInBounds idx right = a₁
      have hR₁ : Rearranged left right a a₁ :=
        ha₁ ▸ Rearranged.swap a hra (by omega) (by omega) (by omega) (Nat.le_refl _)
      have hpivot : a₁[right]! = pivot := by
        rw [← ha₁, getElem!_swap (by omega) hra, ← hpv]
        split
        · rename_i h; rw [h]
        · rw [if_pos rfl]
      obtain ⟨hR₂, hlast, hi₁, hi₂, hz⟩ := partitionLoop_spec pivot (right - left)
        left left a₁ (Nat.le_refl _) (Nat.le_refl _) (show left + (right - left) = right by omega)
        (by rw [hR₁.size]; exact hra)
        ⟨fun x _ _ => by omega, fun x _ _ => by omega⟩
      generalize hparts : partitionLoop pivot (right - left) left left a₁ = parts at *
      obtain ⟨a₂, i⟩ := parts
      simp only at hR₂ hlast hi₁ hi₂ hz ⊢
      have hsz₂ : a₂.size = a.size := hR₂.size.trans hR₁.size
      generalize ha₃ : a₂.swapIfInBounds i right = a₃
      have hR : Rearranged left right a a₃ :=
        (hR₁.trans hR₂).trans
          (ha₃ ▸ Rearranged.swap a₂ (by omega) hi₁ hi₂ (by omega) (Nat.le_refl _))
      have hsw : ∀ x, a₃[x]! = if x = i then a₂[right]! else if x = right then a₂[i]! else a₂[x]! :=
        fun x => ha₃ ▸ getElem!_swap (by omega) (by omega) x
      have hw₃ := hw.rearranged hR
      -- after the last exchange the pivot stands at `i` between the two zones
      have hat : a₃[i]! = pivot := by rw [hsw, if_pos rfl, hlast, hpivot]
      have hlo : ∀ x, left ≤ x → x < i → a₃[x]! < pivot := by
        intro x h₁ h₂
        rw [hsw, if_neg (by omega), if_neg (by omega)]
        exact hz.1 x h₁ h₂
      have hhi : ∀ x, i ≤ x → x ≤ right → pivot ≤ a₃[x]! := by
        intro x h₁ h₂
        rw [hsw]
        split
        · rw [hlast, hpivot]
        · split
          · exact hz.2 i (Nat.le_refl _) (by omega)
          · exact hz.2 x h₁ (by omega)
      by_cases hki : k = i
      · rw [if_pos hki]
        subst hki
        refine ⟨a₃, rfl, hR, fun x hx => ?_, fun x h₁ h₂ => ?_⟩
        · rcases Nat.lt_or_ge x left with h | h
          · exact hw₃.low x k h hi₁ hi₂
          · rw [hat]; exact (hlo x h hx).le
        · rcases Nat.lt_or_ge right x with h | h
          · exact hw₃.high k x hi₁ hi₂ h h₂
          · rw [hat]; exact hhi x h₁ h
      · rw [if_neg hki]
        by_cases hlt : k < i
        · rw [if_pos hlt]
          have hw' : Window a₃ left (i - 1) := by
            refine ⟨fun x y h₁ h₂ h₃ => hw₃.low x y h₁ h₂ (by omega), fun x y h₁ h₂ h₃ h₄ => ?_⟩
            rcases Nat.lt_or_ge right y with h | h
            · exact hw₃.high x y h₁ (by omega) h h₄
            · exact (hlo x h₁ (by omega)).le.trans (hhi y (by omega) h)
          obtain ⟨b, hb, hRb, hs⟩ := ih left (i - 1) a₃ (by omega) hlk (by omega)
            (by rw [hR.size]; omega) hw'
          exact ⟨b, hb, hR.trans (hRb.widen (Nat.le_refl _) (by omega)), hs⟩
        · rw [if_neg hlt]
          have hw' : Window a₃ (i + 1) right := by
            refine ⟨fun x y h₁ h₂ h₃ => ?_, fun x y h₁ h₂ h₃ h₄ => hw₃.high x y (by omega) h₂ h₃ h₄⟩
            rcases Nat.lt_or_ge x left with h | h
            · exact hw₃.low x y h (by omega) h₃
            · refine le_trans ?_ (hhi y (by omega) h₃)
              rcases Nat.eq_or_lt_of_le (show x ≤ i by omega) with rfl | h'
              · exact hat.le
              · exact (hlo x h h').le
          obtain ⟨b, hb, hRb, hs⟩ := ih (i + 1) right a₃ (by omega) (by omega) hkr
            (by rw [hR.size]; exact hra) hw'
          exact ⟨b, hb, hR.trans (hRb.widen (by omega) (Nat.le_refl _)), hs⟩

/-- `QuickSelect` ends for every position inside the array, leaves a
rearrangement of it, and returns the element that position has in it once
everything before is at most and everything after at least as large. -/
theorem quickSelect_spec (a : Array α) {k : Nat} (hk : k < a.size) :
    ∃ b, quickSelect a k = some (b[k]!, b) ∧ b.Perm a ∧ Splits b k := by
  obtain ⟨b, hb, hR, hs⟩ := quickSelectLoop_spec k a.size 0 (a.size - 1) a (by omega)
    (Nat.zero_le _) (by omega) (by omega)
    ⟨fun x y h _ _ => by omega, fun x y _ _ h₁ h₂ => by omega⟩
  exact ⟨b, hb, hR.perm, hs⟩

/-- From position `k` on, every element of a split array counts. -/
theorem Splits.countP_ge {b : Array α} {k : Nat} (hs : Splits b k) :
    b.size - k ≤ b.toList.countP (fun x => decide (b[k]! ≤ x)) := by
  have hdrop : (b.toList.drop k).countP (fun x => decide (b[k]! ≤ x)) = (b.toList.drop k).length := by
    rw [List.countP_eq_length]
    intro x hx
    obtain ⟨y, hy, rfl⟩ := List.mem_iff_getElem.mp hx
    simp only [List.length_drop, Array.length_toList] at hy
    have hlt : k + y < b.size := by omega
    have := hs.2 (k + y) (Nat.le_add_right _ _) hlt
    rw [getElem!_pos b (k + y) hlt] at this
    simpa using this
  have hle := List.Sublist.countP_le (p := fun x => decide (b[k]! ≤ x)) (List.drop_sublist k b.toList)
  rw [hdrop] at hle
  simpa using hle

/-- Up to position `k`, no element of a split array is larger than the one there. -/
theorem Splits.countP_gt {b : Array α} {k : Nat} (hs : Splits b k) (hk : k < b.size) :
    b.toList.countP (fun x => decide (b[k]! < x)) < b.size - k := by
  have htake : (b.toList.take (k + 1)).countP (fun x => decide (b[k]! < x)) = 0 := by
    rw [List.countP_eq_zero]
    intro x hx
    obtain ⟨y, hy, rfl⟩ := List.mem_iff_getElem.mp hx
    simp only [List.length_take, Array.length_toList] at hy
    have hle : b[y]! ≤ b[k]! := by
      rcases Nat.lt_or_ge y k with h | h
      · exact hs.1 y h
      · obtain rfl : y = k := by omega
        exact le_rfl
    rw [getElem!_pos b y (by omega)] at hle
    simpa using hle
  have hsplit : b.toList.countP (fun x => decide (b[k]! < x)) =
      (b.toList.drop (k + 1)).countP (fun x => decide (b[k]! < x)) := by
    conv_lhs => rw [← List.take_append_drop (k + 1) b.toList, List.countP_append, htake, Nat.zero_add]
  have hle := List.countP_le_length (p := fun x => decide (b[k]! < x)) (l := b.toList.drop (k + 1))
  rw [List.length_drop, Array.length_toList] at hle
  omega

omit [LinearOrder α] [Inhabited α] in
theorem countP_ofFn {n : Nat} (f : Fin n → α) (q : α → Prop) [DecidablePred q] :
    (List.ofFn f).countP (fun x => decide (q x)) = (Finset.univ.filter (fun p => q (f p))).card := by
  rw [← Multiset.coe_countP, ← Fin.univ_val_map, Multiset.countP_map]
  simp [Finset.card_def, Finset.filter_val]

/-- Of `n` values at least `n - k` are as large as the selected one, and fewer are larger. -/
theorem quickSelect_counts {n k : Nat} (f : Fin n → α) (hk : k < n) :
    ∃ v b, quickSelect (Array.ofFn f) k = some (v, b) ∧
      n - k ≤ (Finset.univ.filter (fun p => v ≤ f p)).card ∧
      (Finset.univ.filter (fun p => v < f p)).card < n - k := by
  obtain ⟨b, hb, hperm, hs⟩ := quickSelect_spec (Array.ofFn f) (k := k) (by simpa using hk)
  refine ⟨b[k]!, b, hb, ?_⟩
  have hsize : b.size = n := by simpa using hperm.size_eq
  have hge := hs.countP_ge
  have hgt := hs.countP_gt (by omega)
  rw [hperm.toList.countP_eq, hsize, Array.toList_ofFn, countP_ofFn f (b[k]! ≤ ·)] at hge
  rw [hperm.toList.countP_eq, hsize, Array.toList_ofFn, countP_ofFn f (b[k]! < ·)] at hgt
  exact ⟨hge, hgt⟩

/-- Of `n` values the one of rank `n - (n/2 + 1)` is the largest that more than half reach. -/
theorem quickSelect_majority {n : Nat} (f : Fin n → α) (hn : 0 < n) :
    ∃ v b, quickSelect (Array.ofFn f) (n - (n / 2 + 1)) = some (v, b) ∧
      ∀ x, n / 2 < (Finset.univ.filter (x ≤ f ·)).card ↔ x ≤ v := by
  obtain ⟨v, b, hsel, hge, hgt⟩ := quickSelect_counts f (show n - (n / 2 + 1) < n by omega)
  refine ⟨v, b, hsel, fun x => ⟨fun hx => ?_, fun hx => ?_⟩⟩
  · -- beyond `v` are fewer than `n/2 + 1` values
    by_contra hlt
    have hsub : (Finset.univ.filter (x ≤ f ·)).card ≤ (Finset.univ.filter (v < f ·)).card := by
      apply Finset.card_le_card
      apply Finset.monotone_filter_right
      intro p _ hp
      exact lt_of_lt_of_le (not_le.mp hlt) hp
    omega
  · have hsub : (Finset.univ.filter (v ≤ f ·)).card ≤ (Finset.univ.filter (x ≤ f ·)).card := by
      apply Finset.card_le_card
      apply Finset.monotone_filter_right
      intro p _ hp
      exact hx.trans hp
    omega

/-! ## With bounds checks

   Indices are integers, as in the source, and an access outside the array is a panic. -/

section Checked

/-- `array[i]`; `none` is the panic. -/
def elem? (array : Array α) (i : Int) : Option α := if i < 0 then none else array[i.toNat]?

/-- `array[i], array[j] = array[j], array[i]`; `none` is the panic. -/
def swap? (array : Array α) (i j : Int) : Option (Array α) := do
  let _ ← elem? array i
  let _ ← elem? array j
  return array.swapIfInBounds i.toNat j.toNat

/-- The inner loop; `none` is a panic, or that the fuel is used up. -/
def partitionLoop? (pivot : α) (right : Int) : Nat → Int → Int → Array α → Option (Array α × Int)
  | 0, _, _, _ => none
  | fuel + 1, j, i, array =>
    if j < right then do
      if (← elem? array j) < pivot then
        partitionLoop? pivot right fuel (j + 1) (i + 1) (← swap? array i j)
      else partitionLoop? pivot right fuel (j + 1) i array
    else some (array, i)

/-- The outer loop. -/
def quickSelectLoop? (k : Int) : Nat → Int → Int → Array α → Option (α × Array α)
  | 0, _, _, _ => none
  | fuel + 1, left, right, array =>
    if left = right then return (← elem? array left, array)
    else do
      let idx := (left + right) / 2
      let pivot ← elem? array idx
      let array ← swap? array idx right
      let (array, i) ← partitionLoop? pivot right ((right - left).toNat + 1) left left array
      let array ← swap? array i right
      if k = i then return (← elem? array i, array)
      else if k < i then quickSelectLoop? k fuel left (i - 1) array
      else quickSelectLoop? k fuel (i + 1) right array

/-- `QuickSelect` with every access checked. -/
def quickSelect? (array : Array α) (k : Int) : Option (α × Array α) :=
  quickSelectLoop? k array.size 0 (array.size - 1) array

omit [LinearOrder α] in
theorem elem?_eq {a : Array α} {i : Nat} (h : i < a.size) : elem? a i = some a[i]! := by
  have hpos : ¬ (i : Int) < 0 := by omega
  rw [elem?, if_neg hpos, Int.toNat_natCast, Array.getElem?_eq_getElem h, getElem!_pos a i h]

omit [LinearOrder α] in
theorem swap?_eq {a : Array α} {i j : Nat} (hi : i < a.size) (hj : j < a.size) :
    swap? a i j = some (a.swapIfInBounds i j) := by
  simp only [swap?, elem?_eq hi, elem?_eq hj, Option.bind_eq_bind, Option.bind_some,
    Int.toNat_natCast, Option.pure_def]

theorem partitionLoop?_eq (pivot : α) {right : Nat} :
    ∀ (m j i : Nat) (a : Array α), i ≤ j → j + m = right → right < a.size →
      partitionLoop? pivot right (m + 1) j i a =
        some ((partitionLoop pivot m j i a).1, ((partitionLoop pivot m j i a).2 : Int)) := by
  intro m
  induction m with
  | zero =>
    intro j i a _ hm _
    have hend : ¬ (j : Int) < right := by omega
    simp only [partitionLoop?, if_neg hend, partitionLoop]
  | succ m ih =>
    intro j i a hij hm hr
    have hlt : (j : Int) < right := by omega
    have hj : j < a.size := by omega
    rw [partitionLoop?, if_pos hlt, elem?_eq hj]
    simp only [Option.bind_eq_bind, Option.bind_some, partitionLoop]
    split
    · rw [swap?_eq (by omega) hj, Option.bind_some]
      exact ih (j + 1) (i + 1) _ (by omega) (by omega) (by simpa using hr)
    · exact ih (j + 1) i a (by omega) (by omega) hr

/-- While position `k` is in the window and the window in the array, every access is inside. -/
theorem quickSelectLoop?_eq (k : Nat) :
    ∀ (fuel left right : Nat) (a : Array α), left ≤ k → k ≤ right → right < a.size →
      quickSelectLoop? (k : Int) fuel left right a = quickSelectLoop k fuel left right a := by
  intro fuel
  induction fuel with
  | zero =>
    intro left right a _ _ _
    simp only [quickSelectLoop?, quickSelectLoop]
  | succ fuel ih =>
    intro left right a hlk hkr hra
    by_cases hlr : left = right
    · subst hlr
      simp only [quickSelectLoop?, quickSelectLoop, if_true, elem?_eq hra, Option.bind_eq_bind,
        Option.bind_some, Option.pure_def]
    · have hlr' : ¬ (left : Int) = right := by omega
      have hmid : ((left : Int) + right) / 2 = ((left + right) / 2 : Nat) := by omega
      have hfuel : ((right : Int) - left).toNat + 1 = (right - left) + 1 := by omega
      simp only [quickSelectLoop?, quickSelectLoop, if_neg hlr, if_neg hlr', hmid, hfuel,
        elem?_eq (show (left + right) / 2 < a.size by omega),
        swap?_eq (show (left + right) / 2 < a.size by omega) hra, Option.bind_eq_bind,
        Option.bind_some]
      generalize a[(left + right) / 2]! = pivot
      generalize ha₁ : a.swapIfInBounds ((left + right) / 2) right = a₁
      have hsize : a₁.size = a.size := by rw [← ha₁]; exact Array.size_swapIfInBounds
      rw [partitionLoop?_eq pivot (right - left) left left a₁ le_rfl (by omega) (by omega)]
      obtain ⟨hR, -, hi₁, hi₂, -⟩ := partitionLoop_spec pivot (right - left) left left a₁ le_rfl le_rfl
        (show left + (right - left) = right by omega) (by omega)
        ⟨fun x _ _ => by omega, fun x _ _ => by omega⟩
      generalize partitionLoop pivot (right - left) left left a₁ = parts at hR hi₁ hi₂ ⊢
      obtain ⟨a₂, i⟩ := parts
      have hsize₂ : a₂.size = a.size := hR.size.trans hsize
      simp only [Option.bind_some] at hi₁ hi₂ ⊢
      rw [swap?_eq (by omega) (by omega), Option.bind_some]
      have hsize₃ : (a₂.swapIfInBounds i right).size = a.size := by
        rw [Array.size_swapIfInBounds, hsize₂]
      by_cases hki : k = i
      · subst hki
        simp only [if_true, elem?_eq (show k < (a₂.swapIfInBounds k right).size by omega),
          Option.bind_some, Option.pure_def]
      · have hki' : ¬ (k : Int) = i := by omega
        rw [if_neg hki, if_neg hki']
        by_cases hlt : k < i
        · have hlt' : (k : Int) < i := by omega
          have hpred : (i : Int) - 1 = (i - 1 : Nat) := by omega
          rw [if_pos hlt, if_pos hlt', hpred]
          exact ih left (i - 1) _ hlk (by omega) (by omega)
        · have hlt' : ¬ (k : Int) < i := by omega
          rw [if_neg hlt, if_neg hlt']
          exact ih (i + 1) right _ (by omega) hkr (by omega)

omit [Inhabited α] in
/-- The value at position `k` of a sorted list, by how many elements reach and pass it. -/
theorem sorted_getElem? {s : List α} {v : α} {k : Nat} (hs : s.Pairwise (· ≤ ·)) (hk : k < s.length)
    (hge : s.length - k ≤ s.countP (fun x => decide (v ≤ x)))
    (hgt : s.countP (fun x => decide (v < x)) < s.length - k) : s[k]? = some v := by
  rw [List.getElem?_eq_getElem hk, Option.some.injEq]
  have hbefore : ∀ x ∈ s.take (k + 1), x ≤ s[k] := by
    intro x hx
    obtain ⟨y, hy, rfl⟩ := List.mem_iff_getElem.mp hx
    rw [List.length_take] at hy
    rw [List.getElem_take]
    rcases Nat.eq_or_lt_of_le (show y ≤ k by omega) with h | h
    · subst h
      exact le_rfl
    · exact List.pairwise_iff_getElem.mp hs y k (by omega) hk h
  have hafter : ∀ x ∈ s.drop k, s[k] ≤ x := by
    intro x hx
    obtain ⟨y, hy, rfl⟩ := List.mem_iff_getElem.mp hx
    rw [List.length_drop] at hy
    rw [List.getElem_drop]
    rcases Nat.eq_or_lt_of_le (show k ≤ k + y by omega) with h | h
    · simp only [← h, le_refl]
    · exact List.pairwise_iff_getElem.mp hs k (k + y) hk (by omega) h
  apply le_antisymm
  · -- otherwise all elements from `k` on pass `v`
    by_contra hlt
    have hall : (s.drop k).countP (fun x => decide (v < x)) = (s.drop k).length := by
      rw [List.countP_eq_length]
      intro x hx
      simpa using (not_le.mp hlt).trans_le (hafter x hx)
    have hle := List.Sublist.countP_le (p := fun x => decide (v < x)) (List.drop_sublist k s)
    rw [hall, List.length_drop] at hle
    omega
  · -- otherwise only elements after `k` reach `v`
    by_contra hlt
    have hnone : (s.take (k + 1)).countP (fun x => decide (v ≤ x)) = 0 := by
      rw [List.countP_eq_zero]
      intro x hx
      simpa using (hbefore x hx).trans_lt (not_le.mp hlt)
    have hsplit : s.countP (fun x => decide (v ≤ x)) =
        (s.drop (k + 1)).countP (fun x => decide (v ≤ x)) := by
      conv_lhs => rw [← List.take_append_drop (k + 1) s, List.countP_append, hnone, Nat.zero_add]
    have hle := List.countP_le_length (p := fun x => decide (v ≤ x)) (l := s.drop (k + 1))
    rw [List.length_drop] at hle
    omega

end Checked

/-- For every position inside an array of integers `QuickSelect` ends without an access outside
the array, leaves a permutation of it, and returns what stands at that position of the sorted
array. -/
theorem quickSelect_correct (array : Array Int) {k : Int} (hk : 0 ≤ k) (hlen : k < array.size) :
    ∃ v array', quickSelect? array k = some (v, array') ∧ array'.Perm array ∧
      (array.toList.mergeSort)[k.toNat]? = some v := by
  obtain ⟨k, rfl⟩ := Int.eq_ofNat_of_zero_le hk
  have hk : k < array.size := by omega
  obtain ⟨b, hb, hperm, hs⟩ := quickSelect_spec array hk
  have hsize : b.size = array.size := hperm.size_eq
  have hsorted : (array.toList.mergeSort).Perm b.toList :=
    (List.mergeSort_perm _ _).trans hperm.toList.symm
  refine ⟨b[k]!, b, ?_, hperm, ?_⟩
  · have hlast : (array.size : Int) - 1 = (array.size - 1 : Nat) := by omega
    have hzero : (0 : Int) = (0 : Nat) := rfl
    calc quickSelect? array (k : Int)
        = quickSelectLoop? (k : Int) array.size (0 : Nat) (array.size - 1 : Nat) array := by
          rw [quickSelect?, hlast, hzero]
      _ = quickSelect array k :=
          quickSelectLoop?_eq k array.size 0 (array.size - 1) array (Nat.zero_le _) (by omega) (by omega)
      _ = some (b[k]!, b) := hb
  · rw [Int.toNat_natCast]
    have hlength : (array.toList.mergeSort).length = b.size := by
      rw [hsorted.length_eq, Array.length_toList]
    apply sorted_getElem?
    · exact List.pairwise_mergeSort' _ _
    · omega
    · rw [hlength, hsorted.countP_eq]
      exact hs.countP_ge
    · rw [hlength, hsorted.countP_eq]
      exact hs.countP_gt (by omega)

/-- With equal elements: the third smallest of five. -/
theorem quickSelect_correct_equal :
    ∃ v array', quickSelect? (#[5, 1, 4, 1, 4] : Array Int) 2 = some (v, array') ∧
      array'.Perm #[5, 1, 4, 1, 4] ∧ (([5, 1, 4, 1, 4] : List Int).mergeSort)[2]? = some v :=
  quickSelect_correct #[5, 1, 4, 1, 4] (k := 2) (by decide) (by decide)

end DistSys.Raft1
