import Mathlib.Algebra.Ring.Parity
import Mathlib.Data.Finset.Max
import Mathlib.Data.Fintype.Card

/- Majorities of a finite set of nodes. Two of them always share a node, which
   is the only fact about counting votes and acknowledgements that agreement
   rests on. -/
namespace DistSys.Lib

variable {ι : Type*} [Fintype ι]

/-- More than half of the nodes. -/
def IsMajority (Q : Finset ι) : Prop := Fintype.card ι < 2 * Q.card

instance (Q : Finset ι) : Decidable (IsMajority Q) :=
  inferInstanceAs (Decidable (Fintype.card ι < 2 * Q.card))

theorem IsMajority.inter [DecidableEq ι] {P Q : Finset ι} (hP : IsMajority P)
    (hQ : IsMajority Q) : ∃ v, v ∈ P ∧ v ∈ Q := by
  unfold IsMajority at hP hQ
  have hsum := Finset.card_union_add_card_inter P Q
  have hle : (P ∪ Q).card ≤ Fintype.card ι := Finset.card_le_univ _
  have hpos : 0 < (P ∩ Q).card := by omega
  obtain ⟨v, hv⟩ := Finset.card_pos.mp hpos
  exact ⟨v, Finset.mem_inter.mp hv⟩

theorem IsMajority.mono {P Q : Finset ι} (hP : IsMajority P) (h : P ⊆ Q) : IsMajority Q := by
  unfold IsMajority at *
  have := Finset.card_le_card h
  omega

theorem isMajority_fin {n : ℕ} {Q : Finset (Fin n)} : IsMajority Q ↔ n / 2 < Q.card := by
  unfold IsMajority
  rw [Fintype.card_fin]
  omega

/-! ## Two orders -/

section Above

variable {α β : Type*} [LinearOrder α] [LinearOrder β]

/-- More than half of an odd number of nodes are each not below more than half of them. -/
theorem isMajority_above (f : ι → α) (hodd : Odd (Fintype.card ι)) :
    IsMajority {v | IsMajority {w | f w ≤ f v}} := by
  have hsplit := Finset.card_filter_add_card_filter_not (s := Finset.univ)
    (fun v : ι => IsMajority {w | f w ≤ f v})
  rw [Finset.card_univ] at hsplit
  -- The nodes below more than half lie below the greatest of them, which is not above half.
  have hfew : 2 * (Finset.univ.filter fun v : ι => ¬ IsMajority {w | f w ≤ f v}).card ≤
      Fintype.card ι := by
    rcases Finset.eq_empty_or_nonempty
      (Finset.univ.filter fun v : ι => ¬ IsMajority {w | f w ≤ f v}) with hempty | hne
    · simp [hempty]
    · obtain ⟨m, hm, hmax⟩ := Finset.exists_max_image _ f hne
      have hsub : (Finset.univ.filter fun v : ι => ¬ IsMajority {w | f w ≤ f v}) ⊆
          Finset.univ.filter fun w => f w ≤ f m := by
        intro v hv
        exact Finset.mem_filter.mpr ⟨Finset.mem_univ v, hmax v hv⟩
      have hcard := Finset.card_le_card hsub
      have hnot := not_lt.mp (Finset.mem_filter.mp hm).2
      omega
  obtain ⟨k, hk⟩ := hodd
  unfold IsMajority at *
  omega

/-- Of an odd number of nodes one is not below more than half in either of two orders. -/
theorem exists_above_both (f : ι → α) (g : ι → β) (hodd : Odd (Fintype.card ι)) :
    ∃ v, IsMajority {w | f w ≤ f v} ∧ IsMajority {w | g w ≤ g v} := by
  have habove := isMajority_above f hodd
  have hne : (Finset.univ.filter fun v : ι => IsMajority {w | f w ≤ f v}).Nonempty := by
    apply Finset.card_pos.mp
    have hlt : Fintype.card ι < 2 * _ := habove
    omega
  obtain ⟨v, hv, hmax⟩ := Finset.exists_max_image _ g hne
  refine ⟨v, (Finset.mem_filter.mp hv).2, habove.mono ?_⟩
  intro w hw
  exact Finset.mem_filter.mpr ⟨Finset.mem_univ w, hmax w hw⟩

end Above

end DistSys.Lib
