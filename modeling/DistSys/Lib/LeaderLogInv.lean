import DistSys.Lib.LeaderLog

/- The invariant of leader-based log replication.

   Every log is a patchwork of leaders' logs: up to any of its positions it is
   the beginning of the log of the leader of the term found there (`Sourced`).
   Equal terms at equal positions therefore mean equal prefixes, which is log
   matching.

   The two clauses that carry leader completeness are conditional. `kept` says
   that a node which confirmed an entry of the leader's own term still holds it
   in its log, provided every leader of a later term the node could have
   followed has it (`Kept`). `vlog_kept` says the same of the log a node voted
   with. Neither mentions quorums, so each is kept by every step on its own;
   the induction over terms that discharges the proviso is made once, on a
   single state. -/
namespace DistSys.Lib

variable {ι α : Type*}

namespace Repl

/-- Up to every position the log is the beginning of the log of the leader of
the term at that position. -/
def Sourced (g : Repl ι α) (ℓ : List (Entry α)) : Prop :=
  ∀ i, 1 ≤ i → i ≤ ℓ.length →
    g.leader (termAt ℓ i) ≠ none ∧ ℓ.take i <+: g.llog (termAt ℓ i)

/-- Position `N` of the log of the leader of `T` holds an entry of `T` itself. -/
def Own (g : Repl ι α) (T N : Nat) : Prop := 0 < T ∧ termAt (g.llog T) N = T

/-- Every leader of a term strictly between `T` and `U` has the first `N`
entries of the leader of `T`. -/
def Kept (g : Repl ι α) (T N U : Nat) : Prop :=
  ∀ T', T < T' → T' < U → g.leader T' ≠ none → (g.llog T).take N <+: g.llog T'

/-- `g'` has everything `g` has: leaders, campaigns and ballots stay, leaders'
logs only grow and only by entries of their own term, confirmations and terms
only rise. -/
structure Ext (g g' : Repl ι α) : Prop where
  leader : ∀ {T x}, g.leader T = some x → g'.leader T = some x
  llog : ∀ T, g.llog T <+: g'.llog T
  grown : ∀ T i, g.leader T ≠ none → (g.llog T).length < i → i ≤ (g'.llog T).length →
    termAt (g'.llog T) i = T
  camp : ∀ {T k C}, g.camp T k = some C → g'.camp T k = some C
  ballot : ∀ {v T k}, g.ballot v T = some k → g'.ballot v T = some k
  acked : ∀ n T, g.acked n T ≤ g'.acked n T
  term : ∀ n, g.term n ≤ g'.term n

theorem Ext.refl (g : Repl ι α) : Ext g g where
  leader := id
  llog := fun _ => List.prefix_rfl
  grown := fun _ _ _ h₁ h₂ => by omega
  camp := id
  ballot := id
  acked := fun _ _ => Nat.le_refl _
  term := fun _ => Nat.le_refl _

theorem Ext.led {g g' : Repl ι α} (h : Ext g g') {T : Nat} (hT : g.leader T ≠ none) :
    g'.leader T ≠ none := by
  obtain ⟨x, hx⟩ := Option.ne_none_iff_exists'.mp hT
  rw [h.leader hx]
  simp

theorem Ext.trans {g g' g'' : Repl ι α} (h : Ext g g') (h' : Ext g' g'') : Ext g g'' where
  leader := fun hx => h'.leader (h.leader hx)
  llog := fun T => (h.llog T).trans (h'.llog T)
  grown := by
    intro T i hT h₁ h₂
    by_cases hi : i ≤ (g'.llog T).length
    · rw [termAt_prefix_eq (h'.llog T) hi]
      exact h.grown T i hT h₁ hi
    · exact h'.grown T i (h.led hT) (by omega) h₂
  camp := fun hx => h'.camp (h.camp hx)
  ballot := fun hx => h'.ballot (h.ballot hx)
  acked := fun n T => (h.acked n T).trans (h'.acked n T)
  term := fun n => (h.term n).trans (h'.term n)

instance : Preorder (Repl ι α) where
  le := Ext
  le_refl := Ext.refl
  le_trans := fun _ _ _ => Ext.trans

/-! ## Sourced logs -/

variable {g g' : Repl ι α}

theorem Sourced.nil : g.Sourced [] := by
  intro i h₁ h₂
  simp at h₂
  omega

theorem Sourced.shorten {ℓ m : List (Entry α)} (h : g.Sourced m) (hp : ℓ <+: m) :
    g.Sourced ℓ := by
  intro i h₁ h₂
  have hm := h i h₁ (h₂.trans hp.length_le)
  rw [termAt_prefix_eq hp h₂] at hm
  have ht : m.take i = ℓ.take i := by
    obtain ⟨r, rfl⟩ := hp
    exact List.take_append_of_le_length h₂
  rwa [ht] at hm

theorem Sourced.ext {ℓ : List (Entry α)} (h : g.Sourced ℓ) (he : Ext g g') : g'.Sourced ℓ := by
  intro i h₁ h₂
  obtain ⟨hl, hp⟩ := h i h₁ h₂
  exact ⟨he.led hl, hp.trans (he.llog _)⟩

/-- Log matching: sourced logs with the same term at a position agree up to it. -/
theorem Sourced.matching {ℓ m : List (Entry α)} (hℓ : g.Sourced ℓ) (hm : g.Sourced m) {i : Nat}
    (hi : i ≤ ℓ.length) (hi' : i ≤ m.length) (ht : termAt ℓ i = termAt m i) :
    ℓ.take i = m.take i := by
  rcases Nat.eq_zero_or_pos i with rfl | hpos
  · simp
  · have h₁ := (hℓ i hpos hi).2
    have h₂ := (hm i hpos hi').2
    rw [← ht] at h₂
    have hlen : (ℓ.take i).length = (m.take i).length := by simp; omega
    have hpre := List.prefix_of_prefix_length_le h₁ h₂ hlen.le
    exact hpre.eq_of_length hlen

/-- A nonempty sourced log is the beginning of the log of the leader of its last term. -/
theorem Sourced.last {ℓ : List (Entry α)} (h : g.Sourced ℓ) (hne : 1 ≤ ℓ.length) :
    g.leader (lastTerm ℓ) ≠ none ∧ ℓ <+: g.llog (lastTerm ℓ) := by
  have := h ℓ.length hne (Nat.le_refl _)
  rwa [List.take_length] at this

/-! ## Entries of the leader's own term -/

theorem Own.pos {T N : Nat} (h : g.Own T N) : 1 ≤ N := by
  obtain ⟨hT, hN⟩ := h
  cases N with
  | zero => simp at hN; omega
  | succ _ => omega

theorem Own.le {T N : Nat} (h : g.Own T N) : N ≤ (g.llog T).length := by
  obtain ⟨hT, hN⟩ := h
  cases N with
  | zero => omega
  | succ j =>
    by_contra hlt
    have : (g.llog T)[j]? = none := List.getElem?_eq_none (by omega)
    simp only [termAt, this] at hN
    omega

theorem Own.ext {T N : Nat} (h : g.Own T N) (he : Ext g g') : g'.Own T N := by
  refine ⟨h.1, ?_⟩
  rw [termAt_prefix_eq (he.llog T) h.le]
  exact h.2

theorem Own.of_ext (he : Ext g g') {T N : Nat} (hN : N ≤ (g.llog T).length)
    (h : g'.Own T N) : g.Own T N := by
  refine ⟨h.1, ?_⟩
  rw [← termAt_prefix_eq (he.llog T) hN]
  exact h.2

theorem take_ext {T N : Nat} (hN : N ≤ (g.llog T).length) (he : Ext g g') :
    (g'.llog T).take N = (g.llog T).take N := by
  obtain ⟨r, hr⟩ := he.llog T
  rw [← hr, List.take_append_of_le_length hN]

/-- The proviso only gets harder to meet: a later leader cannot come to hold an
entry of an earlier term by growing. -/
theorem Kept.of_ext {T N U : Nat} (hown : g.Own T N) (he : Ext g g') (h : g'.Kept T N U) :
    g.Kept T N U := by
  intro T' h₁ h₂ hled
  have hp := h T' h₁ h₂ (he.led hled)
  rw [take_ext hown.le he] at hp
  by_cases hN : N ≤ (g.llog T').length
  · exact List.prefix_of_prefix_length_le hp (he.llog T') (by simp; omega)
  · exfalso
    have hlen : ((g.llog T).take N).length = N := by simp [hown.le]
    have hN' : N ≤ (g'.llog T').length := by rw [← hlen]; exact hp.length_le
    have h₃ := he.grown T' N hled (by omega) hN'
    have h₄ := termAt_prefix_eq hp (i := N) (by omega)
    rw [termAt_take (Nat.le_refl _), hown.2] at h₄
    omega

theorem Kept.mono {T N U U' : Nat} (h : g.Kept T N U') (hU : U ≤ U') : g.Kept T N U :=
  fun T' h₁ h₂ hled => h T' h₁ (by omega) hled

/-! ## Where entries come from -/

/-- The leader `k` of `T` put `a` into its log, behind `i` other entries. -/
def Put (g : Repl ι α) (k : ι) (i T : Nat) (a : α) : Prop :=
  (∃ e, g.leader T = some (k, e)) ∧ (g.llog T)[i]? = some ⟨T, a⟩

theorem Put.ext {k : ι} {i T : Nat} {a : α} (h : g.Put k i T a) (he : Ext g g') :
    g'.Put k i T a := by
  obtain ⟨⟨e, hk⟩, hi⟩ := h
  exact ⟨⟨e, he.leader hk⟩, getElem?_of_isPrefix (he.llog T) hi⟩

/-- Every entry of a sourced log was put there by the leader of its term. -/
theorem Sourced.put {ℓ : List (Entry α)} (h : g.Sourced ℓ) {i : Nat} {x : Entry α}
    (hx : ℓ[i]? = some x) : ∃ k, g.Put k i x.term x.cmd := by
  have hlt := (List.getElem?_eq_some_iff.mp hx).1
  obtain ⟨hled, hpre⟩ := h (i + 1) (by omega) hlt
  rw [termAt_succ hx] at hled hpre
  obtain ⟨⟨k, e⟩, hk⟩ := Option.ne_none_iff_exists'.mp hled
  refine ⟨k, ⟨e, hk⟩, getElem?_of_isPrefix hpre ?_⟩
  rw [List.getElem?_take_of_lt (by omega)]
  exact hx

/-- No leader put anything between `g` and `g'`. -/
def Quiet (g g' : Repl ι α) : Prop := ∀ ⦃k i T a⦄, g'.Put k i T a → g.Put k i T a

theorem Quiet.of_same (hled : g'.leader = g.leader) (hllog : g'.llog = g.llog) : Quiet g g' := by
  intro k i T a hp
  rwa [Put, hled, hllog] at hp

theorem Quiet.trans {g'' : Repl ι α} (h : Quiet g g') (h' : Quiet g' g'') : Quiet g g'' :=
  fun _ _ _ _ hp => h (h' hp)

end Repl

end DistSys.Lib
