import DistSys.Lib.LeaderLogStep
import Mathlib.Data.Finset.Lattice.Fold
import Mathlib.Data.Nat.Find

/- What the invariant of leader-based log replication gives.

   An entry of the leader's own term that a majority confirmed is committed.
   `leader_completeness`: every leader of a later term stood for election with
   it already in its log. The prefixes that end in, or below, a committed entry
   are the agreed ones (`Agreed`); any two of them are comparable
   (`Agreed.comparable`), so they are the beginnings of one sequence, and later
   states only add to them. -/
namespace DistSys.Lib

variable {ι α : Type*} [Fintype ι]

namespace Repl

/-- Entry `N` of the leader of `T` is of that term and confirmed by a majority. -/
def Committed (g : Repl ι α) (T N : Nat) : Prop :=
  g.Own T N ∧ ∃ Q : Finset ι, IsMajority Q ∧ ∀ n ∈ Q, N ≤ g.acked n T

variable {g g' : Repl ι α}

theorem Committed.ext {T N : Nat} (h : g.Committed T N) (he : Ext g g') : g'.Committed T N := by
  obtain ⟨hown, Q, hQ, hN⟩ := h
  exact ⟨hown.ext he, Q, hQ, fun n hn => (hN n hn).trans (he.acked n T)⟩

theorem Committed.le {T N : Nat} (h : g.Committed T N) : N ≤ (g.llog T).length := h.1.le

theorem Committed.led {T N : Nat} (hi : g.Inv) (h : g.Committed T N) : g.leader T ≠ none := by
  intro hnone
  have hle := h.le
  have hpos := h.1.pos
  rw [hi.llog_nil hnone] at hle
  simp at hle
  omega

/-! ## Terms along a sourced log -/

/-- Terms do not decrease along a sourced log. -/
theorem Sourced.mono (hi : g.Inv) {ℓ : List (Entry α)} (h : g.Sourced ℓ) {i j : Nat} (hij : i ≤ j)
    (hj : j ≤ ℓ.length) : termAt ℓ i ≤ termAt ℓ j := by
  rcases Nat.eq_zero_or_pos i with rfl | hpos
  · simp
  · have hp := (h j (by omega) hj).2
    have hlen : i ≤ (ℓ.take j).length := by simp; omega
    obtain ⟨x, hx, -, hxt⟩ := exists_entry hpos hlen
    rw [termAt_take hij] at hxt
    rw [hxt]
    exact hi.llog_term _ x (hp.subset hx)

theorem lastTerm_pos_length {ℓ : List (Entry α)} (h : 0 < lastTerm ℓ) : 1 ≤ ℓ.length := by
  cases ℓ with
  | nil => simp [lastTerm] at h
  | cons _ _ => simp

/-! ## Leader completeness -/

/-- A log at least as up-to-date as one holding an entry of `T` holds it too,
if every leader between does. -/
theorem upToDate_carries (hi : g.Inv) {C V : List (Entry α)} {T N U : Nat} (hC : g.Sourced C)
    (hV : g.Sourced V) (hCU : ∀ e ∈ C, e.term < U) (hown : g.Own T N) (hkept : g.Kept T N U)
    (hp : (g.llog T).take N <+: V) (hup : UpToDate C V) : (g.llog T).take N <+: C := by
  have hlen : ((g.llog T).take N).length = N := by simp [hown.le]
  have hNV : N ≤ V.length := hlen ▸ hp.length_le
  have hVN : termAt V N = T := by
    rw [termAt_prefix_eq hp (by omega), termAt_take (Nat.le_refl _)]
    exact hown.2
  have hTV : T ≤ lastTerm V := hVN ▸ hV.mono hi hNV (Nat.le_refl _)
  rcases hup with hlt | ⟨heq, hle⟩
  · have hC1 : 1 ≤ C.length := lastTerm_pos_length (by omega)
    obtain ⟨hled, hpre⟩ := hC.last hC1
    obtain ⟨x, hx, -, hxt⟩ := exists_entry hC1 (Nat.le_refl _)
    have hCT : lastTerm C < U := by unfold lastTerm; rw [hxt]; exact hCU x hx
    rcases List.prefix_or_prefix_of_prefix (hkept _ (by omega) hCT hled) hpre with h | h
    · exact h
    · -- the last entry of `C` would lie below `N` in the log of the leader of `T`
      exfalso
      have hCL : C <+: g.llog T := h.trans (List.take_prefix _ _)
      have := hi.llog_term T x (hCL.subset hx)
      unfold lastTerm at hlt hTV
      omega
  · have hV1 : 1 ≤ V.length := hown.pos.trans hNV
    obtain ⟨-, hpV⟩ := hV.last hV1
    obtain ⟨-, hpC⟩ := hC.last (hV1.trans hle)
    rw [heq] at hpC
    exact hp.trans (List.prefix_of_prefix_length_le hpV hpC hle)

/-- Leader completeness: every leader of a later term stood with the committed prefix. -/
theorem leader_completeness [DecidableEq ι] (hi : g.Inv) {T N : Nat} (hc : g.Committed T N) :
    ∀ (U : Nat) {k : ι} {e : Nat} {C : List (Entry α)}, T < U → g.leader U = some (k, e) →
      g.camp U k = some C → (g.llog T).take N <+: C := by
  intro U
  induction U using Nat.strong_induction_on with
  | _ U ih =>
    intro k e C hTU hk hC
    obtain ⟨hown, Q, hQ, hN⟩ := hc
    obtain ⟨C', Q', hC', -, -, hQ', hvotes⟩ := hi.led_camp hk
    -- the voter that confirmed the entry before it voted
    obtain ⟨v, hvQ, hvQ'⟩ := hQ.inter hQ'
    obtain ⟨hb, V, hV⟩ := hvotes v hvQ'
    have hkept : g.Kept T N U := by
      intro T' h₁ h₂ hled
      obtain ⟨⟨k', e'⟩, hk'⟩ := Option.ne_none_iff_exists'.mp hled
      obtain ⟨C'', _, hC'', hpre, _⟩ := hi.led_camp hk'
      exact (ih T' h₂ h₁ hk' hC'').trans hpre
    obtain ⟨C₂, hC₂, hup⟩ := hi.vlog_up hV hb
    obtain rfl : C₂ = C := by rw [hC] at hC₂; exact (Option.some.inj hC₂).symm
    exact upToDate_carries hi (hi.camp_src hC) (hi.vlog_src hV).2 (hi.camp_term hC).2.2.2 hown
      hkept (hi.vlog_kept hV hTU (hN v hvQ) hown hkept) hup

/-- No leader of a later term is without the committed prefix. -/
theorem Committed.kept [DecidableEq ι] (hi : g.Inv) {T N : Nat} (hc : g.Committed T N) (U : Nat) :
    g.Kept T N U := by
  intro T' hT' _ hled
  obtain ⟨⟨k, e⟩, hk⟩ := Option.ne_none_iff_exists'.mp hled
  obtain ⟨C, _, hC, hpre, _⟩ := hi.led_camp hk
  exact (leader_completeness hi hc T' hT' hk hC).trans hpre

/-- A majority has the committed prefix in its logs at any later time. -/
theorem Committed.held [DecidableEq ι] (hi : g.Inv) {T N : Nat} (hc : g.Committed T N) :
    ∃ Q : Finset ι, IsMajority Q ∧ ∀ n ∈ Q, (g.llog T).take N <+: g.log n := by
  have hkept := hc.kept hi
  obtain ⟨hown, Q, hQ, hacked⟩ := hc
  exact ⟨Q, hQ, fun n hn => hi.kept (hacked n hn) hown (hkept _)⟩

/-- A majority of ballots in a term can only be the leader's. -/
theorem leader_unique [DecidableEq ι] (hi : g.Inv) {T e : Nat} {k k' : ι} {Q : Finset ι}
    (hQ : IsMajority Q) (hvotes : ∀ v ∈ Q, g.ballot v T = some k)
    (hk' : g.leader T = some (k', e)) : k = k' := by
  obtain ⟨_, Q', _, _, _, hQ', hvotes'⟩ := hi.led_camp hk'
  obtain ⟨v, hv, hv'⟩ := hQ.inter hQ'
  have h₁ := hvotes v hv
  rw [(hvotes' v hv').1] at h₁
  exact (Option.some.inj h₁).symm

/-! ## The agreed sequence -/

/-- `p` is a prefix that a leader of a term up to `t` had committed. -/
def AgreedBy (g : Repl ι α) (t : Nat) (p : List (Entry α)) : Prop :=
  p = [] ∨ ∃ T N, T ≤ t ∧ g.Committed T N ∧ p <+: (g.llog T).take N

/-- `p` is a committed prefix. -/
def Agreed (g : Repl ι α) (p : List (Entry α)) : Prop := ∃ t, g.AgreedBy t p

theorem AgreedBy.agreed {t : Nat} {p : List (Entry α)} (h : g.AgreedBy t p) : g.Agreed p := ⟨t, h⟩

theorem AgreedBy.nil {t : Nat} : g.AgreedBy t [] := Or.inl rfl

theorem AgreedBy.mono {t u : Nat} {p : List (Entry α)} (h : g.AgreedBy t p) (htu : t ≤ u) :
    g.AgreedBy u p := by
  rcases h with h | ⟨T, N, hT, hc, hp⟩
  · exact Or.inl h
  · exact Or.inr ⟨T, N, hT.trans htu, hc, hp⟩

theorem AgreedBy.shorten {t : Nat} {p q : List (Entry α)} (h : g.AgreedBy t p) (hq : q <+: p) :
    g.AgreedBy t q := by
  rcases h with rfl | ⟨T, N, hT, hc, hp⟩
  · exact Or.inl (List.prefix_nil.mp hq)
  · exact Or.inr ⟨T, N, hT, hc, hq.trans hp⟩

theorem AgreedBy.ext {t : Nat} {p : List (Entry α)} (h : g.AgreedBy t p) (he : Ext g g') :
    g'.AgreedBy t p := by
  rcases h with h | ⟨T, N, hT, hc, hp⟩
  · exact Or.inl h
  · exact Or.inr ⟨T, N, hT, hc.ext he, by rwa [take_ext hc.le he]⟩

theorem Agreed.shorten {p q : List (Entry α)} (h : g.Agreed p) (hq : q <+: p) : g.Agreed q := by
  obtain ⟨t, ht⟩ := h
  exact ⟨t, ht.shorten hq⟩

theorem Agreed.ext {p : List (Entry α)} (h : g.Agreed p) (he : Ext g g') : g'.Agreed p := by
  obtain ⟨t, ht⟩ := h
  exact ⟨t, ht.ext he⟩

/-- A prefix committed up to a term is in the log of the leader of any later term, up to a
whole committed prefix that contains it. -/
theorem AgreedBy.in_llog [DecidableEq ι] (hi : g.Inv) {t T : Nat} {p : List (Entry α)}
    (h : g.AgreedBy t p) (htT : t ≤ T) (hled : g.leader T ≠ none) :
    p <+: g.llog T := by
  rcases h with rfl | ⟨T', N, hT', hc, hp⟩
  · exact List.nil_prefix
  · rcases Nat.lt_or_ge T' T with hlt | hge
    · exact hp.trans (hc.kept hi (T + 1) T hlt (Nat.lt_succ_self T) hled)
    · obtain rfl : T' = T := by omega
      exact hp.trans (List.take_prefix _ _)

/-- Any two agreed prefixes are comparable. -/
theorem Agreed.comparable [DecidableEq ι] (hi : g.Inv) {p q : List (Entry α)} (hp : g.Agreed p)
    (hq : g.Agreed q) : p <+: q ∨ q <+: p := by
  obtain ⟨t, rfl | ⟨T, N, hT, hc, hpT⟩⟩ := hp
  · exact Or.inl List.nil_prefix
  · obtain ⟨u, rfl | ⟨U, M, hU, hd, hqU⟩⟩ := hq
    · exact Or.inr List.nil_prefix
    · have hp' : g.AgreedBy T p := Or.inr ⟨T, N, Nat.le_refl _, hc, hpT⟩
      have hq' : g.AgreedBy U q := Or.inr ⟨U, M, Nat.le_refl _, hd, hqU⟩
      rcases Nat.le_total T U with h | h
      · exact List.prefix_or_prefix_of_prefix (hp'.in_llog hi h (hd.led hi))
          (hqU.trans (List.take_prefix _ _))
      · exact List.prefix_or_prefix_of_prefix (hpT.trans (List.take_prefix _ _))
          (hq'.in_llog hi h (hc.led hi))

/-- Agreed prefixes of one length are equal. -/
theorem Agreed.eq_of_length [DecidableEq ι] (hi : g.Inv) {p q : List (Entry α)} (hp : g.Agreed p)
    (hq : g.Agreed q) (h : p.length = q.length) : p = q := by
  rcases hp.comparable hi hq with hpq | hqp
  · exact hpq.eq_of_length h
  · exact (hqp.eq_of_length h.symm).symm

/-- The shorter of two agreed prefixes is a prefix of the other. -/
theorem Agreed.prefix_of_le [DecidableEq ι] (hi : g.Inv) {p q : List (Entry α)} (hp : g.Agreed p)
    (hq : g.Agreed q) (h : p.length ≤ q.length) : p <+: q := by
  rcases hp.comparable hi hq with hpq | hqp
  · exact hpq
  · rw [hqp.eq_of_length_le h]

/-- An agreed prefix lies in the log of a leader whose term some node has reached. -/
theorem Agreed.length_le [DecidableEq ι] (hi : g.Inv) {p : List (Entry α)} (h : g.Agreed p) :
    p = [] ∨ ∃ n T, T ≤ g.term n ∧ p.length ≤ (g.llog T).length := by
  obtain ⟨t, rfl | ⟨T, N, -, ⟨hown, Q, hQ, hack⟩, hp⟩⟩ := h
  · exact Or.inl rfl
  · right
    obtain ⟨n, hn, -⟩ := hQ.inter hQ
    refine ⟨n, T, hi.acked_term (hack n hn) hown, ?_⟩
    exact hp.length_le.trans (List.take_prefix _ _).length_le

/-- There is one sequence that all agreed prefixes are prefixes of, and it is agreed itself. -/
theorem exists_longest_agreed [DecidableEq ι] (hi : g.Inv) :
    ∃ p, g.Agreed p ∧ ∀ q, g.Agreed q → q <+: p := by
  classical
  -- lengths are bounded by the logs of the leaders of terms reached by some node
  let bound := Finset.univ.sup fun n => (Finset.range (g.term n + 1)).sup fun T => (g.llog T).length
  have hbound : ∀ q, g.Agreed q → q.length ≤ bound := by
    intro q hq
    rcases hq.length_le hi with rfl | ⟨n, T, hT, hlen⟩
    · simp
    · have h₁ : (g.llog T).length ≤ (Finset.range (g.term n + 1)).sup fun T => (g.llog T).length :=
        Finset.le_sup (f := fun T => (g.llog T).length) (by simpa using Nat.lt_succ_of_le hT)
      have h₂ := Finset.le_sup (s := Finset.univ) (b := n)
        (f := fun n => (Finset.range (g.term n + 1)).sup fun T => (g.llog T).length)
        (Finset.mem_univ n)
      exact hlen.trans (h₁.trans h₂)
  have hex : ∃ q, g.Agreed q ∧ q.length = 0 := ⟨[], AgreedBy.nil (t := 0).agreed, rfl⟩
  obtain ⟨p, hp, hlen⟩ := Nat.findGreatest_spec (P := fun k => ∃ q, g.Agreed q ∧ q.length = k)
    (Nat.zero_le bound) hex
  refine ⟨p, hp, fun q hq => hq.prefix_of_le hi hp ?_⟩
  rw [hlen]
  exact Nat.le_findGreatest (hbound q hq) ⟨q, hq, rfl⟩

/-- Every agreed entry was put there by the leader of its term. -/
theorem Agreed.put (hi : g.Inv) {p : List (Entry α)} (h : g.Agreed p) {i : Nat} {x : Entry α}
    (hx : p[i]? = some x) : ∃ k, g.Put k i x.term x.cmd := by
  obtain ⟨t, rfl | ⟨T, N, -, -, hp⟩⟩ := h
  · simp at hx
  · exact ((hi.llog_src T).shorten (hp.trans (List.take_prefix _ _))).put hx

/-! ## The order in which entries were put -/

/-- An entry of a leader's log stands in the relation `R` to every later one. -/
def Ordered (g : Repl ι α) (R : α → α → Prop) : Prop :=
  ∀ T, (g.llog T).Pairwise fun x y => R x.cmd y.cmd

/-- What a leader puts stands in the relation to what was put before it, at lower indices: then all
leaders' logs stay ordered, since an entry brings with it what was below it when it was put. -/
theorem Ordered.ext {R : α → α → Prop} (h : g.Ordered R) (he : Ext g g') (hi : g'.Inv)
    (hnew : ∀ k j T a, g'.Put k j T a → ¬ g.Put k j T a →
      ∀ k' i T' b, i < j → g'.Put k' i T' b → R b a) : g'.Ordered R := by
  intro T
  rw [List.pairwise_iff_getElem]
  intro i j hi' hj hij
  have hsrc := hi.llog_src T
  have hx : (g'.llog T)[i]? = some (g'.llog T)[i] := List.getElem?_eq_getElem hi'
  have hy : (g'.llog T)[j]? = some (g'.llog T)[j] := List.getElem?_eq_getElem hj
  obtain ⟨k, hput⟩ := hsrc.put hy
  by_cases hold : g.Put k j (g'.llog T)[j].term (g'.llog T)[j].cmd
  · -- the log of the leader that put the later one has both
    generalize hU : (g'.llog T)[j].term = U at hput hold
    have htake : (g'.llog T).take (j + 1) <+: g'.llog U := by
      have hpre := (hsrc (j + 1) (by omega) (by omega)).2
      rwa [termAt_succ hy, hU] at hpre
    have hxU : (g'.llog U)[i]? = some (g'.llog T)[i] :=
      getElem?_of_isPrefix htake (by rw [List.getElem?_take_of_lt (by omega), hx])
    obtain ⟨hlt, hyU⟩ := List.getElem?_eq_some_iff.mp hold.2
    obtain ⟨later, hlater⟩ := he.llog U
    rw [← hlater, List.getElem?_append_left (by omega)] at hxU
    obtain ⟨hlt', hxU⟩ := List.getElem?_eq_some_iff.mp hxU
    have hR := List.pairwise_iff_getElem.mp (h U) i j hlt' hlt hij
    rwa [hxU, hyU] at hR
  · obtain ⟨k', hput'⟩ := hsrc.put hx
    exact hnew k j _ _ hput hold k' i _ _ hij hput'

theorem Agreed.ordered {R : α → α → Prop} {p : List (Entry α)} (h : g.Agreed p) (ho : g.Ordered R) :
    p.Pairwise fun x y => R x.cmd y.cmd := by
  obtain ⟨t, rfl | ⟨T, N, -, -, hp⟩⟩ := h
  · exact List.Pairwise.nil
  · exact (ho T).sublist (hp.trans (List.take_prefix _ _)).sublist

end Repl

end DistSys.Lib
