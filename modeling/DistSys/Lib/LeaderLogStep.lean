import DistSys.Lib.LeaderLogInv
import Mathlib.Logic.Relation

/- Every step of leader-based log replication keeps the invariant, and only
   adds to the history. -/
namespace DistSys.Lib

variable {ι α : Type*}

namespace Repl

/-- The invariant. -/
structure Inv [Fintype ι] (g : Repl ι α) : Prop where
  /-- A ballot binds the voter while it stays in the term. -/
  ballot_term : ∀ {v T k}, g.ballot v T = some k →
    T < g.term v ∨ (T = g.term v ∧ g.vote v = some k)
  camp_term : ∀ {T k C}, g.camp T k = some C →
    0 < T ∧ T ≤ g.term k ∧ g.ballot k T = some k ∧ ∀ e ∈ C, e.term < T
  camp_src : ∀ {T k C}, g.camp T k = some C → g.Sourced C
  log_src : ∀ n, g.Sourced (g.log n)
  log_term : ∀ n, ∀ e ∈ g.log n, e.term ≤ g.term n
  vlog_src : ∀ {v T V}, g.vlog v T = some V → T ≤ g.term v ∧ g.Sourced V
  vlog_ballot : ∀ {v T V}, g.vlog v T = some V → ∃ k, g.ballot v T = some k
  vlog_up : ∀ {v T V k}, g.vlog v T = some V → g.ballot v T = some k →
    ∃ C, g.camp T k = some C ∧ UpToDate C V
  /-- While a term has no leader, every ballot in it has its log recorded. -/
  vlog_some : ∀ {v T k}, g.leader T = none → g.ballot v T = some k → ∃ V, g.vlog v T = some V
  llog_nil : ∀ {T}, g.leader T = none → g.llog T = []
  llog_src : ∀ T, g.Sourced (g.llog T)
  llog_term : ∀ T, ∀ e ∈ g.llog T, e.term ≤ T
  /-- A leader that is still in its term holds its own log. -/
  led_log : ∀ {T k e}, g.leader T = some (k, e) → T ≤ g.term k ∧ (g.term k = T → g.log k = g.llog T)
  /-- A leader stood, was voted for by a majority, and extended the log it stood with by
  entries of its own term. -/
  led_camp : ∀ {T k e}, g.leader T = some (k, e) → ∃ C Q, g.camp T k = some C ∧
    C <+: g.llog T ∧ (∀ i, C.length < i → i ≤ (g.llog T).length → termAt (g.llog T) i = T) ∧
    IsMajority Q ∧ ∀ v ∈ Q, g.ballot v T = some k ∧ ∃ V, g.vlog v T = some V
  acked_le : ∀ n T, g.acked n T ≤ (g.llog T).length
  /-- An entry of the leader's own term is confirmed only durably. -/
  acked_term : ∀ {n T N}, N ≤ g.acked n T → g.Own T N → T ≤ g.term n
  kept : ∀ {n T N}, N ≤ g.acked n T → g.Own T N → g.Kept T N (g.term n + 1) →
    (g.llog T).take N <+: g.log n
  vlog_kept : ∀ {v T N U V}, g.vlog v U = some V → T < U → N ≤ g.acked v T → g.Own T N →
    g.Kept T N U → (g.llog T).take N <+: V

theorem Inv.initial [Fintype ι] : (Repl.initial ι α).Inv where
  ballot_term := by simp [Repl.initial]
  camp_term := by simp [Repl.initial]
  camp_src := by simp [Repl.initial]
  log_src := fun _ => Sourced.nil
  log_term := by simp [Repl.initial]
  vlog_src := by simp [Repl.initial]
  vlog_ballot := by simp [Repl.initial]
  vlog_up := by simp [Repl.initial]
  vlog_some := by simp [Repl.initial]
  llog_nil := by simp [Repl.initial]
  llog_src := fun _ => Sourced.nil
  llog_term := by simp [Repl.initial]
  led_log := by simp [Repl.initial]
  led_camp := by simp [Repl.initial]
  acked_le := by simp [Repl.initial]
  acked_term := by
    intro n T N hN hown
    have := hown.pos
    simp [Repl.initial] at hN
    omega
  kept := by
    intro n T N hN hown _
    have := hown.pos
    simp [Repl.initial] at hN
    omega
  vlog_kept := by simp [Repl.initial]

/-! ## The conditional clauses survive every extension -/

theorem Inv.kept_ext [Fintype ι] {g g' : Repl ι α} (hi : g.Inv) (he : Ext g g') {n : ι} {T N : Nat}
    (hN : N ≤ g.acked n T) (hown : g'.Own T N) (hk : g'.Kept T N (g'.term n + 1)) :
    (g'.llog T).take N <+: g.log n := by
  have hlen := hN.trans (hi.acked_le n T)
  have hown' := Own.of_ext he hlen hown
  have hk' := (hk.of_ext hown' he).mono (Nat.succ_le_succ (he.term n))
  rw [take_ext hlen he]
  exact hi.kept hN hown' hk'

theorem Inv.vlog_kept_ext [Fintype ι] {g g' : Repl ι α} (hi : g.Inv) (he : Ext g g') {v : ι} {T N U : Nat}
    {V : List (Entry α)} (hV : g.vlog v U = some V) (hTU : T < U) (hN : N ≤ g.acked v T)
    (hown : g'.Own T N) (hk : g'.Kept T N U) : (g'.llog T).take N <+: V := by
  have hlen := hN.trans (hi.acked_le v T)
  have hown' := Own.of_ext he hlen hown
  rw [take_ext hlen he]
  exact hi.vlog_kept hV hTU hN hown' (hk.of_ext hown' he)

theorem Inv.acked_term_ext [Fintype ι] {g g' : Repl ι α} (hi : g.Inv) (he : Ext g g') {n : ι} {T N : Nat}
    (hN : N ≤ g.acked n T) (hown : g'.Own T N) : T ≤ g'.term n :=
  (hi.acked_term hN (Own.of_ext he (hN.trans (hi.acked_le n T)) hown)).trans (he.term n)

variable [DecidableEq ι] {g : Repl ι α}

/-! ## What each step adds -/

theorem ext_bump {n : ι} {T : Nat} {v : Option ι} (hT : g.term n < T) :
    Ext g (g.bump n T v) where
  leader := id
  llog := fun _ => List.prefix_rfl
  grown := fun _ _ _ h₁ h₂ => absurd h₁ (Nat.not_lt.mpr h₂)
  camp := id
  ballot := id
  acked := fun _ _ => Nat.le_refl _
  term := by
    intro m
    by_cases hm : m = n
    · subst hm; simp [bump]; omega
    · simp [bump, hm]

theorem ext_ack {n : ι} {T m : Nat} : Ext g (g.ack n T m) where
  leader := id
  llog := fun _ => List.prefix_rfl
  grown := fun _ _ _ h₁ h₂ => absurd h₁ (Nat.not_lt.mpr h₂)
  camp := id
  ballot := id
  acked := by
    intro n' U
    by_cases h : n' = n ∧ U = T
    · obtain ⟨rfl, rfl⟩ := h; simp [ack]
    · simp [ack, update₂, h]
  term := fun _ => Nat.le_refl _

theorem ext_adopt {n : ι} {T : Nat} {P : List (Entry α)} : Ext g (g.adopt n T P) where
  leader := id
  llog := fun _ => List.prefix_rfl
  grown := fun _ _ _ h₁ h₂ => absurd h₁ (Nat.not_lt.mpr h₂)
  camp := id
  ballot := id
  acked := by
    intro n' U
    by_cases h : n' = n ∧ U = T
    · obtain ⟨rfl, rfl⟩ := h; simp [adopt]
    · simp [adopt, update₂, h]
  term := fun _ => Nat.le_refl _

variable [Fintype ι]

theorem ext_campaign (hi : g.Inv) {n : ι} {T : Nat} (hT : g.term n < T) :
    Ext g (g.campaign n T) where
  leader := id
  llog := fun _ => List.prefix_rfl
  grown := fun _ _ _ h₁ h₂ => absurd h₁ (Nat.not_lt.mpr h₂)
  camp := by
    intro U k C hC
    have hne : ¬ (U = T ∧ k = n) := by
      rintro ⟨rfl, rfl⟩
      have := (hi.camp_term hC).2.1
      omega
    simpa [campaign, update₂, hne] using hC
  ballot := by
    intro v U k hb
    have hne : ¬ (v = n ∧ U = T) := by
      rintro ⟨rfl, rfl⟩
      have := hi.ballot_term hb
      omega
    simpa [campaign, update₂, hne] using hb
  acked := fun _ _ => Nat.le_refl _
  term := by
    intro m
    by_cases hm : m = n
    · subst hm; simp [campaign]; omega
    · simp [campaign, hm]

/-- A ballot in the voter's current term is the recorded vote. -/
theorem Inv.ballot_now (hi : g.Inv) {v k : ι} {T : Nat} (hT : g.term v = T)
    (hb : g.ballot v T = some k) : g.vote v = some k := by
  rcases hi.ballot_term hb with h | ⟨_, h⟩
  · omega
  · exact h

theorem ext_grant (hi : g.Inv) {v k : ι} {T : Nat} (hT : g.term v = T)
    (hv : g.vote v = none ∨ g.vote v = some k) : Ext g (g.grant v k T) where
  leader := id
  llog := fun _ => List.prefix_rfl
  grown := fun _ _ _ h₁ h₂ => absurd h₁ (Nat.not_lt.mpr h₂)
  camp := id
  ballot := by
    intro w U k' hb
    by_cases hw : w = v ∧ U = T
    · obtain ⟨rfl, rfl⟩ := hw
      have hk := hi.ballot_now hT hb
      rcases hv with hv | hv
      · rw [hv] at hk; simp at hk
      · rw [hv] at hk; simpa [grant] using hk
    · simpa [grant, update₂, hw] using hb
  acked := fun _ _ => Nat.le_refl _
  term := fun _ => Nat.le_refl _

theorem ext_lead (hi : g.Inv) {k : ι} {T e : Nat} (hnone : g.leader T = none) :
    Ext g (g.lead k T e) where
  leader := by
    intro U x hx
    have hne : U ≠ T := by rintro rfl; rw [hnone] at hx; simp at hx
    simpa [lead, hne] using hx
  llog := by
    intro U
    by_cases hU : U = T
    · subst hU; rw [hi.llog_nil hnone]; exact List.nil_prefix
    · simp [lead, hU]
  grown := by
    intro U i hU h₁ h₂
    have hne : U ≠ T := by rintro rfl; exact hU hnone
    simp [lead, hne] at h₂
    omega
  camp := id
  ballot := id
  acked := by
    intro n U
    by_cases h : n = k ∧ U = T
    · obtain ⟨rfl, rfl⟩ := h
      have := hi.acked_le n U
      rw [hi.llog_nil hnone] at this
      simp at this
      omega
    · simp [lead, update₂, h]
  term := fun _ => Nat.le_refl _

theorem ext_append (hi : g.Inv) {k : ι} {T e : Nat} {a : α} (hT : g.term k = T)
    (hk : g.leader T = some (k, e)) : Ext g (g.append k T a) where
  leader := id
  llog := by
    intro U
    by_cases hU : U = T
    · subst hU; simp [append, (hi.led_log hk).2 hT]
    · simp [append, hU]
  grown := by
    intro U i hU h₁ h₂
    by_cases hUT : U = T
    · subst hUT
      simp only [append, Function.update_self, (hi.led_log hk).2 hT] at h₂ ⊢
      have : i = (g.llog U).length + 1 := by simp at h₂; omega
      subst this
      exact termAt_append_length _ _
    · simp [append, hUT] at h₂
      omega
  camp := id
  ballot := id
  acked := by
    intro n U
    by_cases h : n = k ∧ U = T
    · obtain ⟨rfl, rfl⟩ := h
      have := hi.acked_le n U
      rw [← (hi.led_log hk).2 hT] at this
      simp [append]
      omega
    · simp [append, update₂, h]
  term := fun _ => Nat.le_refl _

theorem Step.ext {g' : Repl ι α} (hi : g.Inv) (h : Step g g') : Ext g g' := by
  cases h with
  | bump n T v hT => exact ext_bump hT
  | campaign n T hT => exact ext_campaign hi hT
  | grant v k T C hT hv hC hup => exact ext_grant hi hT hv
  | lead k T e Q hT hC hnone hQ hvotes => exact ext_lead hi hnone
  | append k T e a hT hk => exact ext_append hi hT hk
  | ack n T m hT hled hm hP => exact ext_ack
  | adopt n T P hT hled hP hnew => exact ext_adopt

/-! ## Each step keeps the invariant -/

theorem inv_bump (hi : g.Inv) {n : ι} {T : Nat} {v : Option ι} (hT : g.term n < T) :
    (g.bump n T v).Inv := by
  have he : Ext g (g.bump n T v) := ext_bump hT
  refine { hi with
    ballot_term := ?_, camp_term := ?_, log_term := ?_, vlog_src := ?_, led_log := ?_,
    acked_term := ?_, kept := ?_, vlog_kept := ?_ }
  · intro w U k hb
    have h := hi.ballot_term hb
    by_cases hw : w = n
    · subst hw; left; simp [bump]; omega
    · simpa [bump, hw] using h
  · intro U k C hC
    obtain ⟨h₁, h₂, h₃, h₄⟩ := hi.camp_term hC
    exact ⟨h₁, h₂.trans (he.term k), h₃, h₄⟩
  · intro m e hm
    exact (hi.log_term m e hm).trans (he.term m)
  · intro w U V hV
    obtain ⟨h₁, h₂⟩ := hi.vlog_src hV
    exact ⟨h₁.trans (he.term w), h₂⟩
  · intro U k e hk
    obtain ⟨h₁, h₂⟩ := hi.led_log hk
    refine ⟨h₁.trans (he.term k), ?_⟩
    by_cases hkn : k = n
    · subst hkn; simp [bump]; omega
    · simpa [bump, hkn] using h₂
  · intro m U N hN hown
    exact hi.acked_term_ext he hN hown
  · intro m U N hN hown hk
    exact hi.kept_ext he hN hown hk
  · intro w U N W V hV hUW hN hown hk
    exact hi.vlog_kept_ext he hV hUW hN hown hk

theorem inv_campaign (hi : g.Inv) {n : ι} {T : Nat} (hT : g.term n < T) :
    (g.campaign n T).Inv := by
  have he : Ext g (g.campaign n T) := ext_campaign hi hT
  have hfresh : ∀ {w U V}, (g.campaign n T).vlog w U = some V →
      g.vlog w U = some V ∨ (w = n ∧ U = T ∧ V = g.log n) := by
    intro w U V hV
    simp only [campaign] at hV
    split at hV
    · by_cases hw : w = n ∧ U = T
      · obtain ⟨rfl, rfl⟩ := hw
        simp at hV
        exact Or.inr ⟨rfl, rfl, hV.symm⟩
      · left; simpa [update₂, hw] using hV
    · exact Or.inl hV
  refine { hi with
    ballot_term := ?_, camp_term := ?_, camp_src := ?_, log_term := ?_, vlog_src := ?_,
    vlog_ballot := ?_, vlog_up := ?_, vlog_some := ?_, led_log := ?_, led_camp := ?_, acked_term := ?_, kept := ?_,
    vlog_kept := ?_ }
  · intro w U k hb
    by_cases hw : w = n ∧ U = T
    · obtain ⟨rfl, rfl⟩ := hw
      right; simpa [campaign] using hb
    · have hb' : g.ballot w U = some k := by simpa [campaign, update₂, hw] using hb
      have h := hi.ballot_term hb'
      by_cases hwn : w = n
      · subst hwn; left; simp [campaign]; omega
      · simpa [campaign, hwn] using h
  · intro U k C hC
    by_cases hU : U = T ∧ k = n
    · obtain ⟨rfl, rfl⟩ := hU
      simp [campaign] at hC ⊢
      subst hC
      refine ⟨by omega, fun e hm => ?_⟩
      have := hi.log_term k e hm
      omega
    · have hC' : g.camp U k = some C := by simpa [campaign, update₂, hU] using hC
      obtain ⟨h₁, h₂, h₃, h₄⟩ := hi.camp_term hC'
      exact ⟨h₁, h₂.trans (he.term k), he.ballot h₃, h₄⟩
  · intro U k C hC
    by_cases hU : U = T ∧ k = n
    · obtain ⟨rfl, rfl⟩ := hU
      simp [campaign] at hC
      subst hC
      exact hi.log_src k
    · exact hi.camp_src (by simpa [campaign, update₂, hU] using hC)
  · intro m e hm
    exact (hi.log_term m e hm).trans (he.term m)
  · intro w U V hV
    rcases hfresh hV with hV | ⟨rfl, rfl, rfl⟩
    · obtain ⟨h₁, h₂⟩ := hi.vlog_src hV
      exact ⟨h₁.trans (he.term w), h₂⟩
    · exact ⟨by simp [campaign], hi.log_src w⟩
  · intro w U V hV
    rcases hfresh hV with hV | ⟨rfl, rfl, -⟩
    · obtain ⟨k, hk⟩ := hi.vlog_ballot hV
      exact ⟨k, he.ballot hk⟩
    · exact ⟨w, by simp [campaign]⟩
  · intro w U V k hV hb
    by_cases hw : w = n ∧ U = T
    · obtain ⟨rfl, rfl⟩ := hw
      have hk : w = k := by simpa [campaign] using hb
      subst hk
      refine ⟨g.log w, by simp [campaign], ?_⟩
      rcases hfresh hV with hV | ⟨-, -, rfl⟩
      · have := (hi.vlog_src hV).1
        omega
      · exact Or.inr ⟨rfl, Nat.le_refl _⟩
    · rcases hfresh hV with hV | ⟨rfl, rfl, -⟩
      · have hb' : g.ballot w U = some k := by simpa [campaign, update₂, hw] using hb
        obtain ⟨C, hC, hup⟩ := hi.vlog_up hV hb'
        exact ⟨C, he.camp hC, hup⟩
      · exact absurd ⟨rfl, rfl⟩ hw
  · intro w U k hnone hb
    have hnone' : g.leader U = none := hnone
    by_cases hw : w = n ∧ U = T
    · obtain ⟨rfl, rfl⟩ := hw
      exact ⟨g.log w, by simp [campaign, hnone']⟩
    · have hb' : g.ballot w U = some k := by simpa [campaign, update₂, hw] using hb
      obtain ⟨V, hV⟩ := hi.vlog_some hnone' hb'
      refine ⟨V, ?_⟩
      simp only [campaign]
      split
      · simpa [update₂, hw] using hV
      · exact hV
  · intro U k e hk
    obtain ⟨h₁, h₂⟩ := hi.led_log hk
    refine ⟨h₁.trans (he.term k), ?_⟩
    by_cases hkn : k = n
    · subst hkn; simp [campaign]; omega
    · simpa [campaign, hkn] using h₂
  · intro U k e hk
    obtain ⟨C, Q, hC, h₁, h₂, hQ, hv⟩ := hi.led_camp hk
    refine ⟨C, Q, he.camp hC, h₁, h₂, hQ, fun v hvQ => ?_⟩
    obtain ⟨hb, V, hV⟩ := hv v hvQ
    refine ⟨he.ballot hb, V, ?_⟩
    have hne : ¬ (v = n ∧ U = T) := by
      rintro ⟨rfl, rfl⟩
      have := (hi.vlog_src hV).1
      omega
    simp only [campaign]
    split
    · simpa [update₂, hne] using hV
    · exact hV
  · intro m U N hN hown
    exact hi.acked_term_ext he hN hown
  · intro m U N hN hown hk
    exact hi.kept_ext he hN hown hk
  · intro w U N W V hV hUW hN hown hk
    rcases hfresh hV with hV | ⟨rfl, rfl, rfl⟩
    · exact hi.vlog_kept_ext he hV hUW hN hown hk
    · exact hi.kept hN hown (hk.mono (Nat.succ_le_of_lt hT))

theorem inv_grant (hi : g.Inv) {v k : ι} {T : Nat} {C : List (Entry α)} (hT : g.term v = T)
    (hv : g.vote v = none ∨ g.vote v = some k) (hC : g.camp T k = some C)
    (hup : UpToDate C (g.log v)) : (g.grant v k T).Inv := by
  have he : Ext g (g.grant v k T) := ext_grant hi hT hv
  have hfresh : ∀ {w U V}, (g.grant v k T).vlog w U = some V →
      g.vlog w U = some V ∨ (w = v ∧ U = T ∧ V = g.log v ∧ g.leader T = none) := by
    intro w U V hV
    simp only [grant] at hV
    split at hV
    · rename_i hnone
      by_cases hw : w = v ∧ U = T
      · obtain ⟨rfl, rfl⟩ := hw
        simp at hV
        exact Or.inr ⟨rfl, rfl, hV.symm, hnone⟩
      · left; simpa [update₂, hw] using hV
    · exact Or.inl hV
  have hkeep : ∀ {w U V}, g.vlog w U = some V → ∃ V', (g.grant v k T).vlog w U = some V' := by
    intro w U V hV
    simp only [grant]
    split
    · by_cases hw : w = v ∧ U = T
      · exact ⟨g.log v, by simp [update₂, hw]⟩
      · exact ⟨V, by simpa [update₂, hw] using hV⟩
    · exact ⟨V, hV⟩
  refine { hi with
    ballot_term := ?_, camp_term := ?_, vlog_src := ?_, vlog_ballot := ?_, vlog_up := ?_,
    vlog_some := ?_, led_camp := ?_, vlog_kept := ?_ }
  · intro w U k' hb
    by_cases hw : w = v ∧ U = T
    · obtain ⟨rfl, rfl⟩ := hw
      right; refine ⟨hT.symm, ?_⟩; simpa [grant] using hb
    · have hb' : g.ballot w U = some k' := by simpa [grant, update₂, hw] using hb
      rcases hi.ballot_term hb' with h | ⟨h₁, h₂⟩
      · exact Or.inl h
      · have hwv : w ≠ v := by rintro rfl; exact hw ⟨rfl, by omega⟩
        right; exact ⟨h₁, by simpa [grant, hwv] using h₂⟩
  · intro U k' C' hC'
    obtain ⟨h₁, h₂, h₃, h₄⟩ := hi.camp_term hC'
    exact ⟨h₁, h₂, he.ballot h₃, h₄⟩
  · intro w U V hV
    rcases hfresh hV with hV | ⟨rfl, rfl, rfl, -⟩
    · exact hi.vlog_src hV
    · exact ⟨hT.ge, hi.log_src w⟩
  · intro w U V hV
    rcases hfresh hV with hV | ⟨rfl, rfl, -, -⟩
    · obtain ⟨k', hk'⟩ := hi.vlog_ballot hV
      exact ⟨k', he.ballot hk'⟩
    · exact ⟨k, by simp [grant]⟩
  · intro w U V k' hV hb
    by_cases hw : w = v ∧ U = T
    · obtain ⟨rfl, rfl⟩ := hw
      have hk : k = k' := by simpa [grant] using hb
      subst hk
      rcases hfresh hV with hV' | ⟨-, -, rfl, -⟩
      · by_cases hnone : g.leader U = none
        · have hVlog : g.log w = V := by simpa [grant, hnone] using hV
          exact ⟨C, hC, hVlog ▸ hup⟩
        · -- the term has its leader: the recorded log is that of an earlier ballot
          by_cases hb' : ∃ k'', g.ballot w U = some k''
          · obtain ⟨k'', hb'⟩ := hb'
            have hk'' := he.ballot hb'
            rw [hb] at hk''
            obtain rfl : k = k'' := by simpa using hk''
            exact hi.vlog_up hV' hb'
          · exact absurd (hi.vlog_ballot hV') hb'
      · exact ⟨C, hC, hup⟩
    · rcases hfresh hV with hV | ⟨rfl, rfl, -, -⟩
      · exact hi.vlog_up hV (by simpa [grant, update₂, hw] using hb)
      · exact absurd ⟨rfl, rfl⟩ hw
  · intro w U k' hnone hb
    have hnone' : g.leader U = none := hnone
    by_cases hw : w = v ∧ U = T
    · obtain ⟨rfl, rfl⟩ := hw
      exact ⟨g.log w, by simp [grant, hnone']⟩
    · have hb' : g.ballot w U = some k' := by simpa [grant, update₂, hw] using hb
      obtain ⟨V, hV⟩ := hi.vlog_some hnone' hb'
      exact hkeep hV
  · intro U k' e hk
    obtain ⟨C', Q, hC', h₁, h₂, hQ, hvs⟩ := hi.led_camp hk
    refine ⟨C', Q, hC', h₁, h₂, hQ, fun w hw => ?_⟩
    obtain ⟨hb, V, hV⟩ := hvs w hw
    exact ⟨he.ballot hb, hkeep hV⟩
  · intro w U N W V hV hUW hN hown hk
    rcases hfresh hV with hV | ⟨rfl, rfl, rfl, hnone⟩
    · exact hi.vlog_kept hV hUW hN hown hk
    · refine hi.kept hN hown ?_
      intro T' h₁ h₂ hled
      rcases Nat.lt_or_ge T' W with h | h
      · exact hk T' h₁ h hled
      · obtain rfl : T' = W := by omega
        exact absurd hnone hled

theorem inv_lead (hi : g.Inv) {k : ι} {T e : Nat} {Q : Finset ι} (hT : g.term k = T)
    (hC : g.camp T k = some (g.log k)) (hnone : g.leader T = none) (hQ : IsMajority Q)
    (hvotes : ∀ v ∈ Q, g.ballot v T = some k) : (g.lead k T e).Inv := by
  have he : Ext g (g.lead k T e) := ext_lead hi hnone
  have hold : ∀ {n U}, ¬ (n = k ∧ U = T) → (g.lead k T e).acked n U = g.acked n U := by
    intro n U h
    simp [lead, update₂, h]
  refine { hi with
    camp_src := fun h => (hi.camp_src h).ext he, log_src := fun n => (hi.log_src n).ext he,
    vlog_src := fun h => ⟨(hi.vlog_src h).1, (hi.vlog_src h).2.ext he⟩,
    vlog_some := ?_, llog_nil := ?_, llog_src := ?_, llog_term := ?_, led_log := ?_,
    led_camp := ?_, acked_le := ?_, acked_term := ?_, kept := ?_, vlog_kept := ?_ }
  · intro v U k' hn hb
    have hne : U ≠ T := by rintro rfl; simp [lead] at hn
    exact hi.vlog_some (by simpa [lead, hne] using hn) hb
  · intro U hn
    have hne : U ≠ T := by rintro rfl; simp [lead] at hn
    simpa [lead, hne] using hi.llog_nil (by simpa [lead, hne] using hn)
  · intro U
    by_cases hU : U = T
    · subst hU; simpa [lead] using (hi.log_src k).ext he
    · simpa [lead, hU] using (hi.llog_src U).ext he
  · intro U x hx
    by_cases hU : U = T
    · subst hU
      have := hi.log_term k x (by simpa [lead] using hx)
      omega
    · exact hi.llog_term U x (by simpa [lead, hU] using hx)
  · intro U k' e' hk
    by_cases hU : U = T
    · subst hU
      obtain ⟨rfl, -⟩ : k = k' ∧ e = e' := by simpa [lead] using hk
      exact ⟨hT.ge, fun _ => by simp [lead]⟩
    · simpa [lead, hU] using hi.led_log (by simpa [lead, hU] using hk)
  · intro U k' e' hk
    by_cases hU : U = T
    · subst hU
      obtain ⟨rfl, -⟩ : k = k' ∧ e = e' := by simpa [lead] using hk
      refine ⟨g.log k, Q, hC, by simp [lead], ?_, hQ, fun v hv => ?_⟩
      · intro i h₁ h₂
        simp [lead] at h₂
        omega
      · exact ⟨hvotes v hv, hi.vlog_some hnone (hvotes v hv)⟩
    · obtain ⟨C, Q', h₁, h₂, h₃, h₄⟩ := hi.led_camp (T := U) (by simpa [lead, hU] using hk)
      exact ⟨C, Q', h₁, by simpa [lead, hU] using h₂, by simpa [lead, hU] using h₃, h₄⟩
  · intro n U
    by_cases h : n = k ∧ U = T
    · obtain ⟨rfl, rfl⟩ := h; simp [lead]
    · rw [hold h]
      exact (hi.acked_le n U).trans (he.llog U).length_le
  · intro n U N hN hown
    by_cases h : n = k ∧ U = T
    · obtain ⟨rfl, rfl⟩ := h; exact hT.ge
    · exact hi.acked_term_ext he (hold h ▸ hN) hown
  · intro n U N hN hown hk
    by_cases h : n = k ∧ U = T
    · obtain ⟨rfl, rfl⟩ := h
      simpa [lead] using List.take_prefix N (g.log n)
    · exact hi.kept_ext he (hold h ▸ hN) hown hk
  · intro v U N W V hV hUW hN hown hk
    by_cases h : v = k ∧ U = T
    · obtain ⟨rfl, rfl⟩ := h
      have := (hi.vlog_src hV).1
      omega
    · exact hi.vlog_kept_ext he hV hUW (hold h ▸ hN) hown hk

theorem inv_append (hi : g.Inv) {k : ι} {T e : Nat} {a : α} (hT : g.term k = T)
    (hk : g.leader T = some (k, e)) : (g.append k T a).Inv := by
  have he : Ext g (g.append k T a) := ext_append hi hT hk
  have hlog : g.log k = g.llog T := (hi.led_log hk).2 hT
  have hold : ∀ {n U}, ¬ (n = k ∧ U = T) → (g.append k T a).acked n U = g.acked n U := by
    intro n U h
    simp [append, update₂, h]
  have hllog : (g.append k T a).llog T = g.log k ++ [⟨T, a⟩] := by simp [append]
  have hnew : (g.append k T a).Sourced (g.log k ++ [⟨T, a⟩]) := by
    intro i h₁ h₂
    by_cases hi' : i ≤ (g.log k).length
    · have hpre : g.log k <+: g.log k ++ [⟨T, a⟩] := List.prefix_append _ _
      have := ((hi.log_src k).ext he) i h₁ hi'
      rw [termAt_prefix_eq hpre hi', List.take_append_of_le_length hi']
      exact this
    · obtain rfl : i = (g.log k).length + 1 := by simp at h₂; omega
      rw [termAt_append_length, hllog]
      exact ⟨he.led (by simp [hk]), List.take_prefix _ _⟩
  refine { hi with
    camp_src := fun h => (hi.camp_src h).ext he,
    vlog_src := fun h => ⟨(hi.vlog_src h).1, (hi.vlog_src h).2.ext he⟩,
    log_src := ?_, log_term := ?_, llog_nil := ?_, llog_src := ?_, llog_term := ?_,
    led_log := ?_, led_camp := ?_, acked_le := ?_, acked_term := ?_, kept := ?_, vlog_kept := ?_ }
  · intro n
    by_cases hn : n = k
    · subst hn; simpa [append] using hnew
    · simpa [append, hn] using (hi.log_src n).ext he
  · intro n x hx
    by_cases hn : n = k
    · subst hn
      simp [append] at hx
      rcases hx with hx | rfl
      · exact hi.log_term n x hx
      · exact hT.ge
    · exact hi.log_term n x (by simpa [append, hn] using hx)
  · intro U hn
    have hn' : g.leader U = none := hn
    have hne : U ≠ T := by rintro rfl; rw [hk] at hn'; simp at hn'
    simpa [append, hne] using hi.llog_nil hn'
  · intro U
    by_cases hU : U = T
    · subst hU; rw [hllog]; exact hnew
    · simpa [append, hU] using (hi.llog_src U).ext he
  · intro U x hx
    by_cases hU : U = T
    · subst hU
      rw [hllog, hlog] at hx
      rcases List.mem_append.mp hx with hx | hx
      · exact hi.llog_term U x hx
      · simp at hx; simp [hx]
    · exact hi.llog_term U x (by simpa [append, hU] using hx)
  · intro U k' e' hk'
    have hk'' : g.leader U = some (k', e') := hk'
    obtain ⟨h₁, h₂⟩ := hi.led_log hk''
    refine ⟨h₁, fun hterm => ?_⟩
    by_cases hU : U = T
    · subst hU
      obtain ⟨rfl, -⟩ : k = k' ∧ e = e' := by simpa [hk] using hk''
      simp [append]
    · have hne : k' ≠ k := by
        rintro rfl
        exact hU (hterm.symm.trans hT)
      simpa [append, hU, hne] using h₂ hterm
  · intro U k' e' hk'
    have hk'' : g.leader U = some (k', e') := hk'
    obtain ⟨C, Q, h₁, h₂, h₃, h₄⟩ := hi.led_camp hk''
    refine ⟨C, Q, h₁, h₂.trans (he.llog U), ?_, h₄⟩
    intro i hi₁ hi₂
    by_cases hle : i ≤ (g.llog U).length
    · rw [termAt_prefix_eq (he.llog U) hle]
      exact h₃ i hi₁ hle
    · exact he.grown U i (by simp [hk'']) (by omega) hi₂
  · intro n U
    by_cases h : n = k ∧ U = T
    · obtain ⟨rfl, rfl⟩ := h; simp [append]
    · rw [hold h]
      exact (hi.acked_le n U).trans (he.llog U).length_le
  · intro n U N hN hown
    by_cases h : n = k ∧ U = T
    · obtain ⟨rfl, rfl⟩ := h; exact hT.ge
    · exact hi.acked_term_ext he (hold h ▸ hN) hown
  · intro n U N hN hown hkept
    by_cases h : n = k ∧ U = T
    · obtain ⟨rfl, rfl⟩ := h
      rw [hllog]
      simpa [append] using List.take_prefix N (g.log n ++ [⟨U, a⟩])
    · have hp := hi.kept_ext he (hold h ▸ hN) hown hkept
      by_cases hn : n = k
      · subst hn; simpa [append] using hp.trans (List.prefix_append _ _)
      · simpa [append, hn] using hp
  · intro v U N W V hV hUW hN hown hkept
    by_cases h : v = k ∧ U = T
    · obtain ⟨rfl, rfl⟩ := h
      have := (hi.vlog_src hV).1
      omega
    · exact hi.vlog_kept_ext he hV hUW (hold h ▸ hN) hown hkept

theorem inv_ack (hi : g.Inv) {n : ι} {T m : Nat} (hT : g.term n ≤ T)
    (hm : m ≤ (g.llog T).length) (hP : (g.llog T).take m <+: g.log n) : (g.ack n T m).Inv := by
  have hcases : ∀ {n' U N}, N ≤ (g.ack n T m).acked n' U →
      N ≤ g.acked n' U ∨ (n' = n ∧ U = T ∧ N ≤ m) := by
    intro n' U N hN
    by_cases h : n' = n ∧ U = T
    · obtain ⟨rfl, rfl⟩ := h
      simpa [ack] using hN
    · left; simpa [ack, update₂, h] using hN
  refine { hi with acked_le := ?_, acked_term := ?_, kept := ?_, vlog_kept := ?_ }
  · intro n' U
    rcases hcases (Nat.le_refl ((g.ack n T m).acked n' U)) with h | ⟨rfl, rfl, h⟩
    · exact h.trans (hi.acked_le n' U)
    · exact h.trans hm
  · intro n' U N hN hown
    have hown' : g.Own U N := hown
    rcases hcases hN with h | ⟨rfl, rfl, h⟩
    · exact hi.acked_term h hown'
    · -- the entry is in the node's own log
      have hlen : N ≤ ((g.llog U).take m).length := by simp; exact ⟨h, hown'.le⟩
      have hterm : termAt (g.log n') N = U := by
        rw [termAt_prefix_eq hP hlen, termAt_take h]
        exact hown'.2
      obtain ⟨x, hx, -, hxt⟩ := exists_entry hown'.pos (hlen.trans hP.length_le)
      have := hi.log_term n' x hx
      exact (show U ≤ g.term n' by omega)
  · intro n' U N hN hown hk
    rcases hcases hN with h | ⟨rfl, rfl, h⟩
    · exact hi.kept h hown hk
    · exact (List.take_prefix_take_left h).trans hP
  · intro v U N W V hV hUW hN hown hk
    rcases hcases hN with h | ⟨rfl, rfl, h⟩
    · exact hi.vlog_kept hV hUW h hown hk
    · have := (hi.vlog_src hV).1
      omega

theorem inv_adopt (hi : g.Inv) {n : ι} {T : Nat} {P : List (Entry α)} (hT : g.term n = T)
    (hP : P <+: g.llog T) (hnew : ¬ P <+: g.log n) : (g.adopt n T P).Inv := by
  have hcases : ∀ {n' U N}, N ≤ (g.adopt n T P).acked n' U →
      N ≤ g.acked n' U ∨ (n' = n ∧ U = T ∧ N ≤ P.length) := by
    intro n' U N hN
    by_cases h : n' = n ∧ U = T
    · obtain ⟨rfl, rfl⟩ := h
      simpa [adopt] using hN
    · left; simpa [adopt, update₂, h] using hN
  -- a piece shorter than what the log is bound to hold would be in it already
  have hshort : ∀ {U N}, N ≤ g.acked n U → g.Own U N → g.Kept U N (g.term n + 1) →
      (g.llog U).take N <+: g.llog T → (g.llog U).take N <+: P := by
    intro U N hN hown hk hU
    rcases List.prefix_or_prefix_of_prefix hU hP with h | h
    · exact h
    · exact absurd (h.trans (hi.kept hN hown hk)) hnew
  refine { hi with
    log_src := ?_, log_term := ?_, led_log := ?_, acked_le := ?_, acked_term := ?_, kept := ?_,
    vlog_kept := ?_ }
  · intro n'
    have hsrc : g.Sourced ((g.adopt n T P).log n') := by
      by_cases hn : n' = n
      · subst hn; simpa [adopt] using (hi.llog_src T).shorten hP
      · simpa [adopt, hn] using hi.log_src n'
    exact hsrc
  · intro n' x hx
    by_cases hn : n' = n
    · subst hn
      have hx' : x ∈ P := by simpa [adopt] using hx
      exact (hi.llog_term T x (hP.subset hx')).trans hT.ge
    · exact hi.log_term n' x (by simpa [adopt, hn] using hx)
  · intro U k e hk
    obtain ⟨h₁, h₂⟩ := hi.led_log (T := U) hk
    refine ⟨h₁, fun hterm => ?_⟩
    by_cases hkn : k = n
    · subst hkn
      obtain rfl : T = U := hT.symm.trans hterm
      exact absurd (h₂ hT ▸ hP) hnew
    · simpa [adopt, hkn] using h₂ hterm
  · intro n' U
    rcases hcases (Nat.le_refl ((g.adopt n T P).acked n' U)) with h | ⟨rfl, rfl, h⟩
    · exact h.trans (hi.acked_le n' U)
    · exact h.trans hP.length_le
  · intro n' U N hN hown
    rcases hcases hN with h | ⟨rfl, rfl, h⟩
    · exact hi.acked_term h hown
    · exact hT.ge
  · intro n' U N hN hown hk
    by_cases hn : n' = n
    · subst hn
      have hgoal : (g.llog U).take N <+: P := by
        rcases hcases hN with h | ⟨-, rfl, h⟩
        · rcases Nat.lt_or_ge U T with hUT | hUT
          · by_cases hled : g.leader T = none
            · exact absurd (by rw [hi.llog_nil hled, List.prefix_nil] at hP; rw [hP]; exact List.nil_prefix) hnew
            · exact hshort h hown hk (hk T hUT (Nat.lt_succ_of_le hT.ge) hled)
          · obtain rfl : U = T := by
              have := hi.acked_term h hown
              omega
            exact hshort h hown hk (List.take_prefix _ _)
        · exact List.prefix_of_prefix_length_le (List.take_prefix _ _) hP (by simp; omega)
      simpa [adopt] using hgoal
    · rcases hcases hN with h | ⟨h, -⟩
      · simpa [adopt, hn] using hi.kept h hown hk
      · exact absurd h hn
  · intro v U N W V hV hUW hN hown hk
    rcases hcases hN with h | ⟨rfl, rfl, h⟩
    · exact hi.vlog_kept hV hUW h hown hk
    · have := (hi.vlog_src hV).1
      omega

theorem Step.inv {g' : Repl ι α} (hi : g.Inv) (h : Step g g') : g'.Inv := by
  cases h with
  | bump n T v hT => exact inv_bump hi hT
  | campaign n T hT => exact inv_campaign hi hT
  | grant v k T C hT hv hC hup => exact inv_grant hi hT hv hC hup
  | lead k T e Q hT hC hnone hQ hvotes => exact inv_lead hi hT hC hnone hQ hvotes
  | append k T e a hT hk => exact inv_append hi hT hk
  | ack n T m hT hled hm hP => exact inv_ack hi hT hm hP
  | adopt n T P hT hled hP hnew => exact inv_adopt hi hT hP hnew

/-- Any number of steps. -/
def Steps (g g' : Repl ι α) : Prop := Relation.ReflTransGen Step g g'

theorem Steps.inv_ext {g' : Repl ι α} (hi : g.Inv) (h : Steps g g') : g'.Inv ∧ Ext g g' := by
  induction h with
  | refl => exact ⟨hi, Ext.refl g⟩
  | tail _ hstep ih => exact ⟨hstep.inv ih.1, ih.2.trans (hstep.ext ih.1)⟩

theorem Steps.single {g' : Repl ι α} (h : Step g g') : Steps g g' := Relation.ReflTransGen.single h

theorem Steps.trans {g' g'' : Repl ι α} (h : Steps g g') (h' : Steps g' g'') : Steps g g'' :=
  Relation.ReflTransGen.trans h h'

/-! ## What a node keeps during a term -/

/-- A node that stays in a term keeps whatever of the leader's log its own starts with. -/
theorem Step.keeps_log {g' : Repl ι α} (h : Step g g') {n : ι} {T : Nat} {P : List (Entry α)}
    (hT : g.term n = T) (hP : P <+: g.llog T) (hlog : P <+: g.log n) : P <+: g'.log n := by
  cases h with
  | bump m U v hU => exact hlog
  | campaign m U hU => exact hlog
  | grant v k U C hU hv hC hup => exact hlog
  | lead k U e Q hU hC hnone hQ hvotes => exact hlog
  | append k U e a hU hk =>
    by_cases hn : n = k
    · subst hn
      simp only [Repl.append, Function.update_self]
      exact hlog.trans (List.prefix_append _ _)
    · simp only [Repl.append, Function.update_of_ne hn]
      exact hlog
  | ack m U N hU hled hN hpre => exact hlog
  | adopt m U R hU hled hR hnew =>
    by_cases hn : n = m
    · subst hn
      obtain rfl : T = U := hT.symm.trans hU
      simp only [Repl.adopt, Function.update_self]
      -- the piece taken over is not in the log, so it goes beyond `P`
      rcases List.prefix_or_prefix_of_prefix hP hR with hPR | hRP
      · exact hPR
      · exact absurd (hRP.trans hlog) hnew
    · simp only [Repl.adopt, Function.update_of_ne hn]
      exact hlog

theorem Steps.keeps_log {g' : Repl ι α} (h : Steps g g') (hi : g.Inv) {n : ι} {T : Nat}
    {P : List (Entry α)} (hT : g.term n = T) (hT' : g'.term n = T) (hP : P <+: g.llog T)
    (hlog : P <+: g.log n) : P <+: g'.log n := by
  induction h with
  | refl => exact hlog
  | @tail g₁ g₂ hsteps hstep ih =>
    obtain ⟨hi₁, hext⟩ := Steps.inv_ext hi hsteps
    have hge := hext.term n
    have hle := (hstep.ext hi₁).term n
    have hT₁ : g₁.term n = T := by omega
    exact hstep.keeps_log hT₁ (hP.trans (hext.llog T)) (ih hT₁)

/-- The node has been in term `T`, and as long as it stays there its log starts with the first `k`
entries of the leader's. -/
structure Shares (g : Repl ι α) (n : ι) (T k : Nat) : Prop where
  le : k ≤ (g.llog T).length
  term : T ≤ g.term n
  log : g.term n = T → (g.llog T).take k <+: g.log n

omit [Fintype ι] [DecidableEq ι] in
theorem Shares.mono {n : ι} {T j k : Nat} (h : g.Shares n T k) (hjk : j ≤ k) : g.Shares n T j where
  le := hjk.trans h.le
  term := h.term
  log := fun hT => (List.take_prefix_take_left hjk).trans (h.log hT)

theorem Shares.steps {g' : Repl ι α} {n : ι} {T k : Nat} (h : g.Shares n T k) (hi : g.Inv)
    (hsteps : Steps g g') : g'.Shares n T k := by
  have hext := (hsteps.inv_ext hi).2
  have hge := hext.term n
  have hterm := h.term
  refine ⟨h.le.trans (hext.llog T).length_le, hterm.trans hge, fun hT' => ?_⟩
  have hT : g.term n = T := by omega
  rw [take_ext h.le hext]
  exact hsteps.keeps_log hi hT hT' (List.take_prefix _ _) (h.log hT)

/-! ## What leaders put into their logs -/

/-- A new leader starts with entries of earlier terms only. -/
theorem quiet_lead (hi : g.Inv) {k : ι} {T e : Nat} (hnone : g.leader T = none) :
    Quiet g (g.lead k T e) := by
  intro k' i U a ⟨⟨e', hk'⟩, hx⟩
  by_cases hU : U = T
  · subst hU
    simp only [lead, Function.update_self] at hx
    obtain ⟨k'', ⟨e'', hk''⟩, -⟩ := (hi.log_src k).put hx
    rw [hnone] at hk''
    simp at hk''
  · simp only [lead, Function.update_of_ne hU] at hk' hx
    exact ⟨⟨e', hk'⟩, hx⟩

/-- A leader that appends puts one entry, at the end of its log. -/
theorem put_append (hi : g.Inv) {k : ι} {T e : Nat} {a : α} (hT : g.term k = T)
    (hk : g.leader T = some (k, e)) {k' : ι} {i U : Nat} {b : α} :
    (g.append k T a).Put k' i U b ↔
      g.Put k' i U b ∨ (k' = k ∧ i = (g.log k).length ∧ U = T ∧ b = a) := by
  have hlog : g.log k = g.llog T := (hi.led_log hk).2 hT
  have hput : g.Put k' i U b → (g.append k T a).Put k' i U b := fun h => h.ext (ext_append hi hT hk)
  refine ⟨fun h => ?_, fun h => h.elim hput ?_⟩
  · obtain ⟨⟨e', hk'⟩, hx⟩ := h
    by_cases hU : U = T
    · subst hU
      simp only [append, Function.update_self] at hk' hx
      rw [List.getElem?_append] at hx
      split at hx
      · rw [hlog] at hx
        exact Or.inl ⟨⟨e', hk'⟩, hx⟩
      · rename_i hlt
        obtain ⟨hlt', hx⟩ := List.getElem?_eq_some_iff.mp hx
        rw [List.getElem_singleton, Entry.mk.injEq] at hx
        rw [hk] at hk'
        simp only [Option.some.injEq, Prod.mk.injEq] at hk'
        rw [List.length_singleton] at hlt'
        exact Or.inr ⟨hk'.1.symm, by omega, rfl, hx.2.symm⟩
    · simp only [append, Function.update_of_ne hU] at hk' hx
      exact Or.inl ⟨⟨e', hk'⟩, hx⟩
  · rintro ⟨rfl, rfl, rfl, rfl⟩
    exact ⟨⟨e, hk⟩, by simp [append]⟩

end Repl

end DistSys.Lib
