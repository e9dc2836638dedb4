import DistSys.Lib.Balance
import DistSys.Lib.Counter
import DistSys.Shardkv1.ShardCfg

/- What `Rebalance` leaves behind, and how much it moves.

   `analyze` finds a most and a least loaded group (`analyze_spec`). Both loops of
   `Rebalance` then make only moves that raise the number of shards an even assignment could
   leave in place, by as much as they move: the first one ends with every shard in a known
   group (`assignLoop_spec`), and the second one cannot go on for longer than there are shards
   (`moveLoop_spec`). -/
namespace DistSys.Shardkv1

open Lib

namespace ShardConfig

/-- The gids of `Groups`. -/
def gids (c : ShardConfig) : Finset Tgid := c.groups.keys.toFinset

theorem mem_gids {c : ShardConfig} {g : Tgid} : g ∈ c.gids ↔ (c.groups.lookup g).isSome := by
  rw [gids, List.mem_toFinset, ← AList.mem_keys, AList.lookup_isSome]

theorem notMem_gids {c : ShardConfig} {g : Tgid} : (c.groups.lookup g).isNone ↔ g ∉ c.gids := by
  rw [mem_gids, ← Option.not_isSome, Bool.not_eq_true', Bool.not_eq_true]

theorem counts_eq (c : ShardConfig) (g : Tgid) : c.counts g = load c.shards g := by
  simp [counts, load, Finset.card, Finset.filter, Fin.univ_def, List.countP_eq_length_filter]

end ShardConfig

/-! ## analyze -/

/-- The counts found so far bound those of all gids passed, and are the initial ones or
those of some gid passed. -/
structure Extremes.Over (found : Extremes) (counts : Tgid → Int) (groups : List Tgid)
    (start : Extremes) : Prop where
  most : ∀ g ∈ groups, counts g ≤ found.mn
  least : ∀ g ∈ groups, found.ln ≤ counts g
  mn_le : start.mn ≤ found.mn
  le_ln : found.ln ≤ start.ln
  mg : (found.mn = start.mn ∧ found.mg = start.mg) ∨ (found.mg ∈ groups ∧ counts found.mg = found.mn)
  lg : (found.ln = start.ln ∧ found.lg = start.lg) ∨ (found.lg ∈ groups ∧ counts found.lg = found.ln)

theorem analyzeLoop_over (counts : Tgid → Int) (groups : List Tgid) (start : Extremes) :
    (analyzeLoop counts groups start).Over counts groups start := by
  induction groups generalizing start with
  | nil => exact ⟨by simp, by simp, le_rfl, le_rfl, Or.inl ⟨rfl, rfl⟩, Or.inl ⟨rfl, rfl⟩⟩
  | cons g groups ih =>
    rw [analyzeLoop]
    generalize hnext : (let found := if counts g < start.ln then
      { start with ln := counts g, lg := g } else start
      if counts g > found.mn then { found with mn := counts g, mg := g } else found) = next
    have h := ih next
    -- one round: each of the two records stays, or is that of `g`
    have hmost : start.mn ≤ next.mn ∧ counts g ≤ next.mn ∧
        ((next.mn = start.mn ∧ next.mg = start.mg) ∨ (next.mg = g ∧ counts g = next.mn)) := by
      subst hnext
      dsimp only
      split <;> split <;> simp_all <;> omega
    have hleast : next.ln ≤ start.ln ∧ next.ln ≤ counts g ∧
        ((next.ln = start.ln ∧ next.lg = start.lg) ∨ (next.lg = g ∧ counts g = next.ln)) := by
      subst hnext
      dsimp only
      split <;> split <;> simp_all <;> omega
    refine ⟨?_, ?_, hmost.1.trans h.mn_le, h.le_ln.trans hleast.1, ?_, ?_⟩
    · intro x hx
      rcases List.mem_cons.mp hx with heq | hx
      · rw [heq]
        exact hmost.2.1.trans h.mn_le
      · exact h.most x hx
    · intro x hx
      rcases List.mem_cons.mp hx with heq | hx
      · rw [heq]
        exact h.le_ln.trans hleast.2.1
      · exact h.least x hx
    · rcases h.mg with ⟨hmn, hmg⟩ | ⟨hmem, hmg⟩
      · rcases hmost.2.2 with ⟨hmn', hmg'⟩ | ⟨hmg', hmn'⟩
        · exact Or.inl ⟨hmn.trans hmn', hmg.trans hmg'⟩
        · right
          rw [hmg, hmg', hmn]
          exact ⟨List.mem_cons_self, hmn'⟩
      · exact Or.inr ⟨List.mem_cons_of_mem _ hmem, hmg⟩
    · rcases h.lg with ⟨hln, hlg⟩ | ⟨hmem, hlg⟩
      · rcases hleast.2.2 with ⟨hln', hlg'⟩ | ⟨hlg', hln'⟩
        · exact Or.inl ⟨hln.trans hln', hlg.trans hlg'⟩
        · right
          rw [hlg, hlg', hln]
          exact ⟨List.mem_cons_self, hln'⟩
      · exact Or.inr ⟨List.mem_cons_of_mem _ hmem, hlg⟩

namespace ShardConfig

variable {c : ShardConfig}

/-- The groups that `analyze` returns, with their counts. -/
theorem analyze_spec (hne : c.gids.Nonempty) :
    (c.analyze.mg ∈ c.gids ∧ c.analyze.mn = load c.shards c.analyze.mg ∧
        ∀ g ∈ c.gids, load c.shards g ≤ load c.shards c.analyze.mg) ∧
      c.analyze.lg ∈ c.gids ∧ c.analyze.ln = load c.shards c.analyze.lg ∧
        ∀ g ∈ c.gids, load c.shards c.analyze.lg ≤ load c.shards g := by
  have h : c.analyze.Over c.counts c.sortedGroups _ := analyzeLoop_over _ _ _
  have hmem : ∀ g, g ∈ c.sortedGroups ↔ g ∈ c.gids := by
    intro g
    rw [sortedGroups, gids, List.mem_toFinset, (List.perm_insertionSort _ _).mem_iff]
  obtain ⟨g₀, hg₀⟩ := hne
  have hcount : ∀ g, c.counts g = load c.shards g := c.counts_eq
  have hbound : load c.shards g₀ ≤ nShards := by
    simpa using load_le_card c.shards g₀
  have hmost₀ := h.most g₀ ((hmem g₀).mpr hg₀)
  have hleast₀ := h.least g₀ ((hmem g₀).mpr hg₀)
  rw [hcount] at hmost₀ hleast₀
  have hsmall : nShards < 257 := by decide
  constructor
  · rcases h.mg with ⟨hmn, -⟩ | ⟨hmg, hmn⟩
    · simp only at hmn
      omega
    · rw [hcount] at hmn
      refine ⟨(hmem _).mp hmg, hmn.symm, ?_⟩
      intro g hg
      have hle := h.most g ((hmem g).mpr hg)
      rw [hcount] at hle
      omega
  · rcases h.lg with ⟨hln, -⟩ | ⟨hlg, hln⟩
    · simp only at hln
      omega
    · rw [hcount] at hln
      refine ⟨(hmem _).mp hlg, hln.symm, ?_⟩
      intro g hg
      have hle := h.least g ((hmem g).mpr hg)
      rw [hcount] at hle
      omega

/-! ## The two loops -/

@[simp] theorem gids_setShard (c : ShardConfig) (s : Tshid) (g : Tgid) : (c.setShard s g).gids = c.gids :=
  rfl

/-- Same groups and number: only shards were assigned. -/
def SameGroups (c c' : ShardConfig) : Prop := c'.groups = c.groups ∧ c'.num = c.num

theorem SameGroups.gids {c c' : ShardConfig} (h : SameGroups c c') : c'.gids = c.gids := by
  rw [ShardConfig.gids, h.1, ShardConfig.gids]

theorem SameGroups.trans {c c' c'' : ShardConfig} (h : SameGroups c c') (h' : SameGroups c' c'') :
    SameGroups c c'' :=
  ⟨h'.1.trans h.1, h'.2.trans h.2⟩

theorem SameGroups.setShard (c : ShardConfig) (s : Tshid) (g : Tgid) : SameGroups c (c.setShard s g) :=
  ⟨rfl, rfl⟩

/-- The first loop: what it still has to look at is as in the copy it runs over. -/
theorem assignLoop_spec (shards : Tshid → Tgid) (hne : c.gids.Nonempty) {todo : List Tshid}
    (hnodup : todo.Nodup) (hcopy : ∀ s ∈ todo, c.shards s = shards s) :
    SameGroups c (assignLoop shards todo c) ∧
      Frugal c.gids c.shards (assignLoop shards todo c).shards ∧
      (∀ s ∈ todo, (assignLoop shards todo c).shards s ∈ c.gids) ∧
      ∀ s ∉ todo, (assignLoop shards todo c).shards s = c.shards s := by
  induction todo generalizing c with
  | nil => exact ⟨⟨rfl, rfl⟩, Frugal.refl _ _, by simp, fun _ _ => rfl⟩
  | cons s rest ih =>
    obtain ⟨hs, hrest⟩ := List.nodup_cons.mp hnodup
    rw [assignLoop]
    have hcopy_s : c.shards s = shards s := hcopy s List.mem_cons_self
    by_cases hknown : shards s ∈ c.gids
    · have hsome : ¬ (c.groups.lookup (shards s)).isNone := by
        rw [notMem_gids]
        exact fun h => h hknown
      simp only [if_neg hsome]
      obtain ⟨hsame, hfrugal, hin, hout⟩ := ih hne hrest fun x hx => hcopy x (List.mem_cons_of_mem _ hx)
      refine ⟨hsame, hfrugal, ?_, ?_⟩
      · intro x hx
        rcases List.mem_cons.mp hx with heq | hx
        · rw [heq, hout s hs, hcopy_s]
          exact hknown
        · exact hin x hx
      · intro x hx
        exact hout x fun h => hx (List.mem_cons_of_mem _ h)
    · simp only [if_pos (notMem_gids.mpr hknown)]
      obtain ⟨-, hlg, -, hleast⟩ := analyze_spec hne
      have hother : ∀ x ∈ rest, (c.setShard s c.least).shards x = shards x := by
        intro x hx
        have hxs : x ≠ s := fun heq => hs (heq ▸ hx)
        rw [shards_setShard_of_ne c hxs]
        exact hcopy x (List.mem_cons_of_mem _ hx)
      obtain ⟨hsame, hfrugal, hin, hout⟩ := ih (c := c.setShard s c.least) hne hrest hother
      rw [gids_setShard] at hfrugal hin
      refine ⟨(SameGroups.setShard c s _).trans hsame, ?_, ?_, ?_⟩
      · apply Frugal.trans _ hfrugal
        apply Frugal.place _ hlg hleast
        rw [hcopy_s]
        exact hknown
      · intro x hx
        rcases List.mem_cons.mp hx with heq | hx
        · rw [heq, hout s hs, shards_setShard_self]
          exact hlg
        · exact hin x hx
      · intro x hx
        have hxs : x ≠ s := fun heq => hx (heq ▸ List.mem_cons_self)
        rw [hout x fun h => hx (List.mem_cons_of_mem _ h), shards_setShard_of_ne c hxs]

/-- A group that has shards gives one. -/
theorem moveOne_eq {mg : Tgid} (hmg : 0 < load c.shards mg) (lg : Tgid) :
    ∃ s, c.shards s = mg ∧ c.moveOne mg lg = c.setShard s lg := by
  obtain ⟨s, hs⟩ := Finset.card_pos.mp hmg
  have hfound : ((List.finRange nShards).find? (c.shards · = mg)).isSome := by
    rw [List.find?_isSome]
    exact ⟨s, List.mem_finRange s, by simpa using hs⟩
  obtain ⟨s', hs'⟩ := Option.isSome_iff_exists.mp hfound
  refine ⟨s', by simpa using List.find?_some hs', ?_⟩
  rw [moveOne, hs']

/-- The second loop: it ends before the fuel does, since each round raises what can be kept. -/
theorem moveLoop_spec (hne : c.gids.Nonempty) (hvalid : ∀ s, c.shards s ∈ c.gids) {fuel : Nat}
    (hfuel : nShards < fuel + keepable nShards c.gids (load c.shards)) :
    ∃ c', moveLoop fuel c = some c' ∧ SameGroups c c' ∧ Frugal c.gids c.shards c'.shards ∧
      EvenOver c.gids c'.shards := by
  induction fuel generalizing c with
  | zero =>
    have hle := keepable_le nShards c.gids (load c.shards)
    omega
  | succ fuel ih =>
    obtain ⟨⟨hmg, hmn, hmost⟩, hlg, hln, hleast⟩ := analyze_spec hne
    rw [moveLoop]
    by_cases hend : c.analyze.mn < c.analyze.ln + 2
    · refine ⟨c, if_pos hend, ⟨rfl, rfl⟩, Frugal.refl _ _, hvalid, ?_⟩
      intro g g' hg hg'
      have h₁ := hmost g hg
      have h₂ := hleast g' hg'
      omega
    · have hsome : 0 < load c.shards c.analyze.mg := by omega
      obtain ⟨s, hs, hmove⟩ := moveOne_eq hsome c.analyze.lg
      have hgap : load c.shards c.analyze.lg + 2 ≤ load c.shards c.analyze.mg := by omega
      rw [← hs] at hmost hgap
      obtain ⟨hfrugal, hmore⟩ := Frugal.shift hvalid hlg hleast hmost hgap
      have hvalid' : ∀ x, (c.setShard s c.analyze.lg).shards x ∈ (c.setShard s c.analyze.lg).gids := by
        intro x
        by_cases hx : x = s
        · rw [hx, shards_setShard_self]
          exact hlg
        · rw [shards_setShard_of_ne c hx]
          exact hvalid x
      rw [Fintype.card_fin] at hmore
      have hkeep : keepable nShards c.gids (load c.shards) <
          keepable nShards c.gids (load (c.setShard s c.analyze.lg).shards) := hmore
      obtain ⟨c', hloop, hsame, hfrugal', heven⟩ :=
        ih (c := c.setShard s c.analyze.lg) hne hvalid' (by rw [gids_setShard]; omega)
      refine ⟨c', ?_, (SameGroups.setShard c s _).trans hsame, hfrugal.trans hfrugal', heven⟩
      simp only [if_neg hend, hmove]
      exact hloop

/-! ## Rebalance -/

theorem gids_nonempty_iff : c.gids.Nonempty ↔ ¬ c.groups.keys.length < 1 := by
  rw [gids, List.toFinset_nonempty_iff, Nat.lt_one_iff, List.length_eq_zero_iff]

/-- With groups, `Rebalance` ends in an even assignment, by a frugal way. -/
theorem rebalance_spec (hne : c.gids.Nonempty) :
    ∃ c', c.rebalance = some c' ∧ SameGroups c c' ∧ Frugal c.gids c.shards c'.shards ∧
      EvenOver c.gids c'.shards := by
  obtain ⟨hsame, hfrugal, hin, -⟩ := assignLoop_spec (c := c) c.shards hne (List.nodup_finRange nShards)
    fun _ _ => rfl
  rw [rebalance, if_neg (gids_nonempty_iff.mp hne)]
  generalize assignLoop c.shards (List.finRange nShards) c = assigned at hsame hfrugal hin ⊢
  have hvalid : ∀ s, assigned.shards s ∈ assigned.gids := by
    intro s
    rw [hsame.gids]
    exact hin s (List.mem_finRange s)
  have hgids : assigned.gids.Nonempty := by rwa [hsame.gids]
  have hfuel : nShards < nShards + 1 + keepable nShards assigned.gids (load assigned.shards) :=
    Nat.lt_add_right _ (Nat.lt_succ_self _)
  obtain ⟨c', hloop, hsame', hfrugal', heven⟩ := moveLoop_spec hgids hvalid hfuel
  rw [hsame.gids] at hfrugal' heven
  exact ⟨c', hloop, hsame.trans hsame', hfrugal.trans hfrugal', heven⟩

/-- Without groups it un-assigns all shards. -/
theorem rebalance_empty (h : ¬ c.gids.Nonempty) : c.rebalance = some { c with shards := fun _ => 0 } := by
  rw [gids_nonempty_iff, not_not] at h
  rw [rebalance, if_pos h]

/-- `Rebalance` changes as few shards as any way to an even assignment over the groups does, and
none where the assignment is even already. -/
theorem rebalance_moves_fewest (hne : c.gids.Nonempty) :
    ∃ c', c.rebalance = some c' ∧
      IsLeast {d | ∃ e : Tshid → Tgid, EvenOver c.gids e ∧ d = hammingDist c.shards e}
        (hammingDist c.shards c'.shards) ∧
      (EvenOver c.gids c.shards → c'.shards = c.shards) := by
  obtain ⟨c', hrun, -, hfrugal, heven⟩ := rebalance_spec hne
  refine ⟨c', hrun, ⟨⟨c'.shards, heven, rfl⟩, ?_⟩, ?_⟩
  · rintro d ⟨e, he, hd⟩
    rw [hd]
    exact hfrugal.hammingDist_le he
  · intro hbefore
    have hzero : hammingDist c.shards c'.shards ≤ hammingDist c.shards c.shards :=
      hfrugal.hammingDist_le hbefore
    rw [hammingDist_self, Nat.le_zero, hammingDist_eq_zero] at hzero
    exact hzero.symm

/-- Three groups, and four shards of a group that is gone. -/
def departed : ShardConfig where
  num := 3
  shards := fun s => if s.val < 4 then 9 else if s.val < 10 then 1 else 2
  groups := AList.insert 1 ["x"] (AList.insert 2 ["y"] (AList.singleton 3 ["z"]))

theorem rebalance_moves_fewest_departed :
    ∃ c', departed.rebalance = some c' ∧
      IsLeast {d | ∃ e : Tshid → Tgid, EvenOver departed.gids e ∧ d = hammingDist departed.shards e}
        (hammingDist departed.shards c'.shards) := by
  have hne : departed.gids.Nonempty := ⟨1, by decide⟩
  obtain ⟨c', hrun, hleast, -⟩ := rebalance_moves_fewest hne
  exact ⟨c', hrun, hleast⟩

example : departed.rebalance.map (fun c' => hammingDist departed.shards c'.shards) = some 6 := by
  decide +kernel

/-! ## JoinBalance and LeaveBalance -/

/-- What a change that is accepted leaves behind. -/
structure Rebalanced (c c' : ShardConfig) : Prop where
  even : c'.gids.Nonempty → EvenOver c'.gids c'.shards
  unassigned : ¬ c'.gids.Nonempty → ∀ s, c'.shards s = 0
  num : c'.num = c.num + 1
  larger : c.num ≠ Int64.maxValue → c'.num.toInt = c.num.toInt + 1

/-- `Join` and `Leave` have no loop without a bound, and count one up when they return true. -/
def Counts (c : ShardConfig) (result : Except Halt (ShardConfig × Bool)) : Prop :=
  result ≠ .error .endless ∧ ∀ c', result = .ok (c', true) → c'.num = c.num + 1

theorem finish_counts (c : ShardConfig) (changed : Bool) (message : String) :
    c.Counts (c.finish changed message) := by
  rw [finish]
  split
  · exact ⟨by simp, by simp⟩
  · refine ⟨by simp, ?_⟩
    intro c' h
    simp only [Except.ok.injEq, Prod.mk.injEq, and_true] at h
    rw [← h]

theorem joinLoop_counts (entries : List ((_ : Tgid) × List String)) (c : ShardConfig) (changed : Bool) :
    c.Counts (joinLoop entries c changed) := by
  induction entries generalizing c changed with
  | nil => exact finish_counts c changed _
  | cons e rest ih =>
    rw [joinLoop]
    split
    · exact ⟨by simp, by simp⟩
    · split
      · exact ⟨by simp, by simp⟩
      · exact ih _ true

theorem leaveLoop_counts (gids : List Tgid) (c : ShardConfig) (changed : Bool) :
    c.Counts (leaveLoop gids c changed) := by
  induction gids generalizing c changed with
  | nil => exact finish_counts c changed _
  | cons gid gids ih =>
    rw [leaveLoop]
    split
    · exact ⟨by simp, by simp⟩
    · exact ih _ true

/-- The loop of `Rebalance` ends after any accepted change. -/
theorem thenRebalance_spec {result : Except Halt (ShardConfig × Bool)} (h : c.Counts result) :
    thenRebalance result ≠ .error .endless ∧
      ∀ c', thenRebalance result = .ok (c', true) → Rebalanced c c' := by
  rcases result with halt | ⟨c₁, accepted⟩
  · refine ⟨?_, by simp [thenRebalance]⟩
    rw [thenRebalance]
    · exact h.1
    · simp
  · cases accepted with
    | false => exact ⟨by simp [thenRebalance], by simp [thenRebalance]⟩
    | true =>
      have hnum : c₁.num = c.num + 1 := h.2 c₁ rfl
      -- what is left to show of any result of `Rebalance`
      have hdone : ∀ c₂, c₁.rebalance = some c₂ → Rebalanced c c₂ → thenRebalance (.ok (c₁, true)) ≠
          .error .endless ∧ ∀ c', thenRebalance (.ok (c₁, true)) = .ok (c', true) → Rebalanced c c' := by
        intro c₂ hrun hc₂
        rw [thenRebalance, hrun]
        refine ⟨by simp, ?_⟩
        intro c' hc'
        simp only [Except.ok.injEq, Prod.mk.injEq, and_true] at hc'
        rwa [← hc']
      by_cases hne : c₁.gids.Nonempty
      · obtain ⟨c₂, hrun, hsame, -, heven⟩ := rebalance_spec hne
        apply hdone c₂ hrun
        rw [← hsame.gids] at heven hne
        have hnum₂ : c₂.num = c.num + 1 := hsame.2.trans hnum
        exact ⟨fun _ => heven, fun h => absurd hne h, hnum₂, fun h => by
          rw [hnum₂, toInt_succ (Int64.le_refl _) h]⟩
      · apply hdone _ (rebalance_empty hne)
        exact ⟨fun h => absurd h hne, fun _ _ => rfl, hnum, fun h => by
          show c₁.num.toInt = _
          rw [hnum, toInt_succ (Int64.le_refl _) h]⟩

/-- For every configuration and every call of `JoinBalance` or `LeaveBalance`: the loop of
`Rebalance` ends, and when the call returns true the assignment is even over the groups, or all
shards are 0 where there is none, and the number is the next one. -/
theorem balance_spec (c : ShardConfig) :
    (∀ servers, c.joinBalance servers ≠ .error .endless ∧
      ∀ c', c.joinBalance servers = .ok (c', true) → Rebalanced c c') ∧
    (∀ gids, c.leaveBalance gids ≠ .error .endless ∧
      ∀ c', c.leaveBalance gids = .ok (c', true) → Rebalanced c c') :=
  ⟨fun servers => thenRebalance_spec (joinLoop_counts servers.entries c false),
    fun gids => thenRebalance_spec (leaveLoop_counts gids c false)⟩

/-- No groups, and the largest number. -/
def largest : ShardConfig := { makeShardConfig with num := Int64.maxValue }

/-- The number after the largest one is not larger. -/
theorem num_wraps :
    ∃ c', largest.joinBalance (AList.singleton 1 ["x"]) = .ok (c', true) ∧
      c'.num.toInt ≠ largest.num.toInt + 1 := by
  have haccepted : (largest.joinBalance (AList.singleton 1 ["x"])).toOption.map Prod.snd = some true := by
    decide +kernel
  cases hresult : largest.joinBalance (AList.singleton 1 ["x"]) with
  | error halt =>
    rw [hresult] at haccepted
    contradiction
  | ok result =>
    obtain ⟨c', accepted⟩ := result
    rw [hresult] at haccepted
    obtain rfl : accepted = true := Option.some.inj haccepted
    have hnum := (thenRebalance_spec (joinLoop_counts _ largest false)).2 c' hresult
    refine ⟨c', rfl, ?_⟩
    rw [hnum.num]
    decide

/-! ## The check of the tests -/

theorem boundsLoop_spec (counts : Tgid → Int) (groups : List Tgid) (start : Int × Int) :
    ((boundsLoop counts groups start).1 = start.1 ∨
        ∃ g ∈ groups, (boundsLoop counts groups start).1 = counts g) ∧
      ((boundsLoop counts groups start).2 = start.2 ∨
        ∃ g ∈ groups, (boundsLoop counts groups start).2 = counts g) := by
  induction groups generalizing start with
  | nil => exact ⟨Or.inl rfl, Or.inl rfl⟩
  | cons g groups ih =>
    obtain ⟨max, min⟩ := start
    obtain ⟨hmax, hmin⟩ := ih (if counts g > max then counts g else max, if counts g < min then counts g else min)
    rw [boundsLoop]
    constructor
    · rcases hmax with hmax | ⟨x, hx, hmax⟩
      · rw [hmax]
        dsimp only
        split
        · exact Or.inr ⟨g, List.mem_cons_self, rfl⟩
        · exact Or.inl rfl
      · exact Or.inr ⟨x, List.mem_cons_of_mem _ hx, hmax⟩
    · rcases hmin with hmin | ⟨x, hx, hmin⟩
      · rw [hmin]
        dsimp only
        split
        · exact Or.inr ⟨g, List.mem_cons_self, rfl⟩
        · exact Or.inl rfl
      · exact Or.inr ⟨x, List.mem_cons_of_mem _ hx, hmin⟩

/-- A configuration that is even over its groups passes `CheckConfig` for the list of these. -/
theorem checkConfig_of_even (heven : c.gids.Nonempty → EvenOver c.gids c.shards) {groups : List Tgid}
    (hgroups : groups.Perm c.groups.keys) : c.checkConfig groups = .ok () := by
  have hmem : ∀ g ∈ groups, g ∈ c.gids := by
    intro g hg
    rw [gids, List.mem_toFinset]
    exact hgroups.mem_iff.mp hg
  have hlength : ¬ c.groups.keys.length ≠ groups.length := by
    rw [hgroups.length_eq]
    exact fun h => h rfl
  have hknown : (groups.find? fun g => (c.groups.lookup g).isNone) = none := by
    rw [List.find?_eq_none]
    intro g hg
    rw [notMem_gids]
    exact fun h => h (hmem g hg)
  have hshards : (if groups.length > 0 then
      (List.finRange nShards).find? fun s => (c.groups.lookup (c.shards s)).isNone else none) = none := by
    split
    · rename_i hpos
      obtain ⟨g, hg⟩ := List.exists_mem_of_length_pos hpos
      rw [List.find?_eq_none]
      intro s _
      rw [notMem_gids]
      exact fun h => h ((heven ⟨g, hmem g hg⟩).valid s)
    · rfl
  have hbounds : ¬ (boundsLoop c.counts c.groups.keys (0, 257)).1 >
      (boundsLoop c.counts c.groups.keys (0, 257)).2 + 1 := by
    have hkeys : ∀ g ∈ c.groups.keys, g ∈ c.gids := fun g hg => List.mem_toFinset.mpr hg
    obtain ⟨hmax, hmin⟩ := boundsLoop_spec c.counts c.groups.keys (0, 257)
    have hsmall : nShards < 257 := by decide
    rcases hmax with hmax | ⟨g, hg, hmax⟩
    · rcases hmin with hmin | ⟨g', hg', hmin⟩
      · rw [hmax, hmin]
        omega
      · rw [hmax, hmin, counts_eq]
        omega
    · have hle : load c.shards g ≤ nShards := by simpa using load_le_card c.shards g
      rcases hmin with hmin | ⟨g', hg', hmin⟩
      · rw [hmax, hmin, counts_eq]
        omega
      · have hclose := (heven ⟨g, hkeys g hg⟩).equitable (hkeys g hg) (hkeys g' hg')
        rw [hmax, hmin, counts_eq, counts_eq]
        omega
  simp only [checkConfig, if_neg hlength, hknown, hshards, if_neg hbounds]

end ShardConfig

end DistSys.Shardkv1
