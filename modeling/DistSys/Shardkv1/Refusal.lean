import DistSys.Shardkv1.ShardCfg

/- What a refused change leaves behind.

   `Join` and `Leave` check and change gid by gid. A gid that is refused after others were
   accepted makes them return false with these added or removed (`refused_halfway`). The
   calls that return false and change nothing are exactly those whose first gid is refused
   (`refusal_keeps_iff`): the condition says, of the arguments and the configuration before
   the call, that this is so or that the call does not return false. -/
namespace DistSys.Shardkv1.ShardConfig

open Lib

/-- If a call returned false, the configuration is as before. -/
def RefusalKeeps (c : ShardConfig) (result : Except Halt (ShardConfig × Bool)) : Prop :=
  ∀ c', result = .ok (c', false) →
    c'.num = c.num ∧ c'.shards = c.shards ∧ ∀ g, c'.groups.lookup g = c.groups.lookup g

/-! ## Join -/

/-- What the loop of `Join` comes to before a gid that is a group already. -/
def newEntries (c : ShardConfig) (entries : List ((_ : Tgid) × List String)) :
    List ((_ : Tgid) × List String) :=
  entries.takeWhile fun e => (c.groups.lookup e.1).isNone

/-- A gid that is a group already, and none of the new groups before it has a server of another
group or of one another. -/
def JoinRefused (c : ShardConfig) (entries : List ((_ : Tgid) × List String)) : Prop :=
  (c.newEntries entries).length < entries.length ∧
    (∀ e ∈ c.newEntries entries, ∀ x ∈ c.groups.entries, x.2.Disjoint e.2) ∧
    (c.newEntries entries).Pairwise fun e e' => e.2.Disjoint e'.2

/-- `Join` is refused, and not at the first gid it comes to. -/
def HalfJoins (c : ShardConfig) (servers : FinMap Tgid (List String)) : Prop :=
  c.newEntries servers.entries ≠ [] ∧ c.JoinRefused servers.entries

theorem clash_eq_none {groups : FinMap Tgid (List String)} {servers : List String} :
    clash groups servers = none ↔ ∀ x ∈ groups.entries, x.2.Disjoint servers := by
  simp only [clash, List.findSome?_eq_none_iff, Option.map_eq_none_iff, List.find?_eq_none,
    decide_eq_true_eq, List.Disjoint]

/-- The loop goes on with one more group. -/
def addGroup (c : ShardConfig) (e : (_ : Tgid) × List String) : ShardConfig :=
  { c with groups := c.groups.insert e.1 e.2 }

theorem newEntries_addGroup {c : ShardConfig} {e : (_ : Tgid) × List String}
    {rest : List ((_ : Tgid) × List String)} (hdiff : ∀ x ∈ rest, x.1 ≠ e.1) :
    (c.addGroup e).newEntries rest = c.newEntries rest := by
  induction rest with
  | nil => rfl
  | cons x rest ih =>
    have hx : ((c.addGroup e).groups.lookup x.1).isNone = (c.groups.lookup x.1).isNone := by
      rw [addGroup, AList.lookup_insert_ne (hdiff x List.mem_cons_self)]
    have hrest := ih fun y hy => hdiff y (List.mem_cons_of_mem _ hy)
    simp only [newEntries, List.takeWhile_cons, hx] at hrest ⊢
    split
    · rw [hrest]
    · rfl

/-- Whether the loop refuses, when its first gid is new. -/
theorem joinRefused_cons {c : ShardConfig} {e : (_ : Tgid) × List String}
    {rest : List ((_ : Tgid) × List String)} (hnew : (c.groups.lookup e.1).isNone)
    (hdiff : ∀ x ∈ rest, x.1 ≠ e.1) :
    c.JoinRefused (e :: rest) ↔
      (∀ x ∈ c.groups.entries, x.2.Disjoint e.2) ∧ (c.addGroup e).JoinRefused rest := by
  have hcons : c.newEntries (e :: rest) = e :: c.newEntries rest := by
    rw [newEntries, List.takeWhile_cons, if_pos hnew, newEntries]
  have hentries : (c.addGroup e).groups.entries = e :: c.groups.entries :=
    AList.entries_insert_of_notMem (AList.lookup_eq_none.mp (by simpa using hnew))
  simp only [JoinRefused, newEntries_addGroup hdiff, hcons, hentries, List.length_cons,
    Nat.add_lt_add_iff_right, List.forall_mem_cons, List.pairwise_cons]
  constructor
  · rintro ⟨hlt, ⟨hself, hold⟩, hfirst, hpair⟩
    exact ⟨hself, hlt, fun x hx => ⟨hfirst x hx, hold x hx⟩, hpair⟩
  · rintro ⟨hself, hlt, hboth, hpair⟩
    exact ⟨hlt, ⟨hself, fun x hx => (hboth x hx).2⟩, fun x hx => (hboth x hx).1, hpair⟩

/-- When the loop returns false. -/
theorem joinLoop_refuses {entries : List ((_ : Tgid) × List String)}
    (hdiff : entries.NodupKeys) (c : ShardConfig) (changed : Bool) :
    (∃ c', joinLoop entries c changed = .ok (c', false)) ↔ c.JoinRefused entries := by
  induction entries generalizing c changed with
  | nil =>
    simp only [joinLoop, finish, JoinRefused, newEntries, List.takeWhile_nil, List.length_nil,
      Nat.lt_irrefl, false_and, iff_false, not_exists]
    intro c'
    split <;> simp
  | cons e rest ih =>
    obtain ⟨gid, servers⟩ := e
    obtain ⟨hgid, hrest⟩ := List.nodupKeys_cons.mp hdiff
    have hother : ∀ x ∈ rest, x.1 ≠ gid := by
      intro x hx heq
      have hkey : x.1 ∈ rest.keys := List.mem_keys_of_mem hx
      rw [heq] at hkey
      exact hgid hkey
    rw [joinLoop]
    by_cases hknown : (c.groups.lookup gid).isSome
    · rw [if_pos hknown]
      have hnone : ¬ (c.groups.lookup gid).isNone := by
        rwa [Option.isNone_iff_eq_none, ← ne_eq, Option.ne_none_iff_isSome]
      simp [JoinRefused, newEntries, hnone]
    · have hnew : (c.groups.lookup gid).isNone := by simpa using hknown
      rw [if_neg hknown, joinRefused_cons (e := ⟨gid, servers⟩) hnew hother]
      cases hclash : clash c.groups servers with
      | some found =>
        have hnot : ¬ ∀ x ∈ c.groups.entries, x.2.Disjoint servers := by
          rw [← clash_eq_none, hclash]
          simp
        simp [hnot]
      | none =>
        have hdisjoint := clash_eq_none.mp hclash
        rw [and_iff_right hdisjoint]
        exact ih hrest (c.addGroup ⟨gid, servers⟩) true

/-- The groups there were stay. -/
theorem joinLoop_keeps {entries : List ((_ : Tgid) × List String)} {c c' : ShardConfig}
    {changed accepted : Bool} (h : joinLoop entries c changed = .ok (c', accepted)) {g : Tgid}
    (hg : (c.groups.lookup g).isSome) : (c'.groups.lookup g).isSome := by
  induction entries generalizing c changed with
  | nil =>
    rw [joinLoop, finish] at h
    split at h
    · contradiction
    · simp only [Except.ok.injEq, Prod.mk.injEq] at h
      rw [← h.1]
      exact hg
  | cons e rest ih =>
    obtain ⟨gid, servers⟩ := e
    rw [joinLoop] at h
    split at h
    · simp only [Except.ok.injEq, Prod.mk.injEq] at h
      rw [← h.1]
      exact hg
    · split at h
      · contradiction
      · apply ih h
        rw [FinMap.lookup_insert_ite]
        split
        · rfl
        · exact hg

theorem join_keeps_iff (c : ShardConfig) (servers : FinMap Tgid (List String)) :
    c.RefusalKeeps (c.join servers) ↔ ¬ c.HalfJoins servers := by
  rw [join, HalfJoins]
  have hdiff := servers.nodupKeys
  generalize servers.entries = entries at hdiff
  cases entries with
  | nil =>
    simp [RefusalKeeps, joinLoop, finish, newEntries]
  | cons e rest =>
    by_cases hknown : (c.groups.lookup e.1).isSome
    · -- refused at once
      have hnone : ¬ (c.groups.lookup e.1).isNone := by
        rwa [Option.isNone_iff_eq_none, ← ne_eq, Option.ne_none_iff_isSome]
      have hempty : c.newEntries (e :: rest) = [] := by
        rw [newEntries, List.takeWhile_cons, if_neg hnone]
      constructor
      · rintro - ⟨hne, -⟩
        exact hne hempty
      · intro _ c' hc'
        rw [joinLoop, if_pos hknown] at hc'
        simp only [Except.ok.injEq, Prod.mk.injEq, and_true] at hc'
        rw [← hc']
        exact ⟨rfl, rfl, fun _ => rfl⟩
    · have hnew : (c.groups.lookup e.1).isNone := by simpa using hknown
      have hne : c.newEntries (e :: rest) ≠ [] := by
        rw [newEntries, List.takeWhile_cons, if_pos hnew]
        simp
      rw [and_iff_right hne, ← joinLoop_refuses hdiff c false]
      constructor
      · rintro hkeeps ⟨c', hc'⟩
        -- the first group is there, and was not before
        have hadded : (c'.groups.lookup e.1).isSome := by
          rw [joinLoop, if_neg hknown] at hc'
          split at hc'
          · contradiction
          · apply joinLoop_keeps hc'
            rw [AList.lookup_insert]
            rfl
        rw [(hkeeps c' hc').2.2 e.1] at hadded
        exact hknown hadded
      · intro hnot c' hc'
        exact absurd ⟨c', hc'⟩ hnot

/-! ## Leave -/

/-- `Leave` is refused, and not at the first gid. -/
def HalfLeaves (c : ShardConfig) (gids : List Tgid) : Prop :=
  (∃ g, gids.head? = some g ∧ (c.groups.lookup g).isSome) ∧
    ¬ (gids.Nodup ∧ ∀ g ∈ gids, (c.groups.lookup g).isSome)

/-- When the loop returns false: a gid is no group, or comes twice. -/
theorem leaveLoop_refuses (gids : List Tgid) (c : ShardConfig) (changed : Bool) :
    (∃ c', leaveLoop gids c changed = .ok (c', false)) ↔
      ¬ (gids.Nodup ∧ ∀ g ∈ gids, (c.groups.lookup g).isSome) := by
  induction gids generalizing c changed with
  | nil =>
    simp only [leaveLoop, finish, List.nodup_nil, List.not_mem_nil, false_implies, implies_true,
      and_true, not_true_eq_false, iff_false, not_exists]
    intro c'
    split <;> simp
  | cons g rest ih =>
    rw [leaveLoop]
    by_cases hgone : (c.groups.lookup g).isNone
    · rw [if_pos hgone]
      simp only [Except.ok.injEq, Prod.mk.injEq, and_true, exists_eq', true_iff]
      rintro ⟨-, hall⟩
      have hsome := hall g List.mem_cons_self
      rw [Option.isNone_iff_eq_none.mp hgone] at hsome
      contradiction
    · have hsome : (c.groups.lookup g).isSome := by
        rwa [Option.isNone_iff_eq_none, ← ne_eq, Option.ne_none_iff_isSome] at hgone
      rw [if_neg hgone, ih]
      have hmem : ∀ x, ((c.groups.erase g).lookup x).isSome ↔ x ≠ g ∧ (c.groups.lookup x).isSome := by
        intro x
        rw [AList.lookup_isSome, AList.lookup_isSome, AList.mem_erase]
      simp only [hmem, List.nodup_cons, List.forall_mem_cons, hsome, true_and]
      apply not_congr
      constructor
      · rintro ⟨hnodup, hall⟩
        exact ⟨⟨fun hg => (hall g hg).1 rfl, hnodup⟩, fun x hx => (hall x hx).2⟩
      · rintro ⟨⟨hg, hnodup⟩, hall⟩
        exact ⟨hnodup, fun x hx => ⟨fun heq => hg (heq ▸ hx), hall x hx⟩⟩

/-- A gid that is no group does not become one. -/
theorem leaveLoop_keeps {gids : List Tgid} {c c' : ShardConfig} {changed accepted : Bool}
    (h : leaveLoop gids c changed = .ok (c', accepted)) {g : Tgid}
    (hg : c.groups.lookup g = none) : c'.groups.lookup g = none := by
  induction gids generalizing c changed with
  | nil =>
    rw [leaveLoop, finish] at h
    split at h
    · contradiction
    · simp only [Except.ok.injEq, Prod.mk.injEq] at h
      rw [← h.1]
      exact hg
  | cons gid rest ih =>
    rw [leaveLoop] at h
    split at h
    · simp only [Except.ok.injEq, Prod.mk.injEq] at h
      rw [← h.1]
      exact hg
    · apply ih h
      rw [AList.lookup_eq_none, AList.mem_erase]
      rintro ⟨-, hmem⟩
      exact AList.lookup_eq_none.mp hg hmem

theorem leave_keeps_iff (c : ShardConfig) (gids : List Tgid) :
    c.RefusalKeeps (c.leave gids) ↔ ¬ c.HalfLeaves gids := by
  rw [leave]
  cases gids with
  | nil => simp [RefusalKeeps, leaveLoop, finish, HalfLeaves]
  | cons g rest =>
    by_cases hgone : (c.groups.lookup g).isNone
    · constructor
      · rintro - ⟨⟨g', hhead, hsome⟩, -⟩
        obtain rfl : g = g' := by simpa using hhead
        rw [Option.isNone_iff_eq_none.mp hgone] at hsome
        contradiction
      · intro _ c' hc'
        rw [leaveLoop, if_pos hgone] at hc'
        simp only [Except.ok.injEq, Prod.mk.injEq, and_true] at hc'
        rw [← hc']
        exact ⟨rfl, rfl, fun _ => rfl⟩
    · have hsome : (c.groups.lookup g).isSome := by
        rwa [Option.isNone_iff_eq_none, ← ne_eq, Option.ne_none_iff_isSome] at hgone
      rw [HalfLeaves, and_iff_right ⟨g, rfl, hsome⟩, ← leaveLoop_refuses (g :: rest) c false]
      constructor
      · rintro hkeeps ⟨c', hc'⟩
        -- the first group is gone, and was there before
        have hremoved : c'.groups.lookup g = none := by
          rw [leaveLoop, if_neg hgone] at hc'
          apply leaveLoop_keeps hc'
          exact AList.lookup_erase g c.groups
        rw [← (hkeeps c' hc').2.2 g, hremoved] at hsome
        contradiction
      · intro hnot c' hc'
        exact absurd ⟨c', hc'⟩ hnot

/-! ## All four calls -/

/-- A refused change is not rebalanced. -/
theorem refusalKeeps_thenRebalance (c : ShardConfig) (result : Except Halt (ShardConfig × Bool)) :
    c.RefusalKeeps (thenRebalance result) ↔ c.RefusalKeeps result := by
  have hsame : ∀ c', thenRebalance result = .ok (c', false) ↔ result = .ok (c', false) := by
    intro c'
    rcases result with halt | ⟨c₁, accepted⟩
    · simp [thenRebalance]
    · cases accepted with
      | false => simp [thenRebalance]
      | true =>
        simp only [thenRebalance]
        split <;> simp
  simp only [RefusalKeeps, hsame]

/-- A call that returns false changes nothing, if and only if it does not return false after it has
accepted a gid. -/
theorem refusal_keeps_iff (c : ShardConfig) :
    (∀ servers, (c.RefusalKeeps (c.join servers) ↔ ¬ c.HalfJoins servers) ∧
      (c.RefusalKeeps (c.joinBalance servers) ↔ ¬ c.HalfJoins servers)) ∧
    (∀ gids, (c.RefusalKeeps (c.leave gids) ↔ ¬ c.HalfLeaves gids) ∧
      (c.RefusalKeeps (c.leaveBalance gids) ↔ ¬ c.HalfLeaves gids)) := by
  constructor
  · intro servers
    refine ⟨c.join_keeps_iff servers, ?_⟩
    rw [joinBalance, refusalKeeps_thenRebalance]
    exact c.join_keeps_iff servers
  · intro gids
    refine ⟨c.leave_keeps_iff gids, ?_⟩
    rw [leaveBalance, refusalKeeps_thenRebalance]
    exact c.leave_keeps_iff gids

/-- Group 1 has all shards. -/
def oneGroup : ShardConfig := { num := 1, shards := fun _ => 1, groups := AList.singleton 1 ["x"] }

/-- Group 2 joins and 1 joins again: the call returns false with group 2 added. Group 1 leaves
and 2, which is not there, leaves too: the call returns false with group 1 removed. -/
theorem refused_halfway :
    (∃ c', oneGroup.joinBalance (AList.insert 2 ["y"] (AList.singleton 1 ["z"])) = .ok (c', false) ∧
      c'.num = oneGroup.num ∧ c'.groups.lookup 2 ≠ oneGroup.groups.lookup 2) ∧
    ∃ c', oneGroup.leaveBalance [1, 2] = .ok (c', false) ∧
      c'.num = oneGroup.num ∧ c'.groups.lookup 1 ≠ oneGroup.groups.lookup 1 :=
  ⟨⟨oneGroup.addGroup ⟨2, ["y"]⟩, rfl, rfl, by decide⟩,
    ⟨{ oneGroup with groups := oneGroup.groups.erase 1 }, rfl, rfl, by decide⟩⟩

end DistSys.Shardkv1.ShardConfig
