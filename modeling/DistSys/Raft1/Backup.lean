import DistSys.Raft1.Leading
import Mathlib.Logic.Function.Iterate

/- Log back-up negotiation: how a leader finds the last entry a follower agrees on.

   A round is one call of `doSendAppendEntry` whose request and reply both arrive. A
   rejected append lowers `nextIndex[peer]` as long as its previous index is one the
   follower still has: the follower's hint lies at or below that index, and where the leader
   has entries of the conflicting term, it goes back to the first of them. A snapshot is
   followed by an append right after it, which is accepted.

   The other way a follower rejects is that it has compacted the previous index away. It
   then answers with its own first index `F`, the next request has previous index `F - 1`,
   and the answer is the same. The leader can leave this circle only by sending its
   snapshot, and it does not while its own log starts earlier. `Negotiable` says when the
   rounds do not get there: they end under this condition (`negotiation_ends`), and
   without it they never do (`matchIndex_stays`), so the condition is exact
   (`negotiation_ends_iff`). -/
namespace DistSys.Raft1

variable {n : Nat} {C D : Type} {rf leader follower : Raft n C D} {peer : Fin n}

namespace Raft

/-- A call of `doSendAppendEntry` with everything that follows from it. -/
def round (peer : Fin n) (pair : Raft n C D × Raft n C D) : Raft n C D × Raft n C D :=
  match pair.1.doSendAppendEntry peer with
  | none => pair
  | some (.append args) =>
    (pair.1.handleAppendReply peer args (pair.2.appendEntry args).2, (pair.2.appendEntry args).1)
  | some (.snapshot args) =>
    (pair.1.handleSnapShotReply peer args (pair.2.installSnapShot args).2,
      (pair.2.installSnapShot args).1)

end Raft

open Raft

/-! ## The request and the hint -/

/-- The request for a previous index that the leader has reaches to the end of its log. -/
theorem Shape.genAppendEntryArgs (h : Shape rf.logs) {prev : Nat}
    (hfirst : rf.getFirstLog.index ≤ prev) (hlast : prev ≤ rf.getLatestLog.index) :
    (rf.genAppendEntryArgs prev).term = rf.currentTerm ∧
      (rf.genAppendEntryArgs prev).prevLogIndex = prev ∧
      (rf.genAppendEntryArgs prev).prevLogTerm = rf.logTerm prev ∧
      prev + (rf.genAppendEntryArgs prev).entries.length = rf.getLatestLog.index := by
  have hpos := h.pos
  have hlen := h.latest
  unfold Raft.genAppendEntryArgs
  simp only
  rw [if_neg (show ¬ prev < rf.getFirstLog.index - 1 by omega), if_neg (not_lt.mpr hlast),
    if_pos (by omega), List.length_drop]
  exact ⟨trivial, rfl, rfl, by omega⟩

/-- The hint of a follower whose log ends before the previous index. -/
theorem conflictReply_short {prev : Nat} (hlast : rf.getLatestLog.index < prev) :
    rf.conflictReply prev = {
      term := rf.currentTerm
      conflictIndex := rf.getLatestLog.index + 1
      conflictTerm := -1 } := by
  unfold Raft.conflictReply
  simp only
  rw [if_pos hlast]
  rfl

/-- The hint of a follower that has the previous index with another term is an index that it has
with the same term as there. -/
theorem Shape.conflictReply_eq (h : Shape rf.logs) {prev : Nat}
    (hfirst : rf.getFirstLog.index ≤ prev) (hlast : prev ≤ rf.getLatestLog.index) :
    ∃ i, rf.getFirstLog.index ≤ i ∧ i ≤ prev ∧ rf.logTerm i = rf.logTerm prev ∧
      rf.conflictReply prev = {
        term := rf.currentTerm
        conflictIndex := i
        conflictTerm := rf.logTerm prev } := by
  have hpos := h.pos
  have hlen := h.latest
  unfold Raft.conflictReply
  simp only
  rw [if_neg (by omega), if_neg (by simp [h.isValidLogIndex.mpr ⟨hfirst, hlast⟩])]
  have hb := sortSearch_boundary (prev - rf.getFirstLog.index + 1) fun index =>
    index ≥ rf.logs.length || (rf.logs.getD index default).term ≥
      (rf.logs.getD (prev - rf.getFirstLog.index) default).term
  generalize sortSearch (prev - rf.getFirstLog.index + 1) _ = offset at hb ⊢
  -- The test holds at `prev` itself, so the search ends there at the latest.
  have hle : offset ≤ prev - rf.getFirstLog.index := by
    by_contra hgt
    have hend : offset - 1 = prev - rf.getFirstLog.index := by
      have := hb.upper
      omega
    have hfails := hb.fails (by omega)
    rw [hend] at hfails
    simp at hfails
  refine ⟨rf.getFirstLog.index + offset, Nat.le_add_right _ _, by omega, ?_, rfl⟩
  apply le_antisymm (h.logTerm_le (Nat.le_add_right _ _) (by omega) hlast)
  have hholds := hb.holds (by omega)
  rw [Bool.or_eq_true, decide_eq_true_eq, decide_eq_true_eq] at hholds
  rcases hholds with hout | hge
  · omega
  · rw [Raft.logTerm, Raft.logTerm, Nat.add_sub_cancel_left]
    exact hge

/-- The search of `rollBackToConflictTerm` ends after all entries of smaller terms. -/
theorem Shape.search_term (h : Shape rf.logs) (term : Int) {prev : Nat}
    (hfirst : rf.getFirstLog.index ≤ prev) (hlast : prev ≤ rf.getLatestLog.index) :
    ∃ idx, idx = rf.getFirstLog.index + sortSearch (prev - rf.getFirstLog.index) (fun i =>
        decide (((rf.logs.getD i default).term : Int) ≥ term)) ∧
      idx ≤ prev ∧ (∀ i, rf.getFirstLog.index ≤ i → i < idx → (rf.logTerm i : Int) < term) ∧
      (∀ i, idx ≤ i → i < prev → term ≤ (rf.logTerm i : Int)) := by
  have hb := sortSearch_boundary (prev - rf.getFirstLog.index) fun i =>
    decide (((rf.logs.getD i default).term : Int) ≥ term)
  generalize sortSearch (prev - rf.getFirstLog.index) _ = offset at hb ⊢
  have hupper := hb.upper
  refine ⟨rf.getFirstLog.index + offset, rfl, by omega, fun i hi hlt => ?_, fun i hi hlt => ?_⟩
  · -- The last entry before the result is smaller, and so is every earlier one.
    have hfails := hb.fails (by omega)
    have hle := h.logTerm_le hi (show i ≤ rf.getFirstLog.index + (offset - 1) by omega) (by omega)
    have hsmall : (rf.logTerm (rf.getFirstLog.index + (offset - 1)) : Int) < term := by
      rw [Raft.logTerm, Nat.add_sub_cancel_left]
      exact not_le.mp (decide_eq_false_iff_not.mp hfails)
    omega
  · have hholds := decide_eq_true_eq.mp (hb.holds (by omega))
    have hle := h.logTerm_le (Nat.le_add_right _ _) hi (by omega)
    have hlarge : term ≤ (rf.logTerm (rf.getFirstLog.index + offset) : Int) := by
      rw [Raft.logTerm, Nat.add_sub_cancel_left]
      exact hholds
    omega

/-- Where `rollBackToConflictTerm` goes: to the first entry of the conflicting term, or to the
hint if the leader has no such entry; and not out of its own log. -/
theorem Shape.rollBack_eq (h : Shape rf.logs) (peer : Fin n) (args : AppendEntryArgs n C)
    (reply : AppendEntryReply)
    (hfirst : rf.getFirstLog.index ≤ args.prevLogIndex)
    (hlast : args.prevLogIndex ≤ rf.getLatestLog.index)
    (hconflict : (rf.logTerm args.prevLogIndex : Int) ≠ reply.conflictTerm) :
    ∃ next, rf.rollBackToConflictTerm peer args reply = rf.setNext peer (rf.bounded next) ∧
      ((next = reply.conflictIndex ∧ ∀ i, rf.getFirstLog.index ≤ i → i < args.prevLogIndex →
          (rf.logTerm i : Int) ≠ reply.conflictTerm) ∨
        ∃ i, rf.getFirstLog.index ≤ i ∧ i < args.prevLogIndex ∧
          (rf.logTerm i : Int) = reply.conflictTerm ∧
          (∀ k, rf.getFirstLog.index ≤ k → k < i → (rf.logTerm k : Int) ≠ reply.conflictTerm) ∧
          next = i + 1) := by
  unfold Raft.rollBackToConflictTerm
  simp only
  rw [clamp_eq]
  refine ⟨_, rfl, ?_⟩
  split
  · obtain ⟨idx, hidx, hle, hbefore, hfrom⟩ := h.search_term reply.conflictTerm hfirst hlast
    rw [← hidx]
    split
    · rename_i hfound
      -- At `prev` the terms differ, so the entry found lies before.
      have hlt : idx < args.prevLogIndex := by
        rcases Nat.eq_or_lt_of_le hfound.1 with rfl | hlt
        · exact absurd hfound.2 hconflict
        · exact hlt
      exact Or.inr ⟨idx, by omega, hlt, hfound.2, fun k hk hlt => (hbefore k hk hlt).ne, rfl⟩
    · rename_i hmissing
      refine Or.inl ⟨rfl, fun i hi hlt heq => ?_⟩
      rcases Nat.lt_or_ge i idx with hbelow | hge
      · exact absurd heq (hbefore i hi hbelow).ne
      · have hterm : (rf.logTerm idx : Int) ≤ reply.conflictTerm := by
          rw [← heq]
          exact_mod_cast h.logTerm_le (by omega) hge (by omega)
        have hterm' := hfrom idx le_rfl (by omega)
        exact hmissing ⟨hle, le_antisymm hterm hterm'⟩
  · rename_i hnone
    exact Or.inl ⟨rfl, fun i _ _ => by omega⟩

/-! ## A round -/

/-- A leader and a follower in one term. What the follower has applied, its `logs[0]` included, is
committed, so the leader has it too. -/
structure Compatible (leader follower : Raft n C D) : Prop where
  leads : leader.state = .leader
  term : follower.currentTerm = leader.currentTerm
  leaderShape : Shape leader.logs
  followerShape : Shape follower.logs
  first_le : follower.getFirstLog.index ≤ leader.getLatestLog.index
  applied_ge : follower.getFirstLog.index ≤ follower.lastApplied
  applied_le : follower.lastApplied ≤ follower.getLatestLog.index
  agree : ∀ i ≤ follower.lastApplied, leader.getFirstLog.index ≤ i → i ≤ leader.getLatestLog.index →
    follower.getFirstLog.index ≤ i → leader.logTerm i = follower.logTerm i

theorem Compatible.setNext (h : Compatible leader follower) (peer : Fin n) (next : Nat) :
    Compatible (leader.setNext peer next) { follower with state := .follower } where
  leads := h.leads
  term := h.term
  leaderShape := h.leaderShape
  followerShape := h.followerShape
  first_le := h.first_le
  applied_ge := h.applied_ge
  applied_le := h.applied_le
  agree := h.agree

/-- The follower has kept an index that the negotiation can go back to. Either it has compacted no
further than the leader; or `next` is beyond its first index, and the term of that index starts
there in the leader's log or is one that the leader has wherever the follower has it. -/
def Negotiable (leader follower : Raft n C D) (next : Nat) : Prop :=
  follower.getFirstLog.index ≤ leader.getFirstLog.index ∨
    (follower.getFirstLog.index < next ∧
      (leader.logTerm (follower.getFirstLog.index - 1) < leader.logTerm follower.getFirstLog.index ∨
        ∀ i < next, follower.getFirstLog.index < i → i ≤ follower.getLatestLog.index →
          follower.logTerm i = follower.logTerm follower.getFirstLog.index →
          leader.logTerm i = follower.logTerm follower.getFirstLog.index))

section SameTerm

variable {args : AppendEntryArgs n C}

theorem appendEntry_same_term (hterm : rf.currentTerm = args.term) :
    rf.appendEntry args = Raft.appendAsFollower { rf with state := .follower } args := by
  rw [appendEntry_of_ge (by omega), updateTermAndStepDown, if_neg (by omega)]

/-- The follower has compacted the previous index away. -/
theorem appendEntry_behind (hterm : rf.currentTerm = args.term)
    (hbehind : args.prevLogIndex < rf.getFirstLog.index) :
    rf.appendEntry args = ({ rf with state := .follower }, {
      term := rf.currentTerm
      conflictIndex := rf.getFirstLog.index
      conflictTerm := -1 }) := by
  rw [appendEntry_same_term hterm]
  exact if_pos hbehind

theorem appendEntry_conflict (hterm : rf.currentTerm = args.term)
    (hfirst : rf.getFirstLog.index ≤ args.prevLogIndex)
    (hunmatched : rf.isLogMatched args.prevLogIndex args.prevLogTerm = false) :
    rf.appendEntry args =
      ({ rf with state := .follower }, rf.conflictReply args.prevLogIndex) := by
  rw [appendEntry_same_term hterm]
  refine (if_neg (not_lt.mpr hfirst)).trans (if_pos ?_)
  show (!rf.isLogMatched args.prevLogIndex args.prevLogTerm) = true
  rw [hunmatched]
  rfl

theorem appendEntry_success (hterm : rf.currentTerm = args.term)
    (hmatched : rf.isLogMatched args.prevLogIndex args.prevLogTerm = true) :
    (rf.appendEntry args).2.success = true := by
  have hfirst : ¬ args.prevLogIndex < rf.getFirstLog.index := by
    unfold Raft.isLogMatched at hmatched
    split at hmatched
    · contradiction
    · omega
  have hneg : ¬ (!rf.isLogMatched args.prevLogIndex args.prevLogTerm) = true := by
    rw [hmatched]
    exact Bool.false_ne_true
  have heq : Raft.appendAsFollower { rf with state := .follower } args = _ :=
    (if_neg hfirst).trans (if_neg hneg)
  rw [appendEntry_same_term hterm, heq]

end SameTerm

theorem handleAppendReply_rejected {args : AppendEntryArgs n C} {reply : AppendEntryReply}
    (hleads : rf.state = .leader) (hterm : rf.currentTerm = args.term)
    (hreply : reply.success = false) (hle : ¬ reply.term > rf.currentTerm) :
    rf.handleAppendReply peer args reply = rf.rollBackToConflictTerm peer args reply := by
  unfold Raft.handleAppendReply
  rw [if_neg (by simp [isValidLeader, hleads, hterm]), if_pos (by simp [hreply]), if_neg hle]

theorem handleAppendReply_accepted {args : AppendEntryArgs n C} {reply : AppendEntryReply}
    (hleads : rf.state = .leader) (hterm : rf.currentTerm = args.term)
    (hreply : reply.success = true) :
    rf.handleAppendReply peer args reply = rf.acceptNewLogEntries peer args := by
  simp [handleAppendReply, isValidLeader, hleads, hterm, hreply]

theorem round_append (hleads : leader.state = .leader)
    (hnext : leader.getFirstLog.index < leader.nextIndex peer) :
    round peer (leader, follower) =
      (leader.handleAppendReply peer (leader.genAppendEntryArgs (leader.nextIndex peer - 1))
          (follower.appendEntry (leader.genAppendEntryArgs (leader.nextIndex peer - 1))).2,
        (follower.appendEntry (leader.genAppendEntryArgs (leader.nextIndex peer - 1))).1) := by
  simp [Raft.round, doSendAppendEntry, hleads, hnext.not_ge]

theorem round_snapshot (hleads : leader.state = .leader)
    (hnext : leader.nextIndex peer ≤ leader.getFirstLog.index) :
    round peer (leader, follower) =
      (leader.handleSnapShotReply peer leader.makeInstallSnapShotArgs
          (follower.installSnapShot leader.makeInstallSnapShotArgs).2,
        (follower.installSnapShot leader.makeInstallSnapShotArgs).1) := by
  simp [Raft.round, doSendAppendEntry, hleads, hnext]

/-- An append that the follower accepts confirms the whole log. -/
theorem round_accepted (hleads : leader.state = .leader)
    (hterm : follower.currentTerm = leader.currentTerm) (hshape : Shape leader.logs) {prev : Nat}
    (hnext : leader.nextIndex peer = prev + 1) (hfirst : leader.getFirstLog.index ≤ prev)
    (hlast : prev ≤ leader.getLatestLog.index)
    (hmatched : follower.isLogMatched prev (leader.logTerm prev) = true) :
    ∃ args, args.prevLogIndex + args.entries.length = leader.getLatestLog.index ∧
      (round peer (leader, follower)).1 = leader.acceptNewLogEntries peer args := by
  rw [round_append hleads (by omega), hnext, Nat.add_sub_cancel]
  obtain ⟨hargs, hprev, hprevTerm, hlen⟩ := hshape.genAppendEntryArgs hfirst hlast
  generalize leader.genAppendEntryArgs prev = args at *
  rw [← hprevTerm, ← hprev] at hmatched
  have hreply := appendEntry_success (hterm.trans hargs.symm) hmatched
  exact ⟨args, by rw [hprev, hlen], handleAppendReply_accepted hleads hargs.symm hreply⟩

/-! ## Rejected appends -/

/-- Both have the index, with different terms. -/
structure Conflict (leader follower : Raft n C D) (prev : Nat) : Prop where
  first : follower.getFirstLog.index ≤ prev
  last : prev ≤ follower.getLatestLog.index
  term : leader.logTerm prev ≠ follower.logTerm prev

/-- Where a rejected append with previous index `prev` leads, before the leader's own bounds. -/
inductive BacksUpTo (leader follower : Raft n C D) (prev : Nat) : Nat → Prop where
  /-- The follower has compacted the previous index away. -/
  | behind (h : prev < follower.getFirstLog.index) : BacksUpTo leader follower prev follower.getFirstLog.index
  /-- Its log ends before. -/
  | short (hfirst : follower.getFirstLog.index ≤ prev) (h : follower.getLatestLog.index < prev) :
    BacksUpTo leader follower prev (follower.getLatestLog.index + 1)
  /-- The leader has no entry of the conflicting term, and goes to the follower's first. -/
  | hint (i : Nat) (h : Conflict leader follower prev) (hfirst : follower.getFirstLog.index ≤ i)
    (hle : i ≤ prev) (hterm : follower.logTerm i = follower.logTerm prev)
    (hnone : ∀ k, leader.getFirstLog.index ≤ k → k < prev → leader.logTerm k ≠ follower.logTerm prev) :
    BacksUpTo leader follower prev i
  /-- The leader goes to its own first entry of that term. -/
  | found (i : Nat) (h : Conflict leader follower prev) (hfirst : leader.getFirstLog.index ≤ i)
    (hlt : i < prev) (hterm : leader.logTerm i = follower.logTerm prev)
    (hleast : ∀ k, leader.getFirstLog.index ≤ k → k < i → leader.logTerm k ≠ follower.logTerm prev) :
    BacksUpTo leader follower prev (i + 1)

/-- What the leader makes of a hint for a term. -/
theorem Shape.rollBack_conflict (h : Shape leader.logs) (peer : Fin n) (args : AppendEntryArgs n C)
    (hfirst : leader.getFirstLog.index ≤ args.prevLogIndex)
    (hlast : args.prevLogIndex ≤ leader.getLatestLog.index)
    (hconflict : Conflict leader follower args.prevLogIndex) (hfollower : Shape follower.logs) :
    ∃ c, BacksUpTo leader follower args.prevLogIndex c ∧
      leader.rollBackToConflictTerm peer args (follower.conflictReply args.prevLogIndex) =
        leader.setNext peer (leader.bounded c) := by
  obtain ⟨i, hi, hle, hterm, hreply⟩ := hfollower.conflictReply_eq hconflict.first hconflict.last
  have hindex : (follower.conflictReply args.prevLogIndex).conflictIndex = i := by rw [hreply]
  have hconflictTerm : (follower.conflictReply args.prevLogIndex).conflictTerm =
      (follower.logTerm args.prevLogIndex : Int) := by rw [hreply]
  obtain ⟨c, heq, hc⟩ := h.rollBack_eq peer args (follower.conflictReply args.prevLogIndex) hfirst
    hlast (by rw [hconflictTerm]; exact_mod_cast hconflict.term)
  rw [hindex, hconflictTerm] at hc
  refine ⟨c, ?_, heq⟩
  rcases hc with ⟨rfl, hnone⟩ | ⟨k, hk, hlt, hkTerm, hleast, rfl⟩
  · exact .hint c hconflict hi hle hterm fun k hk hlt => by exact_mod_cast hnone k hk hlt
  · exact .found k hconflict hk hlt (by exact_mod_cast hkTerm)
      fun j hj hlt => by exact_mod_cast hleast j hj hlt

/-- A hint without a term is followed as it is. -/
theorem Shape.rollBack_missing (h : Shape leader.logs) (peer : Fin n) (args : AppendEntryArgs n C)
    (reply : AppendEntryReply) (hfirst : leader.getFirstLog.index ≤ args.prevLogIndex)
    (hlast : args.prevLogIndex ≤ leader.getLatestLog.index) (hreply : reply.conflictTerm = -1) :
    leader.rollBackToConflictTerm peer args reply =
      leader.setNext peer (leader.bounded reply.conflictIndex) := by
  obtain ⟨c, heq, ⟨rfl, -⟩ | ⟨k, -, -, hk, -⟩⟩ :=
    h.rollBack_eq peer args reply hfirst hlast (by rw [hreply]; omega)
  · exact heq
  · rw [hreply] at hk
    omega

/-- A round whose append is rejected changes `nextIndex[peer]` and nothing else. -/
theorem Compatible.round_rejected (h : Compatible leader follower) {prev : Nat}
    (hnext : leader.nextIndex peer = prev + 1) (hfirst : leader.getFirstLog.index ≤ prev)
    (hlast : prev ≤ leader.getLatestLog.index)
    (hunmatched : follower.isLogMatched prev (leader.logTerm prev) = false) :
    ∃ c, BacksUpTo leader follower prev c ∧ round peer (leader, follower) =
      (leader.setNext peer (leader.bounded c), { follower with state := .follower }) := by
  rw [round_append h.leads (by omega), hnext, Nat.add_sub_cancel]
  obtain ⟨hargs, hprev, hprevTerm, -⟩ := h.leaderShape.genAppendEntryArgs hfirst hlast
  generalize leader.genAppendEntryArgs prev = args at *
  subst hprev
  have hterm := h.term.trans hargs.symm
  have hnewer : ¬ follower.currentTerm > leader.currentTerm := by
    rw [h.term]
    exact lt_irrefl _
  rcases Nat.lt_or_ge args.prevLogIndex follower.getFirstLog.index with hbehind | hkept
  · refine ⟨_, .behind hbehind, ?_⟩
    rw [appendEntry_behind hterm hbehind, handleAppendReply_rejected h.leads hargs.symm rfl hnewer,
      h.leaderShape.rollBack_missing peer args _ hfirst hlast rfl]
  · rw [← hprevTerm] at hunmatched
    rw [appendEntry_conflict hterm hkept hunmatched]
    rcases Nat.lt_or_ge follower.getLatestLog.index args.prevLogIndex with hshort | hheld
    · refine ⟨_, .short hkept hshort, ?_⟩
      rw [conflictReply_short hshort, handleAppendReply_rejected h.leads hargs.symm rfl hnewer,
        h.leaderShape.rollBack_missing peer args _ hfirst hlast rfl]
    · have hconflict : Conflict leader follower args.prevLogIndex := by
        refine ⟨hkept, hheld, fun heq => ?_⟩
        rw [h.followerShape.isLogMatched.mpr ⟨hkept, hheld, hprevTerm.trans heq⟩] at hunmatched
        contradiction
      obtain ⟨c, hc, heq⟩ := h.leaderShape.rollBack_conflict peer args hfirst hlast hconflict
        h.followerShape
      obtain ⟨i, -, -, -, hreply⟩ := h.followerShape.conflictReply_eq hkept hheld
      refine ⟨c, hc, ?_⟩
      rw [handleAppendReply_rejected h.leads hargs.symm (by rw [hreply]) (by rw [hreply]; exact hnewer),
        heq]

/-- As long as the follower has the previous index, `nextIndex[peer]` goes down. -/
theorem BacksUpTo.lowers {prev c : Nat} (hc : BacksUpTo leader follower prev c)
    (hfirst : leader.getFirstLog.index ≤ prev) (hkept : follower.getFirstLog.index ≤ prev) :
    leader.bounded c ≤ prev := by
  have hle : c ≤ prev := by
    cases hc with
    | behind hbehind => omega
    | short _ hshort => exact hshort
    | hint _ _ _ hle _ _ => exact hle
    | found _ _ _ hlt _ _ => exact hlt
  exact (min_le_left _ _).trans (max_le hle hfirst)

section Compacted

/- The follower has compacted its log further than the leader. -/
variable {prev c : Nat} (h : Compatible leader follower)
  (hfirst : leader.getFirstLog.index < follower.getFirstLog.index)
include h hfirst

theorem Compatible.agree_first :
    leader.logTerm follower.getFirstLog.index = follower.logTerm follower.getFirstLog.index :=
  h.agree _ h.applied_ge hfirst.le h.first_le le_rfl

/-- A conflict lies after the first index, where the two agree. -/
theorem Compatible.lt_of_conflict (hconflict : Conflict leader follower prev) :
    follower.getFirstLog.index < prev := by
  apply lt_of_le_of_ne hconflict.first
  rintro rfl
  exact hconflict.term (h.agree_first hfirst)

/-- The conflicting term is not below that of the first index. -/
theorem Compatible.first_term_le (hconflict : Conflict leader follower prev) :
    leader.logTerm follower.getFirstLog.index ≤ follower.logTerm prev := by
  rw [h.agree_first hfirst]
  exact h.followerShape.logTerm_le le_rfl hconflict.first hconflict.last

theorem Compatible.before_first_le :
    leader.logTerm (follower.getFirstLog.index - 1) ≤ leader.logTerm follower.getFirstLog.index :=
  h.leaderShape.logTerm_le (by omega) (Nat.sub_le _ _) h.first_le

/-- A negotiation that can be carried on stays after the follower's first index. -/
theorem BacksUpTo.first_lt (hc : BacksUpTo leader follower prev c)
    (hkept : follower.getFirstLog.index ≤ prev)
    (hneg : Negotiable leader follower (prev + 1)) : follower.getFirstLog.index < c := by
  cases hc with
  | behind hbehind => omega
  | short _ hshort =>
    have hlen := h.followerShape.latest
    omega
  | hint i hconflict hi _ hterm hnone =>
    -- At the first index the leader would have found the conflicting term.
    apply lt_of_le_of_ne hi
    rintro rfl
    rw [← h.agree_first hfirst] at hterm
    exact hnone _ hfirst.le (h.lt_of_conflict hfirst hconflict) hterm
  | found i hconflict hi hlt hterm _ =>
    by_contra hbefore
    have hle := h.leaderShape.logTerm_le hi (show i ≤ follower.getFirstLog.index - 1 by omega)
      (by have := h.first_le; omega)
    have hle₁ := h.before_first_le hfirst
    have hle₂ := h.first_term_le hfirst hconflict
    obtain ⟨-, hlower | hfollows⟩ := hneg.resolve_left (not_le.mpr hfirst)
    · omega
    · have hagree := h.agree_first hfirst
      have hsame := hfollows prev (Nat.lt_succ_self prev) (h.lt_of_conflict hfirst hconflict)
        hconflict.last (by omega)
      exact hconflict.term (by omega)

end Compacted

/-- A rejected append leaves the negotiation one that can be carried on. -/
theorem BacksUpTo.negotiable {prev c : Nat} (hc : BacksUpTo leader follower prev c)
    (h : Compatible leader follower) (hfirst : leader.getFirstLog.index ≤ prev)
    (hneg : Negotiable leader follower (prev + 1)) :
    leader.bounded c ≤ prev ∧ Negotiable leader follower (leader.bounded c) := by
  have hkept : follower.getFirstLog.index ≤ prev := by
    rcases hneg with hle | ⟨hlt, -⟩
    · exact hle.trans hfirst
    · exact Nat.le_of_lt_succ hlt
  have hlower := hc.lowers hfirst hkept
  refine ⟨hlower, ?_⟩
  rcases Nat.lt_or_ge leader.getFirstLog.index follower.getFirstLog.index with hbefore | hge
  · have hlt := lt_bounded (hc.first_lt h hbefore hkept hneg) h.first_le
    obtain ⟨-, hsafe⟩ := hneg.resolve_left (not_le.mpr hbefore)
    exact Or.inr ⟨hlt, hsafe.imp_right fun hsame i hi => hsame i (by omega)⟩
  · exact Or.inl hge

/-! ## Snapshots -/

/-- The log that `InstallSnapShot` leaves starts with the placeholder of the snapshot. -/
theorem installedLogs_head {i t : Nat} (hfirst : rf.getFirstLog.index ≤ i) :
    ∃ rest, rf.installedLogs i t = ⟨none, t, i⟩ :: rest ∧
      i ≤ ((rf.installedLogs i t).getLastD default).index := by
  unfold Raft.installedLogs generateSingleLog
  simp only
  split
  · exact ⟨[], rfl, le_rfl⟩
  · rename_i hlt
    split
    · exact ⟨[], rfl, le_rfl⟩
    · split
      · rename_i hoffset
        refine ⟨rf.logs.drop (i - rf.getFirstLog.index + 1), rfl, ?_⟩
        have hlast : (([⟨none, t, i⟩] : List (LogEntry C)) ++
            rf.logs.drop (i - rf.getFirstLog.index + 1)).getLastD default = rf.getLatestLog := by
          rw [Raft.getLatestLog, List.getLastD_eq_getLast?, List.getLastD_eq_getLast?,
            List.getLast?_append, List.getLast?_drop, if_neg (by omega)]
          cases hend : rf.logs.getLast? with
          | none => simp [List.getLast?_eq_none_iff.mp hend] at hoffset
          | some e => rfl
        rw [hlast]
        exact (not_le.mp hlt).le
      · exact ⟨[], rfl, le_rfl⟩

theorem isLogMatched_head {i t : Nat} {rest : List (LogEntry C)}
    (hlogs : rf.logs = ⟨none, t, i⟩ :: rest) (hlast : i ≤ rf.getLatestLog.index) :
    rf.isLogMatched i t = true := by
  have hfirst : rf.getFirstLog.index = i := by
    rw [Raft.getFirstLog, hlogs]
    rfl
  unfold Raft.isLogMatched Raft.isValidLogIndex
  rw [hfirst, if_neg (by omega), hlogs]
  simp

theorem replaceBySnapShot_logs (args : InstallSnapShotArgs n D) :
    (rf.replaceBySnapShot args).logs =
        rf.installedLogs args.lastIncludedIndex args.lastIncludedTerm ∧
      (rf.replaceBySnapShot args).currentTerm = rf.currentTerm := by
  unfold Raft.replaceBySnapShot Raft.persist
  cases args.data <;> exact ⟨rfl, rfl⟩

theorem installSnapShot_same_term {args : InstallSnapShotArgs n D} (hterm : rf.currentTerm = args.term) :
    rf.installSnapShot args =
      (if args.lastIncludedIndex ≤ rf.lastApplied then { rf with state := .follower }
        else Raft.replaceBySnapShot { rf with state := .follower } args, ⟨rf.currentTerm⟩) := by
  have hfollow : rf.followSnapShot args.term = { rf with state := .follower } := by
    rw [followSnapShot, if_neg (by omega), changeState_follower]
  unfold Raft.installSnapShot
  simp only
  rw [if_neg (by omega), hfollow]
  split <;> rfl

/-- After a snapshot the two agree on the leader's first index, which is asked for next. -/
theorem Compatible.snapshot (h : Compatible leader follower)
    (hnext : leader.nextIndex peer ≤ leader.getFirstLog.index)
    (hkept : follower.getFirstLog.index ≤ leader.getFirstLog.index) :
    ∃ follower', round peer (leader, follower) =
        (leader.updateLogIndices peer leader.getFirstLog.index, follower') ∧
      follower'.currentTerm = leader.currentTerm ∧
      follower'.isLogMatched leader.getFirstLog.index (leader.logTerm leader.getFirstLog.index) = true := by
  have hterm : leader.getFirstLog.term = leader.logTerm leader.getFirstLog.index := by
    rw [Raft.logTerm, Nat.sub_self, Raft.getFirstLog]
    cases leader.logs <;> rfl
  have hreply : leader.handleSnapShotReply peer leader.makeInstallSnapShotArgs ⟨follower.currentTerm⟩ =
      leader.updateLogIndices peer leader.getFirstLog.index := by
    unfold Raft.handleSnapShotReply
    rw [if_pos ⟨h.leads, rfl⟩, if_neg (by rw [h.term]; exact lt_irrefl _)]
    rfl
  refine ⟨_, by rw [round_snapshot h.leads hnext, installSnapShot_same_term h.term, hreply], ?_⟩
  split
  · -- The snapshot brings nothing new: the follower has applied the index, and kept it.
    rename_i happlied
    refine ⟨h.term, ?_⟩
    apply h.followerShape.isLogMatched.mpr
    refine ⟨hkept, happlied.trans h.applied_le, ?_⟩
    exact h.agree _ happlied le_rfl (by rw [h.leaderShape.latest]; omega) hkept
  · obtain ⟨hlogs, hcurrent⟩ := @replaceBySnapShot_logs n C D { follower with state := .follower }
      leader.makeInstallSnapShotArgs
    obtain ⟨rest, hhead, hlast⟩ := installedLogs_head (t := leader.getFirstLog.term) hkept
    refine ⟨hcurrent.trans h.term, ?_⟩
    rw [← hterm]
    apply isLogMatched_head (hlogs.trans hhead)
    rw [Raft.getLatestLog, hlogs]
    exact hlast

/-! ## Negotiations -/

/-- The leader before an append is accepted: rejections changed its `nextIndex`, and a snapshot its
`matchIndex[peer]`. -/
def Tried (peer : Fin n) (leader rf : Raft n C D) : Prop :=
  ∃ next i, i ≤ max (leader.matchIndex peer) leader.getFirstLog.index ∧ rf = { leader with
    nextIndex := next
    matchIndex := Function.update leader.matchIndex peer i }

/-- The rounds of a negotiation end with an accepted append, from any `nextIndex[peer]` inside the
leader's log or right after it. -/
theorem Compatible.accepts (h : Compatible leader follower)
    (hlast : leader.nextIndex peer ≤ leader.getLatestLog.index + 1)
    (hneg : Negotiable leader follower (leader.nextIndex peer)) :
    ∃ k rf args, Tried peer leader rf ∧
      args.prevLogIndex + args.entries.length = leader.getLatestLog.index ∧
      ((round peer)^[k] (leader, follower)).1 = rf.acceptNewLogEntries peer args := by
  -- Induction on `nextIndex[peer]`, which every rejected append lowers.
  induction hnext : leader.nextIndex peer using Nat.strongRecOn generalizing leader follower with
  | _ next ih =>
    rcases Nat.lt_or_ge leader.getFirstLog.index (leader.nextIndex peer) with hfirst | hsnap
    · obtain ⟨prev, hprev⟩ : ∃ prev, leader.nextIndex peer = prev + 1 :=
        ⟨leader.nextIndex peer - 1, by omega⟩
      rw [hprev] at hneg
      cases hmatched : follower.isLogMatched prev (leader.logTerm prev) with
      | true =>
        obtain ⟨args, hargs, hround⟩ :=
          round_accepted h.leads h.term h.leaderShape hprev (by omega) (by omega) hmatched
        refine ⟨1, leader, args, ⟨leader.nextIndex, leader.matchIndex peer, le_max_left _ _, ?_⟩, hargs,
          hround⟩
        rw [Function.update_eq_self]
      | false =>
        obtain ⟨c, hc, hround⟩ := h.round_rejected hprev (by omega) (by omega) hmatched
        obtain ⟨hlower, hneg'⟩ := hc.negotiable h (by omega) hneg
        have hself := nextIndex_setNext leader peer (leader.bounded c)
        obtain ⟨k, rf, args, htried, hk⟩ := ih _ (by omega) (h.setNext peer (leader.bounded c))
          (hself.le.trans (min_le_right _ _)) (by rw [hself]; exact hneg') hself
        refine ⟨k + 1, rf, args, htried, ?_⟩
        rw [Function.iterate_succ_apply, hround]
        exact hk
    · have hkept : follower.getFirstLog.index ≤ leader.getFirstLog.index := by
        rcases hneg with hle | ⟨hlt, -⟩
        · exact hle
        · omega
      obtain ⟨follower', hround, hterm, hmatched⟩ := h.snapshot hsnap hkept
      have hlen : leader.getFirstLog.index ≤ leader.getLatestLog.index := by
        rw [h.leaderShape.latest]
        exact Nat.le_add_right _ _
      obtain ⟨args, hargs, hround'⟩ := @round_accepted n C D
        (leader.updateLogIndices peer leader.getFirstLog.index) follower' peer h.leads hterm
        h.leaderShape leader.getFirstLog.index (Function.update_self _ _ _) le_rfl hlen hmatched
      refine ⟨2, leader.updateLogIndices peer leader.getFirstLog.index, args,
        ⟨_, leader.getFirstLog.index, le_max_right _ _, rfl⟩, hargs, ?_⟩
      show (round peer (round peer (leader, follower))).1 = _
      rw [hround]
      exact hround'

/-- The leader has learned that the follower has its whole log. -/
def CaughtUp (peer : Fin n) (leader : Raft n C D) (pair : Raft n C D × Raft n C D) : Prop :=
  pair.1.logs = leader.logs ∧ pair.1.matchIndex peer = leader.getLatestLog.index

theorem negotiation_ends (leader follower : Raft n C D) (peer : Fin n)
    (h : Compatible leader follower)
    (hlast : leader.nextIndex peer ≤ leader.getLatestLog.index + 1)
    (hneg : Negotiable leader follower (leader.nextIndex peer)) :
    ∃ k, CaughtUp peer leader ((round peer)^[k] (leader, follower)) := by
  obtain ⟨k, rf, args, ⟨next, i, -, rfl⟩, hargs, hk⟩ := h.accepts hlast hneg
  obtain ⟨j, -, heq⟩ := acceptNewLogEntries_eq { leader with
    nextIndex := next
    matchIndex := Function.update leader.matchIndex peer i } peer args
  refine ⟨k, ?_⟩
  unfold CaughtUp
  rw [hk, heq]
  exact ⟨rfl, (Function.update_self _ _ _).trans hargs⟩

/-! ## The circle -/

/-- Log Matching of two logs; the commands of placeholders are gone. -/
def LogMatching (leader follower : Raft n C D) : Prop :=
  ∀ e ∈ leader.logs, ∀ f ∈ follower.logs, e.index = f.index → e.term = f.term →
    ∀ e' ∈ leader.logs, ∀ f' ∈ follower.logs, e'.index = f'.index → e'.index ≤ e.index →
      e'.term = f'.term ∧ (e'.command = f'.command ∨ e'.index = leader.getFirstLog.index ∨
        f'.index = follower.getFirstLog.index)

/-- Two logs with one common entry agree before it. -/
theorem LogMatching.logTerm_eq (hm : LogMatching leader follower) (h : Compatible leader follower)
    {prev i : Nat} (hlast : prev ≤ leader.getLatestLog.index)
    (hmatched : follower.isLogMatched prev (leader.logTerm prev) = true)
    (hleader : leader.getFirstLog.index ≤ i) (hfollower : follower.getFirstLog.index ≤ i)
    (hle : i ≤ prev) : leader.logTerm i = follower.logTerm i := by
  obtain ⟨hkept, hheld, hterm⟩ := h.followerShape.isLogMatched.mp hmatched
  obtain ⟨hmem, hindex⟩ := h.leaderShape.getD_mem (hleader.trans hle) hlast
  obtain ⟨hmem', hindex'⟩ := h.followerShape.getD_mem hkept hheld
  obtain ⟨hi, hiIndex⟩ := h.leaderShape.getD_mem hleader (hle.trans hlast)
  obtain ⟨hi', hiIndex'⟩ := h.followerShape.getD_mem hfollower (hle.trans hheld)
  exact (hm _ hmem _ hmem' (by omega) hterm _ hi _ hi' (by omega) (by omega)).1

/-- What it means that the negotiation cannot be carried on. -/
theorem Compatible.not_negotiable_iff (h : Compatible leader follower) {next : Nat} :
    ¬ Negotiable leader follower next ↔
      leader.getFirstLog.index < follower.getFirstLog.index ∧
        (next ≤ follower.getFirstLog.index ∨
          leader.logTerm (follower.getFirstLog.index - 1) =
            leader.logTerm follower.getFirstLog.index ∧
          ∃ i < next, follower.getFirstLog.index < i ∧ i ≤ follower.getLatestLog.index ∧
            follower.logTerm i = follower.logTerm follower.getFirstLog.index ∧
            leader.logTerm i ≠ follower.logTerm follower.getFirstLog.index) := by
  constructor
  · intro hneg
    obtain ⟨hfirst, hneg⟩ := not_or.mp hneg
    have hfirst := not_le.mp hfirst
    refine ⟨hfirst, ?_⟩
    rcases Nat.lt_or_ge follower.getFirstLog.index next with hlt | hge
    · right
      obtain ⟨hlower, hfollows⟩ := not_or.mp fun hsafe => hneg ⟨hlt, hsafe⟩
      push Not at hfollows
      exact ⟨le_antisymm (h.before_first_le hfirst) (not_lt.mp hlower), hfollows⟩
    · exact Or.inl hge
  · rintro ⟨hfirst, hcases⟩ (hle | ⟨hlt, hsafe⟩)
    · omega
    · rcases hcases with hge | ⟨hrun, i, hi, hfi, hlast, hterm, hne⟩
      · omega
      · rcases hsafe with hlower | hfollows
        · omega
        · exact hne (hfollows i hi hfi hlast hterm)

/-- A negotiation that cannot be carried on has no accepted append. -/
theorem Compatible.unmatched (h : Compatible leader follower) (hm : LogMatching leader follower)
    {prev : Nat} (hlast : prev ≤ leader.getLatestLog.index)
    (hneg : ¬ Negotiable leader follower (prev + 1)) :
    follower.isLogMatched prev (leader.logTerm prev) = false := by
  by_contra hmatched
  rw [Bool.not_eq_false] at hmatched
  obtain ⟨hkept, -, -⟩ := h.followerShape.isLogMatched.mp hmatched
  obtain ⟨hfirst, hcases⟩ := h.not_negotiable_iff.mp hneg
  obtain ⟨-, i, hi, hfi, -, hterm, hne⟩ := hcases.resolve_left (by omega)
  have heq := hm.logTerm_eq h hlast hmatched (by omega) hfi.le (Nat.le_of_lt_succ hi)
  exact hne (heq.trans hterm)

/-- A rejected append leaves it one that cannot be carried on. -/
theorem BacksUpTo.not_negotiable {prev c : Nat} (hc : BacksUpTo leader follower prev c)
    (h : Compatible leader follower) (hlast : prev ≤ leader.getLatestLog.index)
    (hneg : ¬ Negotiable leader follower (prev + 1)) :
    leader.getFirstLog.index < leader.bounded c ∧ ¬ Negotiable leader follower (leader.bounded c) := by
  obtain ⟨hfirst, hcases⟩ := h.not_negotiable_iff.mp hneg
  have hfirst_le := h.first_le
  have hagree := h.agree_first hfirst
  rw [h.not_negotiable_iff]
  cases hc with
  | behind hbehind =>
    refine ⟨lt_bounded hfirst (by omega), hfirst, Or.inl ?_⟩
    exact (min_le_left _ _).trans (max_le le_rfl hfirst.le)
  | short hkept hshort =>
    obtain ⟨hrun, i, hi, hfi, hheld, hterm, hne⟩ := hcases.resolve_left (by omega)
    refine ⟨lt_bounded (by omega) (by omega), hfirst, Or.inr ⟨hrun, i, ?_, hfi, hheld, hterm, hne⟩⟩
    exact lt_bounded (by omega) (by omega)
  | hint _ hconflict hge hle hsame hnone =>
    have hkept := hconflict.first
    obtain ⟨hrun, i, hi, hfi, hheld, hterm, hne⟩ := hcases.resolve_left (by omega)
    -- The leader has the term of the first index, so the conflicting term is a later one.
    have hlater := hnone _ hfirst.le (h.lt_of_conflict hfirst hconflict)
    have hterm_le := h.first_term_le hfirst hconflict
    have hlt : i < c := by
      by_contra hge'
      have hle' := h.followerShape.logTerm_le hge (not_lt.mp hge') hheld
      omega
    refine ⟨lt_bounded (by omega) (by omega), hfirst, Or.inr ⟨hrun, i, ?_, hfi, hheld, hterm, hne⟩⟩
    exact lt_bounded hlt (by omega)
  | found j hconflict hj hlt hsame hleast =>
    have hkept := hconflict.first
    have hheld' := hconflict.last
    obtain ⟨hrun, i, hi, hfi, hheld, hterm, hne⟩ := hcases.resolve_left (by omega)
    have hterm_le := h.first_term_le hfirst hconflict
    refine ⟨lt_bounded (by omega) (by omega), hfirst, ?_⟩
    by_cases hrunning : follower.logTerm prev = leader.logTerm follower.getFirstLog.index
    · -- The leader's entries of the term start before the follower's first index.
      have hbefore : ¬ follower.getFirstLog.index - 1 < j := fun hlt =>
        hleast _ (by omega) hlt (hrun.trans hrunning.symm)
      exact Or.inl ((min_le_left _ _).trans (max_le (by omega) hfirst.le))
    · have hbehind : follower.getFirstLog.index < j := by
        by_contra hge
        have := h.leaderShape.logTerm_le hj (not_lt.mp hge) hfirst_le
        omega
      rcases Nat.lt_or_ge j i with hji | hij
      · -- At `j` the follower still has the term of its first index.
        have hle₁ := h.followerShape.logTerm_le le_rfl hbehind.le (by omega)
        have hle₂ := h.followerShape.logTerm_le hbehind.le hji.le hheld
        exact Or.inr ⟨hrun, j, lt_bounded (by omega) (by omega), hbehind, by omega, by omega,
          by omega⟩
      · exact Or.inr ⟨hrun, i, lt_bounded (by omega) (by omega), hfi, hheld, hterm, hne⟩

/-- Then no round changes `matchIndex[peer]`. -/
theorem matchIndex_stays (h : Compatible leader follower) (hm : LogMatching leader follower)
    (hfirst : leader.getFirstLog.index < leader.nextIndex peer)
    (hlast : leader.nextIndex peer ≤ leader.getLatestLog.index + 1)
    (hneg : ¬ Negotiable leader follower (leader.nextIndex peer)) (k : Nat) :
    ((round peer)^[k] (leader, follower)).1.matchIndex peer = leader.matchIndex peer := by
  induction k generalizing leader follower with
  | zero => rfl
  | succ k ih =>
    obtain ⟨prev, hprev⟩ : ∃ prev, leader.nextIndex peer = prev + 1 :=
      ⟨leader.nextIndex peer - 1, by omega⟩
    rw [hprev] at hneg
    obtain ⟨c, hc, hround⟩ := h.round_rejected hprev (by omega) (by omega)
      (h.unmatched hm (by omega) hneg)
    obtain ⟨hlow, hneg'⟩ := hc.not_negotiable h (by omega) hneg
    have hself := nextIndex_setNext leader peer (leader.bounded c)
    rw [Function.iterate_succ_apply, hround]
    exact ih (h.setNext peer _) hm (hlow.trans_eq hself.symm) (hself.le.trans (min_le_right _ _))
      (by rw [hself]; exact hneg')

/-- The rounds end where the negotiation can be carried on. For two logs with Log Matching and a
`nextIndex[peer]` beyond the leader's first index they end nowhere else, but where the leader knows
from the start that the follower has its whole log. -/
theorem negotiation_ends_iff (leader follower : Raft n C D) (peer : Fin n)
    (h : Compatible leader follower)
    (hlast : leader.nextIndex peer ≤ leader.getLatestLog.index + 1) :
    (Negotiable leader follower (leader.nextIndex peer) →
      ∃ k, CaughtUp peer leader ((round peer)^[k] (leader, follower))) ∧
    (LogMatching leader follower → leader.getFirstLog.index < leader.nextIndex peer →
      ((∃ k, CaughtUp peer leader ((round peer)^[k] (leader, follower))) ↔
        leader.matchIndex peer = leader.getLatestLog.index ∨
          Negotiable leader follower (leader.nextIndex peer))) := by
  refine ⟨negotiation_ends leader follower peer h hlast, fun hm hfirst => ⟨?_, ?_⟩⟩
  · rintro ⟨k, -, hk⟩
    by_cases hneg : Negotiable leader follower (leader.nextIndex peer)
    · exact Or.inr hneg
    · rw [matchIndex_stays h hm hfirst hlast hneg k] at hk
      exact Or.inl hk
  · rintro (hknown | hneg)
    · exact ⟨0, rfl, hknown⟩
    · exact negotiation_ends leader follower peer h hlast hneg

/-- A new leader of term 3 that has not compacted its log. The entries 1 and 2 have term `t`. -/
def newLeader (me : Fin 3) (t : Nat) : Raft 3 Nat Unit :=
  { Raft.make me makePersister with
    currentTerm := 3, state := .leader, commitIndex := 3, lastApplied := 3,
    logs := [default, ⟨some 1, t, 1⟩, ⟨some 2, t, 2⟩, ⟨some 3, 2, 3⟩, ⟨some 6, 3, 4⟩, ⟨some 7, 3, 5⟩]
    nextIndex := fun _ => 6
    matchIndex := fun p => if p = me then 5 else 0 }

/-- A follower with a snapshot up to index 3, and two entries of term 2 that were never committed. -/
def oldFollower (me : Fin 3) : Raft 3 Nat Unit :=
  { Raft.make me makePersister with
    currentTerm := 3, commitIndex := 3, lastApplied := 3,
    logs := [⟨none, 2, 3⟩, ⟨some 4, 2, 4⟩, ⟨some 5, 2, 5⟩]
    lastIncludedIndex := 3
    lastIncludedTerm := 2 }

theorem newLeader_compatible {t : Nat} (ht : t = 1 ∨ t = 2) :
    Compatible (newLeader 0 t) (oldFollower 1) where
  leads := rfl
  term := rfl
  leaderShape := by rcases ht with rfl | rfl <;> exact ⟨by decide, by decide, by decide⟩
  followerShape := ⟨by decide, by decide, by decide⟩
  first_le := by
    show 3 ≤ 5
    decide
  applied_ge := by decide
  applied_le := by decide
  agree := by rcases ht with rfl | rfl <;> decide

/-- Where term 2 starts at the follower's first index, it is found. -/
theorem negotiation_ends_at_snapshot :
    (∃ k, CaughtUp 1 (newLeader 0 1) ((round 1)^[k] (newLeader 0 1, oldFollower 1))) ∧
      LogMatching (newLeader 0 1) (oldFollower 1) ∧
      ((newLeader 0 1).matchIndex 1 = (newLeader 0 1).getLatestLog.index ∨
        Negotiable (newLeader 0 1) (oldFollower 1) ((newLeader 0 1).nextIndex 1)) := by
  have hm : LogMatching (newLeader 0 1) (oldFollower 1) := by
    unfold LogMatching
    decide
  obtain ⟨hends, hiff⟩ := negotiation_ends_iff (newLeader 0 1) (oldFollower 1) 1
    (newLeader_compatible (Or.inl rfl)) (by decide)
  have hcaughtUp := hends (Or.inr ⟨by decide, Or.inl (by decide)⟩)
  exact ⟨hcaughtUp, hm, (hiff hm (by decide)).mp hcaughtUp⟩

/-- Where the leader has entries of term 2 before that index, it goes back to the first of them and
is sent from there to the follower's first index, for ever. -/
theorem negotiation_circles : Compatible (newLeader 0 2) (oldFollower 1) ∧
    LogMatching (newLeader 0 2) (oldFollower 1) ∧
    (newLeader 0 2).nextIndex 1 = (newLeader 0 2).getLatestLog.index + 1 ∧
    ∀ k, ((round 1)^[k] (newLeader 0 2, oldFollower 1)).1.matchIndex 1 ≠
      (newLeader 0 2).getLatestLog.index := by
  have h := newLeader_compatible (Or.inr rfl)
  have hm : LogMatching (newLeader 0 2) (oldFollower 1) := by
    unfold LogMatching
    decide
  have hneg : ¬ Negotiable (newLeader 0 2) (oldFollower 1) ((newLeader 0 2).nextIndex 1) :=
    h.not_negotiable_iff.mpr ⟨by decide, Or.inr ⟨by decide, 4, by decide⟩⟩
  refine ⟨h, hm, by decide, fun k => ?_⟩
  rw [matchIndex_stays h hm (by decide) (by decide) hneg k]
  decide

end DistSys.Raft1
