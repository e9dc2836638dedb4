import DistSys.Raft1.Node
import Mathlib.Data.List.GetD

/- The shape of a log: what a reader of `rf.logs` takes for granted.

   `logs[0]` is there, the entries have consecutive indices from it on, and the terms do
   not go down. Positions and indices then say the same: the entry with index `i` is at
   position `i - logs[0].Index`, and a search over positions finds where a term starts. -/
namespace DistSys.Raft1

variable {n : Nat} {C D : Type}

/-! ## Searching -/

/-- Where a search in `i..j` may end: the test fails just before, and holds there. -/
structure Boundary (f : Nat → Bool) (i j r : Nat) : Prop where
  lower : i ≤ r
  upper : r ≤ j
  fails : i < r → f (r - 1) = false
  holds : r < j → f r = true

theorem Boundary.refl (f : Nat → Bool) (i : Nat) : Boundary f i i i where
  lower := le_rfl
  upper := le_rfl
  fails := fun h => absurd h (lt_irrefl i)
  holds := fun h => absurd h (lt_irrefl i)

/-- The search goes on behind `mid`, where the test fails. -/
theorem Boundary.behind {f : Nat → Bool} {i mid j r : Nat} (h : Boundary f (mid + 1) j r)
    (hle : i ≤ mid) (hf : f mid = false) : Boundary f i j r := by
  have hlower := h.lower
  refine ⟨by omega, h.upper, fun _ => ?_, h.holds⟩
  rcases Nat.eq_or_lt_of_le hlower with rfl | hlt
  · exact hf
  · exact h.fails hlt

/-- The search goes on up to `mid`, where the test holds. -/
theorem Boundary.upTo {f : Nat → Bool} {i mid j r : Nat} (h : Boundary f i mid r)
    (hle : mid ≤ j) (hf : f mid = true) : Boundary f i j r := by
  refine ⟨h.lower, h.upper.trans hle, h.fails, fun _ => ?_⟩
  rcases Nat.eq_or_lt_of_le h.upper with rfl | hlt
  · exact hf
  · exact h.holds hlt

theorem sortSearchLoop_boundary {f : Nat → Bool} {fuel i j : Nat} (hfuel : j - i ≤ fuel)
    (hij : i ≤ j) : Boundary f i j (Raft.sortSearchLoop f fuel i j) := by
  induction fuel generalizing i j with
  | zero =>
    obtain rfl : i = j := by omega
    exact Boundary.refl f i
  | succ fuel ih =>
    unfold Raft.sortSearchLoop
    split
    · simp only
      generalize hmid : (i + j) / 2 = mid
      cases hf : f mid with
      | false => exact (ih (by omega) (by omega)).behind (by omega) hf
      | true => exact (ih (by omega) (by omega)).upTo (by omega) hf
    · obtain rfl : i = j := by omega
      exact Boundary.refl f i

theorem sortSearch_boundary (size : Nat) (f : Nat → Bool) :
    Boundary f 0 size (Raft.sortSearch size f) :=
  sortSearchLoop_boundary (by omega) (Nat.zero_le size)

/-! ## The entries of a log -/

/-- The term of the entry with index `i`. -/
def Raft.logTerm (rf : Raft n C D) (i : Nat) : Nat :=
  (rf.logs.getD (i - rf.getFirstLog.index) default).term

structure Shape (logs : List (LogEntry C)) : Prop where
  pos : 0 < logs.length
  index : ∀ k < logs.length, (logs.getD k default).index = (logs.headD default).index + k
  sorted : (logs.map LogEntry.term).Pairwise (· ≤ ·)

namespace Shape

variable {logs : List (LogEntry C)} {rf : Raft n C D}

theorem index_getElem (h : Shape logs) {k : Nat} (hk : k < logs.length) :
    logs[k].index = (logs.headD default).index + k := by
  have hindex := h.index k hk
  rwa [List.getD_eq_getElem _ _ hk] at hindex

/-- The entry at a position has the index that belongs to it. -/
theorem getElem?_iff (h : Shape logs) {i : Nat} {e : LogEntry C} :
    (e ∈ logs ∧ e.index = i) ↔
      (logs.headD default).index ≤ i ∧ logs[i - (logs.headD default).index]? = some e := by
  constructor
  · rintro ⟨hmem, rfl⟩
    obtain ⟨k, hk, rfl⟩ := List.getElem_of_mem hmem
    rw [h.index_getElem hk]
    refine ⟨Nat.le_add_right _ _, ?_⟩
    rw [Nat.add_sub_cancel_left, List.getElem?_eq_getElem hk]
  · rintro ⟨hle, hget⟩
    obtain ⟨hk, rfl⟩ := List.getElem?_eq_some_iff.mp hget
    refine ⟨List.getElem_mem hk, ?_⟩
    rw [h.index_getElem hk]
    omega

theorem latest (h : Shape rf.logs) :
    rf.getLatestLog.index = rf.getFirstLog.index + (rf.logs.length - 1) := by
  have hpos := h.pos
  rw [Raft.getLatestLog, List.getLastD_eq_getLast?, List.getLast?_eq_getElem?,
    List.getElem?_eq_getElem (by omega), Option.getD_some, h.index_getElem]
  rfl

theorem mem_range (h : Shape rf.logs) {e : LogEntry C} (he : e ∈ rf.logs) :
    rf.getFirstLog.index ≤ e.index ∧ e.index ≤ rf.getLatestLog.index := by
  obtain ⟨k, hk, rfl⟩ := List.getElem_of_mem he
  rw [h.latest, h.index_getElem hk]
  exact ⟨Nat.le_add_right _ _, by rw [Raft.getFirstLog]; omega⟩

/-- There is an entry for every index between the first and the last. -/
theorem exists_mem (h : Shape rf.logs) {i : Nat} (hfirst : rf.getFirstLog.index ≤ i)
    (hlast : i ≤ rf.getLatestLog.index) : ∃ e ∈ rf.logs, e.index = i := by
  have hpos := h.pos
  rw [h.latest] at hlast
  have hk : i - rf.getFirstLog.index < rf.logs.length := by omega
  obtain ⟨hmem, hindex⟩ := h.getElem?_iff.mpr ⟨hfirst, List.getElem?_eq_getElem hk⟩
  exact ⟨_, hmem, hindex⟩

theorem unique (h : Shape logs) {e e' : LogEntry C} (he : e ∈ logs) (he' : e' ∈ logs)
    (heq : e.index = e'.index) : e = e' := by
  obtain ⟨-, hget⟩ := h.getElem?_iff.mp ⟨he, heq⟩
  obtain ⟨-, hget'⟩ := h.getElem?_iff.mp ⟨he', rfl⟩
  exact Option.some.inj (hget.symm.trans hget')

theorem term_le (h : Shape logs) {e e' : LogEntry C} (he : e ∈ logs) (he' : e' ∈ logs)
    (hle : e.index ≤ e'.index) : e.term ≤ e'.term := by
  obtain ⟨k, hk, rfl⟩ := List.getElem_of_mem he
  obtain ⟨k', hk', rfl⟩ := List.getElem_of_mem he'
  rw [h.index_getElem hk, h.index_getElem hk'] at hle
  rcases Nat.lt_or_ge k k' with hlt | hge
  · have hsorted := List.pairwise_iff_getElem.mp h.sorted k k' (by simpa) (by simpa) hlt
    simpa using hsorted
  · obtain rfl : k = k' := by omega
    exact le_rfl

theorem isValidLogIndex (h : Shape rf.logs) {i : Nat} : rf.isValidLogIndex i = true ↔
    rf.getFirstLog.index ≤ i ∧ i ≤ rf.getLatestLog.index := by
  have hpos := h.pos
  rw [h.latest, Raft.isValidLogIndex]
  simp only [Bool.and_eq_true, decide_eq_true_eq]
  omega

theorem getD_mem (h : Shape rf.logs) {i : Nat} (hfirst : rf.getFirstLog.index ≤ i)
    (hlast : i ≤ rf.getLatestLog.index) :
    rf.logs.getD (i - rf.getFirstLog.index) default ∈ rf.logs ∧
      (rf.logs.getD (i - rf.getFirstLog.index) default).index = i := by
  obtain ⟨e, he, rfl⟩ := h.exists_mem hfirst hlast
  obtain ⟨-, hget⟩ := h.getElem?_iff.mp ⟨he, rfl⟩
  have hgetD : rf.logs.getD (e.index - rf.getFirstLog.index) default = e := by
    rw [List.getD_eq_getElem?_getD, Raft.getFirstLog, hget]
    rfl
  rw [hgetD]
  exact ⟨he, rfl⟩

theorem isLogMatched (h : Shape rf.logs) {i t : Nat} : rf.isLogMatched i t = true ↔
    rf.getFirstLog.index ≤ i ∧ i ≤ rf.getLatestLog.index ∧ t = rf.logTerm i := by
  unfold Raft.isLogMatched
  constructor
  · intro hmatched
    split at hmatched
    · contradiction
    · rename_i hrange
      split at hmatched
      · contradiction
      · exact ⟨by omega, by omega, beq_iff_eq.mp hmatched⟩
  · rintro ⟨hfirst, hlast, rfl⟩
    rw [if_neg (by omega), if_neg (by simp [h.isValidLogIndex.mpr ⟨hfirst, hlast⟩])]
    exact beq_self_eq_true _

theorem isLogMatched_iff_mem (h : Shape rf.logs) {i t : Nat} : rf.isLogMatched i t = true ↔
    ∃ e ∈ rf.logs, e.index = i ∧ e.term = t := by
  rw [h.isLogMatched]
  constructor
  · rintro ⟨hfirst, hlast, rfl⟩
    obtain ⟨hmem, hindex⟩ := h.getD_mem hfirst hlast
    exact ⟨_, hmem, hindex, rfl⟩
  · rintro ⟨e, he, rfl, rfl⟩
    obtain ⟨hfirst, hlast⟩ := h.mem_range he
    obtain ⟨hmem, hindex⟩ := h.getD_mem hfirst hlast
    refine ⟨hfirst, hlast, ?_⟩
    rw [Raft.logTerm, h.unique hmem he hindex]

theorem logTerm_le (h : Shape rf.logs) {i j : Nat} (hfirst : rf.getFirstLog.index ≤ i) (hij : i ≤ j)
    (hlast : j ≤ rf.getLatestLog.index) : rf.logTerm i ≤ rf.logTerm j := by
  obtain ⟨hmem, hindex⟩ := h.getD_mem hfirst (hij.trans hlast)
  obtain ⟨hmem', hindex'⟩ := h.getD_mem (hfirst.trans hij) hlast
  exact h.term_le hmem hmem' (by omega)

end Shape

end DistSys.Raft1
