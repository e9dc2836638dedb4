import DistSys.Raft1.Peer
import DistSys.Raft1.Shape
import Mathlib.Order.Bounds.Basic

/- The commit rule, computed by selection.

   The rule of Raft names a set: the indices beyond `commitIndex` that more than half of
   `matchIndex` reach and whose entry has the leader's term. `acceptNewLogEntries` tests one
   index only, the one of rank `n - (n/2 + 1)`, which is the largest that more than half
   reach. The terms of the log decide whether this is the largest index of the set: with
   no term beyond the leader's own, an index of that term has only such entries after it. The
   index is inside the log, since a majority of more than one peer has somebody other than the
   peer that the reply is from. A peer that is alone gets no reply. -/
namespace DistSys.Raft1

variable {n : Nat} {C D : Type}

namespace Raft

/-- The indices that the commit rule allows once the peers have confirmed `matchIndex`. -/
def Committable (rf : Raft n C D) (matchIndex : Fin n → Nat) (N : Nat) : Prop :=
  N = rf.commitIndex ∨ (rf.commitIndex < N ∧ n / 2 < (Finset.univ.filter (N ≤ matchIndex ·)).card ∧
    ∃ e ∈ rf.logs, e.index = N ∧ e.term = rf.currentTerm)

end Raft

/-- After an accepted reply `commitIndex` is the largest index that the commit rule allows. Where the
request ended matters only for a peer that is alone. -/
theorem commitIndex_isGreatest (rf : Raft n C D) (hshape : Shape rf.logs)
    (hterm : ∀ e ∈ rf.logs, e.term ≤ rf.currentTerm)
    (hfirst : rf.getFirstLog.index ≤ rf.commitIndex)
    (hmatch : ∀ p, rf.matchIndex p ≤ rf.getLatestLog.index)
    (peer : Fin n) (args : AppendEntryArgs n C)
    (hargs : n = 1 → args.prevLogIndex + args.entries.length ≤ rf.getLatestLog.index) :
    IsGreatest {N | rf.Committable (rf.acceptNewLogEntries peer args).matchIndex N}
      (rf.acceptNewLogEntries peer args).commitIndex := by
  obtain ⟨v, hv, heq⟩ := acceptNewLogEntries_selects rf peer args
  have hlast : v ≤ rf.getLatestLog.index := by
    by_cases hn : n = 1
    · exact selected_le hv (matchIndex_updateLogIndices_le hmatch peer (hargs hn))
    · -- Some peer other than `peer` has confirmed `v`, and no more than the log holds.
      have hpos := Fin.pos peer
      have hcard := (hv v).mpr le_rfl
      obtain ⟨p, hp, hne⟩ := Finset.exists_mem_ne (lt_of_le_of_lt (by omega : 1 ≤ n / 2) hcard) peer
      have hle : v ≤ Function.update rf.matchIndex peer _ p := (Finset.mem_filter.mp hp).2
      rw [Function.update_of_ne hne] at hle
      exact hle.trans (hmatch p)
  rw [heq]
  constructor
  · split
    · rename_i hcond
      exact Or.inr ⟨hcond.1, (hv v).mpr le_rfl, hshape.isLogMatched_iff_mem.mp hcond.2⟩
    · exact Or.inl rfl
  · rintro N (rfl | ⟨hlt, hcard, e, he, rfl, het⟩)
    · split
      · rename_i hcond
        exact hcond.1.le
      · exact le_rfl
    · -- The entry at `v` is not before one of the leader's term, and so has that term too.
      have hle : e.index ≤ v := (hv _).mp hcard
      obtain ⟨e', he', hindex⟩ := hshape.exists_mem (hfirst.trans (hlt.le.trans hle)) hlast
      have hterm' : e'.term = rf.currentTerm := by
        apply le_antisymm (hterm e' he')
        rw [← het]
        exact hshape.term_le he he' (by omega)
      rw [if_pos ⟨hlt.trans_le hle, hshape.isLogMatched_iff_mem.mpr ⟨e', he', hindex, hterm'⟩⟩]
      exact hle

/-- A leader of three peers whose own log is all it knows to be replicated. -/
def leaderOf (me : Fin 3) (currentTerm : Nat) (logs : List (LogEntry Nat)) : Raft 3 Nat Unit :=
  { Raft.make me makePersister with
    currentTerm := currentTerm, state := .leader, logs := logs,
    matchIndex := fun p => if p = me then (logs.getLastD default).index else 0 }

/-- The entry of the older term is committed with the one of the leader's term after it. -/
theorem commitIndex_isGreatest_older :
    let rf := leaderOf 0 2 [default, ⟨some 5, 1, 1⟩, ⟨some 6, 2, 2⟩]
    let args : AppendEntryArgs 3 Nat := ⟨2, 0, 0, 0, [⟨some 5, 1, 1⟩, ⟨some 6, 2, 2⟩], 0⟩
    IsGreatest {N | rf.Committable (rf.acceptNewLogEntries 1 args).matchIndex N} 2 := by
  intro rf args
  have hcommit : (rf.acceptNewLogEntries 1 args).commitIndex = 2 := by decide
  have hgreatest := commitIndex_isGreatest rf ⟨by decide, by decide, by decide⟩ (by decide)
    (by decide) (by decide) 1 args (fun hn => absurd hn (by decide))
  rwa [hcommit] at hgreatest

/-- With an entry of a term beyond the leader's own the selected index may miss: here it is 2,
with term 2, while the rule allows index 1 with the leader's term 1. -/
theorem commitIndex_below_newer_term :
    let rf := leaderOf 0 1 [default, ⟨some 5, 1, 1⟩, ⟨some 6, 2, 2⟩]
    let args : AppendEntryArgs 3 Nat := ⟨1, 0, 0, 0, [⟨some 5, 1, 1⟩, ⟨some 6, 2, 2⟩], 0⟩
    rf.state = .leader ∧ Shape rf.logs ∧ rf.getFirstLog.index ≤ rf.commitIndex ∧
      (∀ p, rf.matchIndex p ≤ rf.getLatestLog.index) ∧
      args = rf.genAppendEntryArgs 0 ∧
      ¬ IsGreatest {N | rf.Committable (rf.acceptNewLogEntries 1 args).matchIndex N}
        (rf.acceptNewLogEntries 1 args).commitIndex := by
  intro rf args
  refine ⟨rfl, ⟨by decide, by decide, by decide⟩, by decide, by decide, by decide, ?_⟩
  rintro ⟨-, hupper⟩
  have hallowed : rf.Committable (rf.acceptNewLogEntries 1 args).matchIndex 1 :=
    Or.inr ⟨by decide, by decide, ⟨some 5, 1, 1⟩, by decide, rfl, rfl⟩
  exact absurd (hupper hallowed) (by decide)

/-- A request beyond the log, which a peer that is alone never sends: the index selected is then 5, and
index 1 is not committed. -/
theorem commitIndex_alone :
    let rf : Raft 1 Nat Unit := { Raft.make 0 makePersister with
      currentTerm := 1, state := .leader, logs := [default, ⟨some 5, 1, 1⟩], matchIndex := fun _ => 1 }
    let args : AppendEntryArgs 1 Nat := ⟨1, 0, 5, 1, [], 0⟩
    Shape rf.logs ∧ (∀ e ∈ rf.logs, e.term ≤ rf.currentTerm) ∧
      rf.getFirstLog.index ≤ rf.commitIndex ∧ (∀ p, rf.matchIndex p ≤ rf.getLatestLog.index) ∧
      ¬ IsGreatest {N | rf.Committable (rf.acceptNewLogEntries 0 args).matchIndex N}
        (rf.acceptNewLogEntries 0 args).commitIndex := by
  intro rf args
  refine ⟨⟨by decide, by decide, by decide⟩, by decide, by decide, by decide, ?_⟩
  rintro ⟨-, hupper⟩
  have hallowed : rf.Committable (rf.acceptNewLogEntries 0 args).matchIndex 1 :=
    Or.inr ⟨by decide, by decide, ⟨some 5, 1, 1⟩, by decide, rfl, rfl⟩
  exact absurd (hupper hallowed) (by decide)

end DistSys.Raft1
