import DistSys.Raft1.Twin

/- A leader has committed everything it can.

   `handleSnapShotReply` raises `matchIndex` without looking for a new commit
   index, where the reply to an append does look. Nothing is missed: a snapshot
   covers committed entries only, so the reply adds no confirmation above the
   commit index, and whatever was confirmed there by a majority had been looked at
   when its own reply came in (`Settled`). -/
namespace DistSys.Raft1

open Lib

variable {n : Nat} {C D : Type}

/-- The peers that confirmed index `i`, by a leader's account. -/
def Raft.confirmed (rf : Raft n C D) (i : Nat) : Finset (Fin n) :=
  Finset.univ.filter fun q => i ≤ rf.matchIndex q

/-- No index above the commit index that a majority confirmed, another peer among it, holds an entry
of the leader's term. -/
structure Settled (ℓ : List (Entry (Option C))) (rf : Raft n C D) : Prop where
  own : rf.matchIndex rf.me = ℓ.length
  done : ∀ i q, rf.commitIndex < i → q ≠ rf.me → i ≤ rf.matchIndex q →
    IsMajority (rf.confirmed i) → termAt ℓ i ≠ rf.currentTerm

namespace Settled

variable {ℓ : List (Entry (Option C))} {rf : Raft n C D}

/-- A new leader knows of nothing confirmed by others. -/
theorem elected (h : Shows ℓ rf) (hs : rf.state = .candidate) :
    Settled ℓ (rf.changeState .leader) := by
  unfold Raft.changeState
  rw [if_neg (by rw [hs]; simp)]
  constructor
  · simp [Raft.updateLogIndices, h.latest.1]
  · intro i q hlt hq hle _
    have hq : q ≠ rf.me := hq
    simp only [Raft.updateLogIndices] at hle hlt
    rw [Function.update_of_ne hq] at hle
    omega

/-- An entry that only the leader has is not confirmed by others. -/
theorem start (h : Settled ℓ rf) (hk : Shows ℓ rf) (hs : rf.state = .leader)
    (hle : ∀ q, rf.matchIndex q ≤ ℓ.length) (command : Option C) :
    Settled (ℓ ++ [⟨rf.currentTerm, command⟩]) (rf.start command).1 := by
  unfold Raft.start
  rw [if_neg (not_not.mpr hs)]
  simp only [hk.latest.1]
  constructor
  · simp [Raft.updateLogIndices, persistState_eq]
  · intro i q hlt hq hiq hmaj
    have hother : ∀ x, x ≠ rf.me → Function.update rf.matchIndex rf.me (ℓ.length + 1) x =
        rf.matchIndex x := fun x hx => Function.update_of_ne hx _ _
    have hi : i ≤ ℓ.length := by
      have : i ≤ rf.matchIndex q := (hother q hq) ▸ hiq
      exact this.trans (hle q)
    have hold : IsMajority (rf.confirmed i) := by
      refine hmaj.mono fun x hx => ?_
      have hx' : i ≤ Function.update rf.matchIndex rf.me (ℓ.length + 1) x := (Finset.mem_filter.mp hx).2
      refine Finset.mem_filter.mpr ⟨Finset.mem_univ x, ?_⟩
      by_cases hxm : x = rf.me
      · rw [hxm, h.own]; exact hi
      · rw [← hother x hxm]; exact hx'
    rw [termAt_prefix_eq (List.prefix_append _ _) hi]
    exact h.done i q hlt hq ((hother q hq) ▸ hiq) hold

/-- A confirmation of committed entries. -/
theorem lower (h : Settled ℓ rf) {peer : Fin n} (hp : peer ≠ rf.me) {i : Nat}
    (hi : i ≤ rf.commitIndex) : Settled ℓ (rf.updateLogIndices peer i) where
  own := by
    have : Function.update rf.matchIndex peer i rf.me = rf.matchIndex rf.me :=
      Function.update_of_ne hp.symm _ _
    exact this.trans h.own
  done := by
    intro j q hlt hq hjq hmaj
    have hlt : rf.commitIndex < j := hlt
    have hup : ∀ x, j ≤ Function.update rf.matchIndex peer i x → j ≤ rf.matchIndex x := by
      intro x hx
      by_cases hxp : x = peer
      · rw [hxp, Function.update_self] at hx
        omega
      · rwa [Function.update_of_ne hxp] at hx
    refine h.done j q hlt hq (hup q hjq) (hmaj.mono fun x hx => ?_)
    exact Finset.mem_filter.mpr ⟨Finset.mem_univ x, hup x (Finset.mem_filter.mp hx).2⟩

/-- In a settled state looking for a new commit index finds none. -/
theorem accept_eq (h : Settled ℓ rf) (hk : Shows ℓ rf) {peer : Fin n} (hp : peer ≠ rf.me)
    {args : AppendEntryArgs n C} (hi : args.prevLogIndex + args.entries.length ≤ rf.commitIndex) :
    rf.acceptNewLogEntries peer args =
      rf.updateLogIndices peer (args.prevLogIndex + args.entries.length) := by
  obtain ⟨v, hv, heq⟩ := acceptNewLogEntries_selects rf peer args
  have hmaj := (hv v).mpr le_rfl
  rw [heq, if_neg]
  · rfl
  · rintro ⟨hlt, hm⟩
    obtain ⟨-, -, hterm⟩ := hk.isLogMatched.mp hm
    -- a majority of at least two peers has one that is not the leader
    obtain ⟨q, hq, hne⟩ : ∃ q ∈ (rf.updateLogIndices peer
        (args.prevLogIndex + args.entries.length)).confirmed v, q ≠ rf.me := by
      have hpeer := peer.isLt
      have hme := rf.me.isLt
      have hval : peer.val ≠ rf.me.val := fun he => hp (Fin.ext he)
      refine Finset.exists_mem_ne (Nat.lt_of_le_of_lt ?_ hmaj) rf.me
      omega
    exact (h.lower hp hi).done v q hlt hne (Finset.mem_filter.mp hq).2 (isMajority_fin.mpr hmaj)
      hterm.symm

/-- After looking for a new commit index the leader is settled, whatever it was before. -/
theorem accepted {c : Repl (Fin n) (Option C)} (hi : c.Inv) (hℓ : c.Sourced ℓ) (hk : Shows ℓ rf)
    (hown : rf.matchIndex rf.me = ℓ.length) (hb : rf.lastIncludedIndex ≤ rf.commitIndex)
    (hT : ∀ i, i ≤ ℓ.length → termAt ℓ i ≤ rf.currentTerm) {peer : Fin n} (hp : peer ≠ rf.me)
    {args : AppendEntryArgs n C}
    (hle : ∀ q, (rf.updateLogIndices peer (args.prevLogIndex + args.entries.length)).matchIndex q ≤
      ℓ.length) : Settled ℓ (rf.acceptNewLogEntries peer args) := by
  have hown' : (rf.updateLogIndices peer (args.prevLogIndex + args.entries.length)).matchIndex rf.me =
      ℓ.length := (Function.update_of_ne hp.symm _ _).trans hown
  obtain ⟨v, hv, heq⟩ := acceptNewLogEntries_selects rf peer args
  rw [heq]
  refine ⟨hown', fun i q hlt _ _ hmaj hterm => ?_⟩
  have hiv : i ≤ v := (hv i).mp (isMajority_fin.mp hmaj)
  have hlt : (if rf.commitIndex < v ∧ rf.isLogMatched v rf.currentTerm = true then v
    else rf.commitIndex) < i := hlt
  split at hlt
  · omega
  · rename_i hc
    have hvlen : v ≤ ℓ.length := selected_le hv hle
    refine hc ⟨hlt.trans_le hiv, hk.isLogMatched.mpr ⟨hb.trans (hlt.le.trans hiv), hvlen, ?_⟩⟩
    -- terms between an entry of the leader's term and the end of its log are that term
    have hterm : termAt ℓ i = rf.currentTerm := hterm
    exact le_antisymm (hterm.symm.le.trans (hℓ.mono hi hiv hvlen)) (hT v hvlen)

end Settled

end DistSys.Raft1
