import DistSys.Raft1.Simulation
import DistSys.Rsm.SafeRaft

/- The Raft cluster is a safe Raft.

   What the layer above sees of the cluster of raft1/ is a run of `SafeRaft`: the
   same answers to `Start`, the same messages on `applyCh`, the same snapshots
   handed over and the same restarts, in the same order (`raft_is_safe`).

   The state of the safe Raft is read off the protocol state that the cluster is
   coupled to: the recorded calls of `Start` are the entries leaders put into their
   logs, the agreed log is the longest agreed sequence, and a replica is where the
   messages on its `applyCh` brought it. A step of the cluster is first matched by
   what is seen of it; the safe Raft then catches up with a snapshot installed and
   with the entries newly agreed on (`Behind.catchUp`). -/
namespace DistSys.Rsm

open Lib

variable {n : Nat} {C D : Type} {svc : Raft1.Service C D}

/-! ## What is seen of the cluster -/

/-- A message taken from `applyCh`. -/
def msgLabel (r : Fin n) (m : Raft1.ApplyMsg C D) : SafeRaft.Label n (Option C) D :=
  if m.commandValid then .deliver r m.commandIndex m.command
  else .deliverSnapshot r m.snapshotIndex m.snapshot

/-- A call of the service; a `Start` that is refused leaves no trace. -/
def callLabels (s : Raft1.Cluster n C D) :
    Raft1.Event n C D → List (SafeRaft.Label n (Option C) D)
  | .start r command =>
    (((s.proc r).rf.start command).2.map fun x => .start r x.1 x.2 command).toList
  | .snapshot r index data => [.snapshot r index data]
  | _ => []

def eventLabels (s : Raft1.Cluster n C D) :
    Raft1.Event n C D → List (SafeRaft.Label n (Option C) D)
  | .deliver r => ((s.proc r).sending.map (msgLabel r)).toList
  | e => callLabels s e

/-- A crash inside a call comes before it or, if everything was saved, after it. -/
def labels (s : Raft1.Cluster n C D) :
    Raft1.Action n C D → List (SafeRaft.Label n (Option C) D)
  | .event e => eventLabels s e
  | .crash r => [.restart r]
  | .crashIn r e k => (if k = 0 ∧ s.actor e = some r then callLabels s e else []) ++ [.restart r]

/-! ## The relation -/

/-- The snapshot in the persister of a peer. -/
def savedBy (rf : Raft1.Raft n C D) : Option (Nat × D) := rf.held.1.map fun d => (rf.held.2, d)

/-- The safe Raft is where the cluster is, except that it may have to catch up on what is agreed
and on the snapshots that were installed. -/
structure Behind (svc : Raft1.Service C D) (g : Raft1.Ghost n C D) (s : Raft1.Cluster n C D)
    (c : SafeRaft n (Option C) D) : Prop where
  coupled : Raft1.Coupled svc s g
  started : ∀ x, x ∈ c.started ↔
    0 < x.index ∧ g.core.Put x.server (x.index - 1) x.term x.command
  agreed : ∃ p, g.core.Agreed p ∧ c.agreed = p.map fun e => (e.term, e.cmd)
  position : ∀ r, c.position r = (s.proc r).position
  taken : ∀ i d, g.produced i d → (i, d) ∈ c.taken

structure Abstracts (svc : Raft1.Service C D) (g : Raft1.Ghost n C D) (s : Raft1.Cluster n C D)
    (c : SafeRaft n (Option C) D) : Prop extends Behind svc g s c where
  longest : ∀ q, g.core.Agreed q → (q.map fun e => (e.term, e.cmd)) <+: c.agreed
  saved : ∀ r, c.saved r = savedBy (s.proc r).rf

/-- From `c` the safe Raft can follow the cluster to `t`, whose protocol state has what `g` has, and
what is seen of that is `ls`. -/
def Matches (svc : Raft1.Service C D) (g : Raft1.Ghost n C D) (c : SafeRaft n (Option C) D)
    (t : Raft1.Cluster n C D) (ls : List (SafeRaft.Label n (Option C) D)) : Prop :=
  ∃ g' tr c', g ≤ g' ∧ (SafeRaft.lts n (Option C) D).Run c tr c' ∧ SafeRaft.seen tr = ls ∧
    Abstracts svc g' t c'

theorem Matches.from_earlier {g g' : Raft1.Ghost n C D} {c : SafeRaft n (Option C) D}
    {t : Raft1.Cluster n C D} {ls : List (SafeRaft.Label n (Option C) D)} (hle : g ≤ g')
    (h : Matches svc g' c t ls) : Matches svc g c t ls := by
  obtain ⟨g'', tr, c', hle', hrest⟩ := h
  exact ⟨g'', tr, c', hle.trans hle', hrest⟩

theorem Matches.cons {g : Raft1.Ghost n C D} {c c₁ : SafeRaft n (Option C) D}
    {t : Raft1.Cluster n C D} {l : SafeRaft.Label n (Option C) D}
    {ls : List (SafeRaft.Label n (Option C) D)} (hl : SafeRaft.Step c l c₁)
    (hv : l.isVisible = true) (h : Matches svc g c₁ t ls) : Matches svc g c t (l :: ls) := by
  obtain ⟨g', tr, c', hle, hrun, hseen, h'⟩ := h
  refine ⟨g', _, c', hle, (SafeRaft.run_single hl).append hrun, ?_, h'⟩
  rw [SafeRaft.seen_append, SafeRaft.seen_single, if_pos hv, hseen]
  rfl

/-- At most one peer holds another snapshot than the safe Raft says, and it is a newer one. -/
def SavedUpTo (s : Raft1.Cluster n C D) (c : SafeRaft n (Option C) D) : Prop :=
  (∀ r, c.saved r = savedBy (s.proc r).rf) ∨
    ∃ r, (∀ j, j ≠ r → c.saved j = savedBy (s.proc j).rf) ∧
      c.savedIndex r < (s.proc r).rf.lastIncludedIndex

section Relation
variable {g g' : Raft1.Ghost n C D} {s t : Raft1.Cluster n C D} {c : SafeRaft n (Option C) D}

theorem savedIndex_eq {r : Fin n} {p : Raft1.Process n C D} (hn : Raft1.NodeInv svc g r p)
    (h : c.saved r = savedBy p.rf) : c.savedIndex r = p.rf.lastIncludedIndex := by
  have hsnap := hn.dur.saves.snap
  unfold SafeRaft.savedIndex
  rw [h]
  unfold savedBy Raft1.Raft.held
  cases hd : p.rf.persister.readSnapshot with
  | none =>
    rw [hd] at hsnap
    exact hsnap.symm
  | some d => rfl

/-- A snapshot that a peer installed was handed over, so the safe Raft can install it too. -/
theorem Behind.install (h : Behind svc g s c) (hs : SavedUpTo s c) :
    ∃ tr c', (SafeRaft.lts n (Option C) D).Run c tr c' ∧ SafeRaft.seen tr = [] ∧
      Behind svc g s c' ∧ ∀ r, c'.saved r = savedBy (s.proc r).rf := by
  rcases hs with hs | ⟨r, hother, hlt⟩
  · exact ⟨[], c, .nil, rfl, h, hs⟩
  · have hsnap := (h.coupled.node r).dur.saves.snap
    cases hd : (s.proc r).rf.persister.readSnapshot with
    | none =>
      rw [hd] at hsnap
      have : (s.proc r).rf.lastIncludedIndex = 0 := hsnap
      omega
    | some d =>
      rw [hd] at hsnap
      obtain ⟨k, hk, hkd⟩ := List.getElem_of_mem (h.taken _ _ hsnap.1)
      have hins : c.install r k = some { c with
          saved := Function.update c.saved r (some ((s.proc r).rf.lastIncludedIndex, d)) } := by
        unfold SafeRaft.install
        rw [List.getElem?_eq_getElem hk, hkd]
        exact if_neg (by omega)
      refine ⟨_, _, SafeRaft.run_single (.install hins), SafeRaft.seen_single _ _,
        ⟨h.coupled, h.started, h.agreed, h.position, h.taken⟩, fun j => ?_⟩
      by_cases hj : j = r
      · subst hj
        simp [savedBy, Raft1.Raft.held, hd]
      · simpa [hj] using hother j hj

/-- The safe Raft agrees on what the cluster has agreed on. -/
theorem Behind.commit (h : Behind svc g s c) (hs : ∀ r, c.saved r = savedBy (s.proc r).rf) :
    Matches svc g c s [] := by
  obtain ⟨p, hp, hpc⟩ := h.agreed
  obtain ⟨q, hq, hlong⟩ := Repl.exists_longest_agreed h.coupled.inv
  obtain ⟨rest, hrest⟩ := hlong p hp
  have hmap : c.agreed ++ (rest.map fun e => (e.term, e.cmd)) = q.map fun e => (e.term, e.cmd) := by
    rw [hpc, ← List.map_append, hrest]
  have hstarted : ∀ i e, (rest.map fun e => (e.term, e.cmd))[i]? = some e →
      ∃ x ∈ c.started, x.index = c.agreed.length + i + 1 ∧ x.term = e.1 ∧ x.command = e.2 := by
    intro i e he
    rw [List.getElem?_map, Option.map_eq_some_iff] at he
    obtain ⟨x, hx, rfl⟩ := he
    have hqx : q[p.length + i]? = some x := by
      rw [← hrest, List.getElem?_append_right (by omega)]
      simpa using hx
    obtain ⟨k, hk⟩ := hq.put h.coupled.inv hqx
    refine ⟨⟨k, p.length + i + 1, x.term, x.cmd⟩, (h.started _).mpr ⟨by simp, hk⟩, ?_, rfl, rfl⟩
    simp [hpc]
  obtain ⟨tr, hrun, hseen⟩ := SafeRaft.run_commits hstarted
  rw [hmap] at hrun
  exact ⟨g, tr, _, le_rfl, hrun, hseen, ⟨⟨h.coupled, h.started, ⟨q, hq, rfl⟩, h.position, h.taken⟩,
    fun q' hq' => (hlong q' hq').map _, hs⟩⟩

theorem Behind.catchUp (h : Behind svc g s c) (hs : SavedUpTo s c) : Matches svc g c s [] := by
  obtain ⟨tr₁, c₁, hrun₁, hseen₁, h₁, hs₁⟩ := h.install hs
  obtain ⟨g', tr₂, c₂, hle, hrun₂, hseen₂, h₂⟩ := h₁.commit hs₁
  exact ⟨g', tr₁ ++ tr₂, c₂, hle, hrun₁.append hrun₂, by rw [SafeRaft.seen_append, hseen₁, hseen₂]; rfl, h₂⟩

/-- Protocol steps that put no entry and messages that bring no service further leave the safe Raft
where it is. -/
theorem Abstracts.behind (h : Abstracts svc g s c) (hle : g ≤ g') (hprod : g'.produced = g.produced)
    (hc : Raft1.Coupled svc t g') (hput : ∀ k i T a, g'.core.Put k i T a ↔ g.core.Put k i T a)
    (hpos : ∀ r, (t.proc r).position = (s.proc r).position) : Behind svc g' t c where
  coupled := hc
  started := fun x => by rw [hput]; exact h.started x
  agreed := by
    obtain ⟨p, hp, hpc⟩ := h.agreed
    exact ⟨p, hp.ext hle.1, hpc⟩
  position := fun r => (h.position r).trans (hpos r).symm
  taken := fun i d hd => h.taken i d (hprod ▸ hd)

theorem Abstracts.savedIndex (h : Abstracts svc g s c) (r : Fin n) :
    c.savedIndex r = (s.proc r).rf.lastIncludedIndex :=
  savedIndex_eq (h.coupled.node r) (h.saved r)

end Relation

/-! ## Events -/

section Events
variable {g g' : Raft1.Ghost n C D} {s t : Raft1.Cluster n C D} {c : SafeRaft n (Option C) D}
  {e : Raft1.Event n C D}

theorem Abstracts.savedUpTo (h : Abstracts svc g s c) (ht : s.exec e = some t)
    (he : e.isSnapshot = false) : SavedUpTo t c := by
  rcases Raft1.exec_proc ht with ⟨-, heq⟩ | ⟨r, p, -, heq, htouch⟩
  · exact Or.inl fun r => by rw [heq]; exact h.saved r
  · have hne : ∀ j, j ≠ r → t.proc j = s.proc j := fun j hj => by
      rw [heq, Function.update_of_ne hj]
    have hr : t.proc r = p := by rw [heq, Function.update_self]
    rcases htouch.held.resolve_left (by simp [he]) with hkeep | hnew
    · refine Or.inl fun j => ?_
      by_cases hj : j = r
      · subst hj
        rw [hr, h.saved, savedBy, savedBy, hkeep]
      · rw [hne j hj]; exact h.saved j
    · refine Or.inr ⟨r, fun j hj => by rw [hne j hj]; exact h.saved j, ?_⟩
      rw [h.savedIndex, hr]
      exact (h.coupled.node r).log.first_le.trans_lt hnew

/-- What happens inside Raft is not seen. -/
theorem Abstracts.silent (h : Abstracts svc g s c) (ht : s.exec e = some t)
    (ha : e.Allowed svc s) (hs : e.isSnapshot = false) (hd : e.isDeliver = false)
    (hno : ∀ k i T a, ¬ s.Starts k i T a e) : Matches svc g c t [] := by
  obtain ⟨g', hle, hprod, hc, hput⟩ := Raft1.coupled_step h.coupled (a := .event e) ht ha
    (by
      intro i d hi
      cases e with
      | snapshot => simp [Raft1.Event.isSnapshot] at hs
      | _ => exact hi.elim)
  have hb : Behind svc g' t c := h.behind hle hprod hc
    (fun k i T a => (hput k i T a).trans (or_iff_left (hno k i T a))) (Raft1.position_same ht hd)
  exact (hb.catchUp (h.savedUpTo ht hs)).from_earlier hle

/-- `Start` on a leader gets an index and a term that no other `Start` got, beyond what was sent on
its `applyCh`. -/
theorem Abstracts.start_enabled (h : Abstracts svc g s c) {r : Fin n} {command : Option C}
    {index T : Nat} (hs : ((s.proc r).rf.start command).2 = some (index, T)) :
    0 < index ∧ c.start r index T command =
      some { c with started := ⟨r, index, T, command⟩ :: c.started } := by
  have hn := h.coupled.node r
  unfold Raft1.Raft.start at hs
  split at hs
  · simp at hs
  · rename_i hlead
    obtain ⟨-, -, hllog⟩ := hn.leads h.coupled.inv (not_not.mp hlead)
    simp only [hn.log.latest.1, Option.some.injEq, Prod.mk.injEq] at hs
    obtain ⟨rfl, rfl⟩ := hs
    refine ⟨Nat.succ_pos _, if_pos ⟨?_, fun x hx hxe => ?_⟩⟩
    · rw [h.position, Nat.lt_succ_iff]
      exact hn.app.next_le.trans (hn.log.applied_le.trans hn.log.commit_le)
    · -- the leader's log ends before the new index
      have hput := ((h.started x).mp hx).2.2
      rw [hxe.1, hxe.2, Raft1.Raft.updateLogIndices, Raft1.persistState_eq, ← hllog] at hput
      simp at hput

/-- A `Start` that is refused is not seen. -/
theorem Abstracts.start_refused (h : Abstracts svc g s c) {r : Fin n} {command : Option C}
    (ht : s.exec (.start r command) = some t)
    (hs : ((s.proc r).rf.start command).2 = none) : Matches svc g c t [] :=
  h.silent ht trivial rfl rfl fun k i T a hst => by rw [hst.2.1] at hs; simp at hs

theorem Abstracts.start (h : Abstracts svc g s c) {r : Fin n} {command : Option C}
    (ht : s.exec (.start r command) = some t) {index T : Nat}
    (hs : ((s.proc r).rf.start command).2 = some (index, T)) :
    ∃ c₁, c.start r index T command = some c₁ ∧ Matches svc g c₁ t [] := by
  obtain ⟨hpos, hstart⟩ := h.start_enabled hs
  obtain ⟨g', hle, hprod, hc, hput⟩ := Raft1.coupled_step h.coupled
    (a := .event (.start r command)) ht trivial (fun _ _ hi => hi.elim)
  have hb : Behind svc g' t { c with started := ⟨r, index, T, command⟩ :: c.started } := by
    refine ⟨hc, fun x => ?_, ?_, fun j => ?_, fun i d hd => h.taken i d (hprod ▸ hd)⟩
    · rw [List.mem_cons, h.started, hput, and_or_left, or_comm]
      refine or_congr_right ⟨?_, ?_⟩
      · rintro rfl
        exact ⟨hpos, rfl, by rw [hs, Nat.sub_add_cancel hpos], rfl⟩
      · rintro ⟨hx, rfl, hx', rfl⟩
        rw [hs, Nat.sub_add_cancel hx] at hx'
        simp only [Option.some.injEq, Prod.mk.injEq] at hx'
        obtain ⟨rfl, rfl⟩ := hx'
        rfl
    · obtain ⟨p, hp, hpc⟩ := h.agreed
      exact ⟨p, hp.ext hle.1, hpc⟩
    · exact (h.position j).trans (Raft1.position_same ht rfl j).symm
  exact ⟨_, hstart, (hb.catchUp (h.savedUpTo ht rfl)).from_earlier hle⟩

/-- The message under way is the one that the safe Raft would send next. -/
theorem Abstracts.msg_enabled (h : Abstracts svc g s c) {r : Fin n} {m : Raft1.ApplyMsg C D}
    (hm : (s.proc r).sending = some m) :
    SafeRaft.Step c (msgLabel r m) (c.advance r m.at) := by
  have hnext := (h.coupled.node r).app.next
  rw [hm] at hnext
  obtain ⟨hfol, hok, -⟩ := hnext
  have hpos : c.position r = Raft1.lastIndex (s.proc r).bootIndex (s.proc r).applyCh := h.position r
  rw [← hpos] at hfol
  unfold Raft1.ApplyMsg.Follows at hfol
  unfold Raft1.MsgOk at hok
  unfold msgLabel Raft1.ApplyMsg.at
  split
  · rename_i hcmd
    rw [if_pos hcmd] at hfol hok
    obtain ⟨p, e, hag, hlen, hcmd'⟩ := hok
    have hget : c.agreed[p.length]? = some (e.term, e.cmd) :=
      getElem?_of_isPrefix (h.longest _ hag) (by simp)
    refine .deliver ?_
    unfold SafeRaft.next
    rw [show c.position r = p.length by omega, hget, Option.map_some, hcmd', hlen]
  · rename_i hcmd
    rw [if_neg hcmd] at hfol hok
    cases hd : m.snapshot with
    | none =>
      rw [hd] at hok
      have : m.snapshotIndex = 0 := hok
      omega
    | some d =>
      rw [hd] at hok
      obtain ⟨k, hk, hkd⟩ := List.getElem_of_mem (h.taken _ _ hok.1)
      refine .deliverSnapshot (k := k) ?_
      unfold SafeRaft.nextSnapshot
      rw [List.getElem?_eq_getElem hk, hkd]
      exact if_pos hfol

theorem Abstracts.deliver (h : Abstracts svc g s c) {r : Fin n}
    (ht : s.exec (.deliver r) = some t) {m : Raft1.ApplyMsg C D}
    (hm : (s.proc r).sending = some m) :
    SafeRaft.Step c (msgLabel r m) (c.advance r m.at) ∧
      Matches svc g (c.advance r m.at) t [] := by
  have hc := Raft1.coupled_deliver h.coupled r ht
  simp only [Raft1.Cluster.exec, hm, Option.some.injEq] at ht
  subst ht
  refine ⟨h.msg_enabled hm, g, [], _, le_rfl, .nil, rfl, ⟨hc, h.started, h.agreed, fun j => ?_, h.taken⟩,
    h.longest, fun j => ?_⟩
  · by_cases hj : j = r
    · subst hj
      simp [SafeRaft.advance, Raft1.Cluster.set, Raft1.Process.position]
    · simpa [SafeRaft.advance, Raft1.Cluster.set, hj] using h.position j
  · by_cases hj : j = r
    · subst hj
      simpa [SafeRaft.advance, Raft1.Cluster.set] using h.saved j
    · simpa [SafeRaft.advance, Raft1.Cluster.set, hj] using h.saved j

theorem Abstracts.snapshot (h : Abstracts svc g s c) {r : Fin n} {index : Nat} {data : D}
    (ht : s.exec (.snapshot r index data) = some t) (ha : Raft1.Produced svc (s.proc r) index data) :
    Matches svc g (c.snapshot r index data) t [] := by
  have hn := h.coupled.node r
  rcases Raft1.held_snapshot hn (hn.produced_le h.coupled.inv ha) data with ⟨hle, heq⟩ | ⟨hlt, heq⟩
  · -- an index not beyond the one held: nothing happens
    have hsame : s = t := by
      simpa [Raft1.Cluster.exec, heq, Raft1.Cluster.set] using ht
    have hskip : c.snapshot r index data = c := if_pos (by rw [h.savedIndex]; exact hle)
    rw [hskip]
    exact ⟨g, [], c, le_rfl, .nil, rfl, hsame ▸ h⟩
  · have hnew : c.snapshot r index data = { c with
        taken := (index, data) :: c.taken
        saved := Function.update c.saved r (some (index, data)) } :=
      if_neg (by rw [h.savedIndex]; omega)
    rw [hnew]
    have hc₁ : Raft1.Coupled svc s { g with
        produced := fun i d => g.produced i d ∨ (i = index ∧ d = data) } :=
      h.coupled.produce fun _ _ => Or.inl
    obtain ⟨g', hle, hprod, hc, hput⟩ := Raft1.coupled_step hc₁
      (a := .event (.snapshot r index data)) ht ha (fun i d hi => Or.inr ⟨hi.1.symm, hi.2.symm⟩)
    have hb : Behind svc g' t { c with
        taken := (index, data) :: c.taken
        saved := Function.update c.saved r (some (index, data)) } := by
      refine ⟨hc, fun x => ?_, ?_, fun j => ?_, fun i d hd => ?_⟩
      · rw [hput, or_iff_left (show ¬ s.Puts _ _ _ _ (.event (.snapshot r index data)) from id)]
        exact h.started x
      · obtain ⟨p, hp, hpc⟩ := h.agreed
        exact ⟨p, hp.ext hle.1, hpc⟩
      · exact (h.position j).trans (Raft1.position_same ht rfl j).symm
      · rw [hprod] at hd
        rcases hd with hd | ⟨rfl, rfl⟩
        · exact List.mem_cons_of_mem _ (h.taken i d hd)
        · exact List.mem_cons_self
    have hs : SavedUpTo t { c with
        taken := (index, data) :: c.taken
        saved := Function.update c.saved r (some (index, data)) } := by
      obtain rfl := Option.some.inj ht
      refine Or.inl fun j => ?_
      by_cases hj : j = r
      · subst hj
        simp [Raft1.Cluster.set, savedBy, heq]
      · simpa [Raft1.Cluster.set, hj] using h.saved j
    exact (hb.catchUp hs).from_earlier ⟨hle.1, fun i d hd => hle.2 i d (Or.inl hd)⟩

/-- What is seen of an event is what the safe Raft does for it. -/
theorem Abstracts.event (h : Abstracts svc g s c) (ht : s.exec e = some t) (ha : e.Allowed svc s) :
    Matches svc g c t (eventLabels s e) := by
  cases e with
  | start r command =>
    cases hs : ((s.proc r).rf.start command).2 with
    | none =>
      simp only [eventLabels, callLabels, hs]
      exact h.start_refused ht hs
    | some x =>
      obtain ⟨c₁, hc₁, hm⟩ := h.start ht hs
      simp only [eventLabels, callLabels, hs]
      exact hm.cons (.start hc₁) rfl
  | deliver r =>
    cases hm : (s.proc r).sending with
    | none => simp [Raft1.Cluster.exec, hm] at ht
    | some m =>
      obtain ⟨hstep, hmatch⟩ := h.deliver ht hm
      simp only [eventLabels, hm]
      refine hmatch.cons hstep ?_
      unfold msgLabel
      split <;> rfl
  | snapshot r index data => exact (h.snapshot ht ha).cons (.snapshot r index data) rfl
  | electionTimeout r => exact h.silent ht trivial rfl rfl fun _ _ _ _ hs => hs
  | send r peer => exact h.silent ht trivial rfl rfl fun _ _ _ _ hs => hs
  | handle k => exact h.silent ht trivial rfl rfl fun _ _ _ _ hs => hs
  | lose k => exact h.silent ht trivial rfl rfl fun _ _ _ _ hs => hs
  | applier r => exact h.silent ht trivial rfl rfl fun _ _ _ _ hs => hs

end Events

/-! ## Crashes -/

section Crashes
variable {g g' : Raft1.Ghost n C D} {s t u : Raft1.Cluster n C D} {c : SafeRaft n (Option C) D}
  {e : Raft1.Event n C D} {r : Fin n}

theorem restart_self (s : Raft1.Cluster n C D) (r : Fin n) (ps : Raft1.Persister n C D)
    (net : List (Raft1.Rpc n C D)) : (s.restart r ps net).proc r =
      Raft1.Process.boot r ((s.proc r).incarnation + 1) ps := Function.update_self ..

/-- A replica restarts on a persister that holds the snapshot it held before. -/
theorem Abstracts.restart (h : Abstracts svc g s c) {ps : Raft1.Persister n C D}
    {net : List (Raft1.Rpc n C D)} (hle : g ≤ g') (hprod : g'.produced = g.produced)
    (hc : Raft1.Coupled svc (s.restart r ps net) g')
    (hput : ∀ k i T a, g'.core.Put k i T a ↔ g.core.Put k i T a)
    (hheld : ps.held = (s.proc r).rf.held) :
    Matches svc g (c.restart r) (s.restart r ps net) [] := by
  have hr := restart_self s r ps net
  have hne : ∀ j, j ≠ r → (s.restart r ps net).proc j = s.proc j := fun j hj =>
    Function.update_of_ne hj ..
  have hboot := hc.node r
  rw [hr] at hboot
  obtain ⟨hrf, hpos⟩ := hboot.booted
  have hb : Behind svc g' (s.restart r ps net) (c.restart r) := by
    refine ⟨hc, fun x => ?_, ?_, fun j => ?_, fun i d hd => h.taken i d (hprod ▸ hd)⟩
    · rw [hput]; exact h.started x
    · obtain ⟨p, hp, hpc⟩ := h.agreed
      exact ⟨p, hp.ext hle.1, hpc⟩
    · by_cases hj : j = r
      · subst hj
        rw [hr, hpos, hheld]
        simp [SafeRaft.restart, SafeRaft.advance, h.savedIndex, Raft1.Raft.held]
      · rw [hne j hj]
        simpa [SafeRaft.restart, SafeRaft.advance, hj] using h.position j
  have hs : SavedUpTo (s.restart r ps net) (c.restart r) := by
    refine Or.inl fun j => (h.saved j).trans ?_
    by_cases hj : j = r
    · subst hj
      rw [hr, savedBy, savedBy, hrf, hheld]
    · rw [hne j hj]
  exact (hb.catchUp hs).from_earlier hle

/-- A crash at rest, with which messages may be lost. -/
theorem Abstracts.crash (h : Abstracts svc g s c) {net : List (Raft1.Rpc n C D)}
    (hsub : net.Sublist s.net) :
    Matches svc g (c.restart r) (s.restart r (s.proc r).rf.persister net) [] :=
  h.restart le_rfl rfl (h.coupled.restart (Raft1.Moves.refl r g).toEvolves
    (h.coupled.node r).restartable hsub) (fun _ _ _ _ => Iff.rfl) (h.coupled.node r).held

theorem taken_sublist_exec (hu : s.exec e = some u) : (s.taken e).Sublist u.net := by
  cases e with
  | electionTimeout r =>
    obtain rfl := Option.some.inj hu
    exact List.sublist_append_right _ _
  | start r command =>
    obtain rfl := Option.some.inj hu
    exact List.Sublist.refl _
  | snapshot r index data =>
    obtain rfl := Option.some.inj hu
    exact List.Sublist.refl _
  | send r peer =>
    simp only [Raft1.Cluster.exec] at hu
    split at hu
    · simp at hu
    · split at hu
      · simp at hu
      · obtain rfl := Option.some.inj hu
        exact List.sublist_cons_self _ _
      · obtain rfl := Option.some.inj hu
        exact List.sublist_cons_self _ _
  | handle k =>
    simp only [Raft1.Cluster.exec, Option.map_eq_some_iff] at hu
    obtain ⟨m, -, rfl⟩ := hu
    have hrep : ∀ f : Raft1.Process n C D → Raft1.Process n C D,
        (s.net.eraseIdx k).Sublist (s.handleReply m (s.net.eraseIdx k) f).net := by
      intro f
      unfold Raft1.Cluster.handleReply
      split <;> exact List.Sublist.refl _
    simp only [Raft1.Cluster.handle]
    cases m.payload with
    | voteReq args => exact List.sublist_cons_self _ _
    | appendReq args => exact List.sublist_cons_self _ _
    | snapReq args => exact List.sublist_cons_self _ _
    | voteRep args reply => exact hrep _
    | appendRep args reply => exact hrep _
    | snapRep args reply => exact hrep _
  | lose k =>
    simp only [Raft1.Cluster.exec] at hu
    split at hu
    · obtain rfl := Option.some.inj hu
      exact List.Sublist.refl _
    · simp at hu
  | applier r =>
    simp only [Raft1.Cluster.exec] at hu
    split at hu
    · simp at hu
    · obtain rfl := Option.some.inj hu
      exact List.Sublist.refl _
  | deliver r =>
    simp only [Raft1.Cluster.exec] at hu
    split at hu
    · simp at hu
    · obtain rfl := Option.some.inj hu
      exact List.Sublist.refl _

/-- A crash after all saves of an event is the event and then a crash. -/
theorem restart_after {p : Raft1.Process n C D}
    (hp : u.proc = Function.update s.proc r p) (htouch : Raft1.Touched e (s.proc r) p) :
    s.restart r p.rf.persister (s.taken e) = u.restart r (u.proc r).rf.persister (s.taken e) := by
  simp only [Raft1.Cluster.restart, Raft1.Cluster.set, hp, Function.update_self,
    Function.update_idem, htouch.life]

theorem snapshot_saves (rf : Raft1.Raft n C D) (index : Nat) (data : D) :
    (rf.snapshot index data).persister.saves = rf.persister.saves ∨
      ∃ sv, (rf.snapshot index data).persister.saves = sv :: rf.persister.saves := by
  unfold Raft1.Raft.snapshot
  simp only
  split
  · exact Or.inl rfl
  · exact Or.inr ⟨_, rfl⟩

/-- A crash before the last save of an event other than `Snapshot`. -/
theorem Abstracts.crash_within (h : Abstracts svc g s c) {ps : Raft1.Persister n C D} {k : Nat}
    {net : List (Raft1.Rpc n C D)} (ht : s.step (.crashIn r e k) = some (s.restart r ps net))
    (ha : e.Allowed svc s) (he : e.isSnapshot = false) (h0 : k ≠ 0)
    (hheld : ps.held = (s.proc r).rf.held) :
    Matches svc g (c.restart r) (s.restart r ps net) [] := by
  have hnone : ∀ i d, ¬ (Raft1.Action.crashIn r e k).snapshots i d := by
    intro i d hi
    cases e with
    | snapshot => simp [Raft1.Event.isSnapshot] at he
    | _ => exact hi
  obtain ⟨g', hle, hprod, hc, hput⟩ := Raft1.coupled_step h.coupled ht ha
    fun i d hi => absurd hi (hnone i d)
  exact h.restart hle hprod hc
    (fun k' i T a => (hput k' i T a).trans (or_iff_left fun hs => h0 hs.1)) hheld

/-- Nothing of the event is left by a crash inside it: the replica restarts on the snapshot that it
held before. -/
def LostIn (svc : Raft1.Service C D) (g : Raft1.Ghost n C D) (s t : Raft1.Cluster n C D)
    (c : SafeRaft n (Option C) D) (r : Fin n) : Prop :=
  Matches svc g (c.restart r) t [] ∧ (t.proc r).bootSnapshot = (s.proc r).rf.persister.readSnapshot

/-- All of the event is left by a crash inside it: it is the event and then a crash, with which
messages are lost. -/
def KeptIn (s t : Raft1.Cluster n C D) (e : Raft1.Event n C D) (r : Fin n) : Prop :=
  ∃ u, s.exec e = some u ∧ s.actor e = some r ∧ e.isDeliver = false ∧
    t = u.restart r (u.proc r).rf.persister (s.taken e)

/-- The persister as it was: a crash at rest. -/
theorem Abstracts.lostIn (h : Abstracts svc g s c) {saves : List (Raft1.RaftState n C × Option D)}
    (hsaves : saves = (s.proc r).rf.persister.saves) :
    LostIn svc g s (s.restart r ⟨saves⟩ (s.taken e)) c r := by
  subst hsaves
  refine ⟨h.crash (Raft1.taken_sublist s e), ?_⟩
  rw [restart_self]
  rfl

theorem Abstracts.crashIn (h : Abstracts svc g s c) {k : Nat}
    (ht : s.step (.crashIn r e k) = some t) (ha : e.Allowed svc s) :
    (LostIn svc g s t c r ∧ labels s (.crashIn r e k) = [.restart r]) ∨
      (KeptIn s t e r ∧ labels s (.crashIn r e k) = callLabels s e ++ [.restart r]) := by
  have hstep := ht
  simp only [Raft1.Cluster.step] at ht
  split at ht
  · simp at ht
  · rename_i u hu
    split at ht
    · rename_i hk
      obtain rfl := Option.some.inj ht
      rcases Raft1.exec_proc hu with ⟨hnone, heq⟩ | ⟨x, p, hx, heq, htouch⟩
      · rw [heq] at hk ⊢
        obtain rfl : k = 0 := by omega
        exact Or.inl ⟨h.lostIn rfl, by simp [labels, hnone]⟩
      · by_cases hr : x = r
        · subst hr
          have hp : u.proc x = p := by rw [heq, Function.update_self]
          by_cases h0 : k = 0
          · subst h0
            have hl : labels s (.crashIn x e 0) = callLabels s e ++ [.restart x] := by
              simp [labels, hx]
            cases he : e.isDeliver with
            | false =>
              have hafter := restart_after heq htouch
              rw [← hp] at hafter
              exact Or.inr ⟨⟨u, hu, hx, he, hafter⟩, hl⟩
            | true =>
              -- a message that was not taken before the crash is not taken
              cases e with
              | deliver r' =>
                obtain rfl : r' = x := Option.some.inj hx
                refine Or.inl ⟨h.lostIn ?_, hl⟩
                simp only [Raft1.Cluster.exec] at hu
                split at hu
                · simp at hu
                · obtain rfl := Option.some.inj hu
                  simp [Raft1.Cluster.set]
              | _ => simp [Raft1.Event.isDeliver] at he
          · refine Or.inl ⟨?_, by simp [labels, h0]⟩
            cases he : e.isSnapshot with
            | false =>
              have hheld := (hp ▸ htouch.saved).held_part (h.coupled.node x).held h0 hk
              refine ⟨h.crash_within hstep ha he h0 hheld, ?_⟩
              rw [restart_self]
              exact congrArg Prod.fst hheld
            | true =>
              cases e with
              | snapshot r' index data =>
                obtain rfl : r' = x := Option.some.inj hx
                refine h.lostIn ?_
                have hrf : (u.proc r').rf = (s.proc r').rf.snapshot index data := by
                  obtain rfl := Option.some.inj hu
                  simp [Raft1.Cluster.set]
                rcases snapshot_saves (s.proc r').rf index data with hsv | ⟨sv, hsv⟩
                · rw [hrf, hsv] at hk
                  omega
                · rw [hrf, hsv] at hk ⊢
                  obtain rfl : k = 1 := by simp at hk; omega
                  rfl
              | _ => simp [Raft1.Event.isSnapshot] at he
        · have hne : u.proc r = s.proc r := by rw [heq, Function.update_of_ne (Ne.symm hr)]
          rw [hne] at hk ⊢
          obtain rfl : k = 0 := by omega
          exact Or.inl ⟨h.lostIn rfl, by simp [labels, hx, hr]⟩
    · simp at ht

end Crashes

/-! ## Runs -/

theorem Matches.trans {g : Raft1.Ghost n C D} {s t : Raft1.Cluster n C D}
    {c : SafeRaft n (Option C) D} {ls ls' : List (SafeRaft.Label n (Option C) D)}
    (h : Matches svc g c s ls)
    (h' : ∀ g' c', Abstracts svc g' s c' → Matches svc g' c' t ls') :
    Matches svc g c t (ls ++ ls') := by
  obtain ⟨g', tr, c', hle, hrun, hseen, hs⟩ := h
  obtain ⟨g'', tr', c'', hle', hrun', hseen', ht⟩ := h' g' c' hs
  exact ⟨g'', tr ++ tr', c'', hle.trans hle', hrun.append hrun', by rw [SafeRaft.seen_append, hseen, hseen'], ht⟩

theorem Abstracts.step {g : Raft1.Ghost n C D} {s t : Raft1.Cluster n C D}
    {c : SafeRaft n (Option C) D} (h : Abstracts svc g s c) {a : Raft1.Action n C D}
    (ht : s.step a = some t) (ha : a.Allowed svc s) : Matches svc g c t (labels s a) := by
  cases a with
  | event e => exact h.event ht ha
  | crash r =>
    obtain rfl := Option.some.inj ht
    exact (h.crash (List.Sublist.refl _)).cons (.restart r) rfl
  | crashIn r e k =>
    rcases h.crashIn ht ha with ⟨hlost, hl⟩ | ⟨⟨u, hu, -, he, rfl⟩, hl⟩
    · rw [hl]
      exact hlost.1.cons (.restart r) rfl
    · have hev : eventLabels s e = callLabels s e := by
        cases e with
        | deliver => simp [Raft1.Event.isDeliver] at he
        | _ => rfl
      rw [hl, ← hev]
      exact (h.event hu ha).trans fun _ _ h' => (h'.crash (taken_sublist_exec hu)).cons (.restart r) rfl

theorem abstracts_initial : Abstracts svc (Raft1.Ghost.initial n C D fun _ _ => False)
    (Raft1.Cluster.initial n C D) (SafeRaft.initial n (Option C) D) := by
  have hnone : ∀ {T i : Nat} {x : Entry (Option C)},
      ((Repl.initial (Fin n) (Option C)).llog T)[i]? ≠ some x := by
    intro T i x
    simp [Repl.initial]
  refine ⟨⟨Raft1.coupled_initial _, fun x => ?_, ⟨[], Repl.AgreedBy.nil (t := 0).agreed, rfl⟩,
    fun r => ?_, fun i d hd => hd.elim⟩, ?_, fun r => ?_⟩
  · exact ⟨fun hx => by simp [SafeRaft.initial] at hx, fun hx => absurd hx.2.2 hnone⟩
  · simp [SafeRaft.initial, Raft1.Cluster.initial, Raft1.Process.position, Raft1.Process.boot,
      Raft1.Raft.make, Raft1.Raft.readPersist, Raft1.makePersister, Raft1.Persister.readRaftState,
      Raft1.Raft.getFirstLog]
    rfl
  · rintro q ⟨t, rfl | ⟨T, N, -, hc, hq⟩⟩
    · exact List.nil_prefix
    · have : q <+: [] := hq.trans (by simp [Raft1.Ghost.initial, Repl.initial])
      rw [List.prefix_nil.mp this]
      exact List.nil_prefix
  · rfl

/-- Every run of the cluster is, in what is seen of it, a run of the safe Raft. -/
theorem raft_is_safe {tr : List (Raft1.Cluster n C D × Raft1.Action n C D)}
    {s : Raft1.Cluster n C D} (h : Raft1.Run svc tr s) :
    ∃ ctr c, (SafeRaft.lts n (Option C) D).Run (SafeRaft.initial n (Option C) D) ctr c ∧
      SafeRaft.seen ctr = tr.flatMap fun x => labels x.1 x.2 := by
  have hmatch : Matches svc (Raft1.Ghost.initial n C D fun _ _ => False)
      (SafeRaft.initial n (Option C) D) s
      (tr.flatMap fun x => labels x.1 x.2) := by
    induction h with
    | nil => exact ⟨_, [], _, le_rfl, .nil, rfl, abstracts_initial⟩
    | snoc _ hstep ih =>
      rw [List.flatMap_append, List.flatMap_singleton]
      exact ih.trans fun _ _ habs => habs.step hstep.2 hstep.1
  obtain ⟨-, ctr, c, -, hrun, hseen, -⟩ := hmatch
  exact ⟨ctr, c, hrun, hseen⟩

end DistSys.Rsm
