import DistSys.Raft1.Commit

/- What stays, whatever happens next.

   A command that a service has received may have been compacted away, and the peer that
   delivered it may be gone. `delivered_stays_durable`: in every later state the persisters of
   a majority still account for it, by the entry in the saved log or by a snapshot beside a
   log that starts after it. A leader is the one peer whose log never loses an entry
   otherwise: `leader_append_only`. -/
namespace DistSys.Raft1

open Lib

variable {n : Nat} {C D : Type} {svc : Service C D} {u w : Cluster n C D} {g g' : Ghost n C D}
  {tr tr' : List (Cluster n C D × Action n C D)}

/-- Both ends of a run that goes on are coupled, the later one to a later protocol state. -/
theorem Run.coupled_later (h : Run svc tr u) (h' : (system n svc).Run u tr' w) :
    ∃ g g', g ≤ g' ∧ Coupled svc u g ∧ Coupled svc w g' := by
  have hrun : Run svc (tr ++ tr') w := Lts.Run.append h h'
  obtain ⟨g', -, hw, hall⟩ := hrun.coupled
  have hu : u ∈ visited (tr ++ tr') w := by
    rw [visited_append]
    exact List.mem_append_right _ (List.mem_of_getElem? h'.visited_head)
  obtain ⟨g, hle, hc⟩ := hall u hu
  exact ⟨g, g', hle, hc, hw⟩

/-! ## Delivered commands -/

/-- What the persister holds accounts for the command at index `i`: the saved log has it after the
placeholder, or a snapshot saved beside a later log restores a state that has taken it. -/
def Persister.Accounts (svc : Service C D) (ps : Persister n C D) (i : Nat) (command : Option C) :
    Prop :=
  ((ps.state.logs.headD default).index < i ∧
      ∃ e ∈ ps.state.logs, e.index = i ∧ e.command = command) ∨
    (i ≤ (ps.state.logs.headD default).index ∧ ∃ data cmds, ps.readSnapshot = some data ∧
      cmds.length = (ps.state.logs.headD default).index ∧ svc.restore data = svc.run cmds ∧
      cmds[i - 1]? = some command)

/-- A node accounts for every command of its whole log. -/
theorem NodeInv.accounts {q : Fin n} {p : Process n C D} (h : NodeInv svc g q p) (hi : g.core.Inv)
    {i : Nat} (hpos : 1 ≤ i) {x : Entry (Option C)} (hx : (g.core.log q)[i - 1]? = some x) :
    p.rf.persister.Accounts svc i x.cmd := by
  unfold Persister.Accounts
  rw [h.dur.logs]
  rcases h.retained_or_covered hi hpos hx with ⟨hlow, hmem⟩ | hcovered
  · exact Or.inl ⟨hlow, _, hmem, rfl, rfl⟩
  · exact Or.inr hcovered

/-- A command that any service has received is accounted for by the persisters of a majority, in
every state from then on. -/
theorem delivered_stays_durable (h : Run svc tr u) (h' : (system n svc).Run u tr' w) {a : Fin n}
    {m : ApplyMsg C D} (hm : m ∈ (u.proc a).applyCh) (hcommand : m.commandValid = true) :
    ∃ Q : Finset (Fin n), n < 2 * Q.card ∧
      ∀ q ∈ Q, (w.proc q).rf.persister.Accounts svc m.commandIndex m.command := by
  obtain ⟨g, g', hle, hu, hw⟩ := h.coupled_later h'
  have hok := ((hu.node a).app.content m hm).mono hle
  rw [MsgOk, if_pos hcommand] at hok
  obtain ⟨ℓ, e, hagreed, hindex, hcmd⟩ := hok
  obtain ⟨t, hempty | ⟨T, N, -, hcommitted, hextends⟩⟩ := hagreed
  · simp at hempty
  · obtain ⟨Q, hQ, hheld⟩ := hcommitted.held hw.inv
    rw [IsMajority, Fintype.card_fin] at hQ
    refine ⟨Q, hQ, fun q hq => ?_⟩
    rw [← hindex, ← hcmd]
    apply (hw.node q).accounts hw.inv (Nat.le_add_left 1 _)
    exact getElem?_of_isPrefix (hextends.trans (hheld q hq)) (by simp)

/-- After peer 0 has delivered the first command of the sample, a second one is stored and peer 1 is
elected: both persisters account for the first. -/
theorem delivered_stays_durable_succeeding :
    ∃ Q : Finset (Fin 2), 2 < 2 * Q.card ∧ ∀ q ∈ Q,
      ((sampleAt (electing ++ storing ++ committing ++ succeeding)).proc q).rf.persister.Accounts
        logService 1 (some 7) := by
  have hlater : (system 2 logService).Run (sampleAt (electing ++ storing ++ committing)) _
      ((sampleAt (electing ++ storing ++ committing)).after succeeding) :=
    Cluster.run_of_enabled (by decide)
  have hend : (sampleAt (electing ++ storing ++ committing)).after succeeding =
      sampleAt (electing ++ storing ++ committing ++ succeeding) := (after_append _ _ _).symm
  rw [hend] at hlater
  exact delivered_stays_durable (sample_run (electing ++ storing ++ committing) (by decide)) hlater
    (a := 0) (m := { commandValid := true, command := some 7, commandIndex := 1 }) (by decide) rfl

/-! ## Leaders -/

/-- From one moment of a leadership to a later one, the leader's log keeps every entry that it does
not compact, and does not get shorter. -/
theorem leader_append_only (h : Run svc tr u) (h' : (system n svc).Run u tr' w) {a : Fin n}
    (hu : (u.proc a).rf.state = .leader) (hw : (w.proc a).rf.state = .leader)
    (hterm : (w.proc a).rf.currentTerm = (u.proc a).rf.currentTerm) :
    (u.proc a).rf.getLatestLog.index ≤ (w.proc a).rf.getLatestLog.index ∧
      ∀ e ∈ (u.proc a).rf.logs, (u.proc a).rf.getFirstLog.index < e.index →
        (w.proc a).rf.getFirstLog.index < e.index → e ∈ (w.proc a).rf.logs := by
  obtain ⟨g, g', hle, hcu, hcw⟩ := h.coupled_later h'
  have hnu := hcu.node a
  have hnw := hcw.node a
  -- Both logs are logs of the leader of the term, which only grows.
  have hgrows : g.core.log a <+: g'.core.log a := by
    rw [(hnu.leads hcu.inv hu).2.2, (hnw.leads hcw.inv hw).2.2, hterm]
    exact hle.1.llog _
  refine ⟨?_, fun e he hfirst hkept => ?_⟩
  · rw [hnu.log.latest.1, hnw.log.latest.1]
    exact hgrows.length_le
  · obtain ⟨-, -, -, hentry⟩ := hnu.mem_logs he
    obtain ⟨x, hx, hcmd, hxterm⟩ := hentry hfirst
    rw [hnw.log.first] at hkept
    have hmem : (⟨x.cmd, x.term, e.index⟩ : LogEntry C) ∈ (w.proc a).rf.logs := by
      rw [hnw.log.logs]
      exact mem_compact_of_lt hkept (getElem?_of_isPrefix hgrows hx)
    rwa [← hcmd, ← hxterm] at hmem

/-- Peer 0 keeps the entry it stored, while it confirms and delivers it. -/
theorem leader_append_only_committing :
    (⟨some 7, 1, 1⟩ : LogEntry Nat) ∈
      ((sampleAt (electing ++ storing ++ committing)).proc 0).rf.logs := by
  have hlater : (system 2 logService).Run (sampleAt (electing ++ storing)) _
      ((sampleAt (electing ++ storing)).after committing) :=
    Cluster.run_of_enabled (by decide)
  have hend : (sampleAt (electing ++ storing)).after committing =
      sampleAt (electing ++ storing ++ committing) := (after_append _ _ _).symm
  rw [hend] at hlater
  exact (leader_append_only (sample_run (electing ++ storing) (by decide)) hlater (a := 0)
    (by decide) (by decide) (by decide)).2 _ (by decide) (by decide) (by decide)

end DistSys.Raft1
