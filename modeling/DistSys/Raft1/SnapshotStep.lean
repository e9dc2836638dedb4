import DistSys.Raft1.AppendStep

/- Snapshots: the steps of `InstallSnapShot` and of the service's `Snapshot`.

   A snapshot request stands for the first `LastIncludedIndex` entries of the log
   of the leader of its term. A follower behind it either has those entries (a
   confirmation, and the log is compacted there) or takes them over (an
   adoption). One that has applied them already confirms them too: what is
   applied is agreed, so it is the same prefix. On that path the raised term
   stays in memory only. -/
namespace DistSys.Raft1

open Lib

variable {n : Nat} {C D : Type} {svc : Service C D} {s : Cluster n C D} {g : Ghost n C D}

/-! ## InstallSnapShot -/

/-- The branches of `InstallSnapShot` on the log, as one case split: the log has the snapshot's
prefix `P`, or `P` replaces it. -/
theorem Shows.installedLogs {c : Repl (Fin n) (Option C)} {rf : Raft n C D}
    {ℓ P : List (Entry (Option C))} (h : Shows ℓ rf) (hℓ : c.Sourced ℓ) (hP : c.Sourced P)
    (hge : rf.lastIncludedIndex ≤ P.length) :
    (P <+: ℓ ∧ rf.installedLogs P.length (termAt P P.length) = compact ℓ P.length) ∨
      (¬ P <+: ℓ ∧ rf.installedLogs P.length (termAt P P.length) = compact P P.length) := by
  have hsingle : compact P P.length = [⟨none, termAt P P.length, P.length⟩] := by
    simp [compact, tag]
  unfold Raft.installedLogs Raft.generateSingleLog
  simp only [h.first, h.latest.1, h.length]
  split
  · rename_i hlong
    rw [← hsingle]
    by_cases hpre : P <+: ℓ
    · -- the snapshot ends exactly where the log does
      rw [← hpre.eq_of_length_le hlong]
      exact Or.inl ⟨List.prefix_rfl, rfl⟩
    · exact Or.inr ⟨hpre, rfl⟩
  · rename_i hshort
    have hlt : P.length < ℓ.length := by omega
    rw [(h.getD hge hlt.le).1]
    split
    · rename_i hconf
      refine Or.inr ⟨fun hpre => hconf.2 (termAt_prefix_eq hpre le_rfl), hsingle.symm⟩
    · rename_i hconf
      have hterm : termAt ℓ P.length = termAt P P.length := by
        by_contra hne
        exact hconf ⟨by omega, hne⟩
      have htake := hℓ.matching hP hlt.le le_rfl hterm
      rw [List.take_length] at htake
      rw [if_pos (by omega)]
      refine Or.inl ⟨htake ▸ List.take_prefix _ _, ?_⟩
      rw [show P.length - rf.lastIncludedIndex + 1 = P.length + 1 - rf.lastIncludedIndex by omega,
        h.logs, compact_drop_succ hge, ← hterm]
      rfl

theorem followSnapShot_of_lt {rf : Raft n C D} {T : Nat} (h : rf.currentTerm < T) :
    rf.followSnapShot T = { rf with currentTerm := T, voteFor := none, state := .follower } := by
  unfold Raft.followSnapShot
  rw [if_pos h, changeState_follower]

theorem followSnapShot_of_le {rf : Raft n C D} {T : Nat} (h : T ≤ rf.currentTerm) :
    rf.followSnapShot T = { rf with state := .follower } := by
  unfold Raft.followSnapShot
  rw [if_neg (by omega), changeState_follower]

@[simp] theorem followSnapShot_lastApplied (rf : Raft n C D) (T : Nat) :
    (rf.followSnapShot T).lastApplied = rf.lastApplied := by
  rcases Nat.lt_or_ge rf.currentTerm T with h | h
  · rw [followSnapShot_of_lt h]
  · rw [followSnapShot_of_le h]

@[simp] theorem followSnapShot_state (rf : Raft n C D) (T : Nat) :
    (rf.followSnapShot T).state = .follower := by
  rcases Nat.lt_or_ge rf.currentTerm T with h | h
  · rw [followSnapShot_of_lt h]
  · rw [followSnapShot_of_le h]

@[simp] theorem followSnapShot_persister (rf : Raft n C D) (T : Nat) :
    (rf.followSnapShot T).persister = rf.persister := by
  rcases Nat.lt_or_ge rf.currentTerm T with h | h
  · rw [followSnapShot_of_lt h]
  · rw [followSnapShot_of_le h]

theorem followSnapShot_currentTerm {rf : Raft n C D} {T : Nat} (h : rf.currentTerm ≤ T) :
    (rf.followSnapShot T).currentTerm = T := by
  rcases Nat.eq_or_lt_of_le h with heq | hlt
  · rw [followSnapShot_of_le heq.ge]; exact heq
  · rw [followSnapShot_of_lt hlt]

/-- Entering the term of a snapshot request, in memory only. -/
theorem NodeInv.followSnapShot {me : Fin n} {p : Process n C D} (h : NodeInv svc g me p) {T : Nat} :
    NodeInv svc g me { p with rf := p.rf.followSnapShot T } := by
  rcases Nat.lt_or_ge p.rf.currentTerm T with hlt | hge
  · rw [followSnapShot_of_lt hlt]
    refine ⟨h.self, ?_, ?_, ⟨fun hs => by simp at hs, fun hs => by simp at hs⟩, ?_⟩
    · exact h.log.same ⟨rfl, rfl, rfl, rfl, rfl⟩ rfl (Repl.Ext.refl _)
    · exact ⟨h.dur.term, h.dur.vote, h.dur.logs, h.dur.index, h.dur.lastTerm, h.dur.saves,
        Or.inr ⟨h.dur.term_le.trans_lt hlt, rfl, rfl⟩⟩
    · exact h.app.same le_rfl rfl rfl rfl rfl rfl rfl
  · rw [followSnapShot_of_le hge]
    exact h.toFollower

/-- What a peer has applied is agreed, so an older snapshot is a prefix of it. -/
theorem NodeInv.covers {me : Fin n} {p : Process n C D} (h : NodeInv svc g me p) (hi : g.core.Inv)
    {q : List (Entry (Option C))} (hq : g.core.Agreed q) (hle : q.length ≤ p.rf.commitIndex) :
    q <+: g.core.log me := by
  refine (hq.prefix_of_le hi h.log.cert.agreed ?_).trans (List.take_prefix _ _)
  rw [List.length_take, min_eq_left h.log.commit_le]
  exact hle

theorem Pending.le {rf : Raft n C D} {y : Nat} (h : Pending svc g rf y) : y ≤ rf.lastApplied := by
  unfold Pending at h
  split at h
  · exact h.le
  · exact h.2.2.2.1.le

/-- Everything handed to the applier lies at or before `lastApplied`. -/
theorem Applying.next_le {p : Process n C D} (h : Applying svc g p) :
    lastIndex p.bootIndex p.applyCh ≤ p.rf.lastApplied := by
  have hnext := h.next
  split at hnext
  · exact hnext.le
  · rename_i m _
    obtain ⟨hf, -, hp⟩ := hnext
    have hp := hp.le
    unfold ApplyMsg.Follows at hf
    unfold ApplyMsg.at at hp
    split at hf
    · rename_i hc; rw [if_pos hc] at hp; omega
    · rename_i hc; rw [if_neg hc] at hp; omega

/-- Staging a snapshot for a later index than any applied. -/
theorem Applying.stage {p : Process n C D} (h : Applying svc g p) {rf : Raft n C D}
    {m : ApplyMsg C D} (hp : rf.pendingSnapshot = some m) (hc : m.commandValid = false)
    (hv : m.snapshotValid = true) (ha : m.snapshotIndex = rf.lastApplied)
    (hlt : p.rf.lastApplied < rf.lastApplied) (hok : MsgOk svc g m) :
    Applying svc g { p with rf := rf } where
  boot := h.boot
  order := h.order
  content := h.content
  next := by
    have hpend : ∀ {y}, Pending svc g p.rf y → Pending svc g rf y := by
      intro y hy
      unfold Pending
      rw [hp]
      exact ⟨hc, hv, ha, hy.le.trans_lt hlt, hok⟩
    have hnext := h.next
    simp only
    split
    · rename_i hs
      rw [hs] at hnext
      exact hpend hnext
    · rename_i m' hs
      rw [hs] at hnext
      exact ⟨hnext.1, hnext.2.1, hpend hnext.2.2⟩

/-- A snapshot beyond what is applied: the log then starts with the snapshot's prefix, compacted
there. -/
theorem NodeInv.replaceBySnapShot {me : Fin n} {p : Process n C D} (h : NodeInv svc g me p)
    (hi : g.core.Inv) {args : InstallSnapShotArgs n D} (hok : SnapReqOk svc g args)
    (hs : p.rf.state = .follower) (ht : p.rf.currentTerm = args.term)
    (hlt : p.rf.lastApplied < args.lastIncludedIndex) :
    ∃ g', Moves me g g' ∧ args.lastIncludedIndex ≤ g'.core.acked me args.term ∧
      NodeInv svc g' me { p with rf := p.rf.replaceBySnapShot args } := by
  obtain ⟨g₁, hmv₁, -, hu⟩ := h.unsaved hi
  obtain ⟨hled, hlen, hterm, hagreed, hsnap⟩ := hok.mono hmv₁.le
  obtain ⟨d, hd⟩ : ∃ d, args.data = some d := by
    cases hdata : args.data with
    | none =>
      rw [hdata] at hsnap
      have : args.lastIncludedIndex = 0 := hsnap
      omega
    | some d => exact ⟨d, rfl⟩
  -- the prefix that the snapshot stands for
  generalize hPdef : (g₁.core.llog args.term).take args.lastIncludedIndex = P at hagreed
  have hPlen : P.length = args.lastIncludedIndex := by rw [← hPdef, List.length_take]; omega
  have hPllog : P <+: g₁.core.llog args.term := hPdef ▸ List.take_prefix _ _
  have hPterm : args.lastIncludedTerm = termAt P P.length := by
    rw [hterm, hPlen, ← hPdef, termAt_take le_rfl]
  have hfirst : p.rf.lastIncludedIndex ≤ P.length := by
    have := hu.log.first_le
    omega
  -- the protocol step leaves a log `L` that starts with `P` and keeps what is committed
  obtain ⟨g₂, hmv₂, L, hL, hPL, hack, hlogs, hcl, hcert, hterm₂, hvote₂⟩ : ∃ g₂, Moves me g₁ g₂ ∧
      ∃ L, g₂.core.log me = L ∧ P <+: L ∧
        args.lastIncludedIndex ≤ g₂.core.acked me args.term ∧
        p.rf.installedLogs args.lastIncludedIndex args.lastIncludedTerm =
          compact L args.lastIncludedIndex ∧
        max p.rf.commitIndex args.lastIncludedIndex ≤ L.length ∧
        g₂.core.AgreedBy args.term (L.take (max p.rf.commitIndex args.lastIncludedIndex)) ∧
        g₂.core.term me = g₁.core.term me ∧ g₂.core.vote me = g₁.core.vote me := by
    have hcomm := hu.log.commit_le
    have hcase := hu.log.shows.installedLogs (hu.inv.log_src me)
      ((hu.inv.llog_src _).shorten hPllog) hfirst
    rw [← hPterm, hPlen] at hcase
    rcases hcase with ⟨hpre, heq⟩ | ⟨hpre, heq⟩
    · have hmv : Moves me g₁ (g₁.withCore (g₁.core.ack me args.term args.lastIncludedIndex)) :=
        Moves.single (.ack me _ _ (hu.term.trans ht).le hled hlen (by rw [hPdef]; exact hpre))
          Frame.ack (.of_same rfl rfl)
      have hple := hpre.length_le
      refine ⟨_, hmv, g₁.core.log me, rfl, hpre, by simp [Ghost.withCore, Repl.ack], heq, by omega,
        Repl.AgreedBy.ext ?_ hmv.frame.ext, rfl, rfl⟩
      rcases Nat.le_total p.rf.commitIndex args.lastIncludedIndex with hle | hle
      · rw [max_eq_right hle, ← hPlen, ← List.prefix_iff_eq_take.mp hpre]
        exact hagreed
      · rw [max_eq_left hle, ← ht, ← hu.term]
        exact hu.log.cert
    · have hmv : Moves me g₁ (g₁.withCore (g₁.core.adopt me args.term P)) :=
        Moves.single (.adopt me _ P (hu.term.trans ht) hled hPllog hpre) Frame.adopt (.of_same rfl rfl)
      have hin := hu.log.cert.in_llog hu.inv (by rw [hu.term, ht]) hled
      have hle : p.rf.commitIndex ≤ args.lastIncludedIndex := by
        by_contra hgt
        refine hpre ((List.prefix_of_prefix_length_le hPllog hin ?_).trans (List.take_prefix _ _))
        rw [List.length_take]
        omega
      refine ⟨_, hmv, P, by simp [Ghost.withCore, Repl.adopt], List.prefix_rfl,
        by simp [Ghost.withCore, Repl.adopt, hPlen], heq, by omega,
        Repl.AgreedBy.ext ?_ hmv.frame.ext, rfl, rfl⟩
      rw [max_eq_right hle, ← hPlen, List.take_length]
      exact hagreed
  have hT₂ : g₂.core.term me = args.term := hterm₂.trans (hu.term.trans ht)
  have hsnap₂ : SnapFor svc g₂ args.lastIncludedIndex (some d) := by
    rw [← hd]
    exact hsnap.mono hmv₂.le
  refine ⟨g₂, hmv₁.trans hmv₂, hack, ?_⟩
  unfold Raft.replaceBySnapShot Raft.persist
  simp only [hd, hlogs]
  refine ⟨h.self, ⟨?_, ?_, le_max_right _ _, ?_, ?_, ?_⟩, ?_, ⟨?_, ?_⟩, ?_⟩
  · rw [hL]
  · rw [hL]
    have := termAt_prefix_eq hPL le_rfl
    rw [← hPterm, hPlen] at this
    exact this.symm
  · exact max_le_max hu.log.applied_le le_rfl
  · rw [hL]; exact hcl
  · rw [hL, hT₂]; exact hcert
  · refine Durable.of_save rfl (ht.trans hT₂.symm) (hu.vote.symm.trans hvote₂.symm) ?_
    exact (hu.saves.mono hmv₂.le).save hsnap₂ rfl rfl
  · intro hc; exact absurd (hs.symm.trans hc) (by simp)
  · intro hc; exact absurd (hs.symm.trans hc) (by simp)
  · refine (hu.app.mono hmv₂.le).stage rfl rfl rfl ?_ ?_ ?_
    · simp only; omega
    · simp only; omega
    · simpa only [MsgOk, Bool.false_eq_true, if_false] using hsnap₂

theorem coupled_installSnapShot (h : Coupled svc s g) {m : Rpc n C D} {rest : List (Rpc n C D)}
    (hperm : (m :: rest).Perm s.net) {args : InstallSnapShotArgs n D}
    (hm : m.payload = .snapReq args) :
    ∃ g', Moves m.server g g' ∧ Coupled svc (s.handle m rest) g' := by
  have hn := h.node m.server
  have hok := h.net m (hperm.subset List.mem_cons_self)
  unfold RpcOk at hok
  simp only [hm] at hok
  simp only [Cluster.handle, hm]
  have hkey : ∀ reply, Rpc.voteKey (⟨m.caller, m.incarnation, m.server, .snapRep args reply⟩ :
      Rpc n C D) = m.voteKey := by
    intro reply
    simp [Rpc.voteKey, hm]
  generalize hp : s.proc m.server = p at hn
  unfold Raft.installSnapShot
  simp only
  split
  · rename_i hlt
    exact ⟨g, Moves.refl _ _, h.answered hperm (Moves.refl _ _) (by rw [hp]; exact hn)
      ⟨hok, fun hle => by simp only at hle; omega⟩ (hkey _)
      (fun hs => ⟨by rw [hp]; exact hs, by rw [hp]⟩)⟩
  · rename_i hcond
    have hn₁ := hn.followSnapShot (T := args.term)
    have ht₁ : (p.rf.followSnapShot args.term).currentTerm = args.term :=
      followSnapShot_currentTerm (by omega)
    have hs₁ := followSnapShot_state p.rf args.term
    generalize p.rf.followSnapShot args.term = rf at *
    have hnc : ∀ {rf' : Raft n C D}, rf'.state = .follower → rf'.state = .candidate →
        (s.proc m.server).rf.state = .candidate ∧
          rf'.currentTerm = (s.proc m.server).rf.currentTerm := by
      intro rf' hf hc; rw [hf] at hc; simp at hc
    split
    · -- applied already: confirmed as it is
      rename_i hstale
      obtain ⟨hled, hlen, -, hagreed, -⟩ := id hok
      have hcov : (g.core.llog args.term).take args.lastIncludedIndex <+: g.core.log m.server := by
        refine hn₁.covers h.inv hagreed.agreed ?_
        have := hn₁.log.applied_le
        simp only at this ⊢
        rw [List.length_take]
        omega
      have hle : g.core.term m.server ≤ args.term := by
        have := hn₁.dur.term_le
        simp only at this
        omega
      have hmv : Moves m.server g
          (g.withCore (g.core.ack m.server args.term args.lastIncludedIndex)) :=
        Moves.single (.ack m.server _ _ hle hled hlen hcov) Frame.ack (.of_same rfl rfl)
      refine ⟨_, hmv, h.answered hperm hmv ?_ ⟨hok.mono hmv.le, fun _ => ?_⟩ (hkey _)
        (hnc hs₁)⟩
      · rw [hp]
        refine ⟨hn₁.self, ?_, ?_, ⟨?_, ?_⟩, hn₁.app.mono hmv.le⟩
        · exact hn₁.log.same ⟨rfl, rfl, rfl, rfl, rfl⟩ rfl hmv.frame.ext
        · exact hn₁.dur.same hmv.le rfl ⟨rfl, rfl, rfl, rfl, rfl⟩ ⟨rfl, rfl, rfl⟩ rfl rfl
        · intro hc; exact absurd (hs₁.symm.trans hc) (by simp)
        · intro hc; exact absurd (hs₁.symm.trans hc) (by simp)
      · simp [Ghost.withCore, Repl.ack]
    · rename_i hnew
      obtain ⟨g₂, hmv, hack, hn₂⟩ := hn₁.replaceBySnapShot h.inv hok hs₁ ht₁ (by simp only; omega)
      refine ⟨g₂, hmv, h.answered hperm hmv (by rw [hp]; exact hn₂)
        ⟨hok.mono hmv.le, fun _ => hack⟩ (hkey _) (hnc ?_)⟩
      have : (Raft.replaceBySnapShot rf args).state = rf.state := by
        unfold Raft.replaceBySnapShot Raft.persist
        cases args.data <;> rfl
      rw [this, hs₁]

end DistSys.Raft1
