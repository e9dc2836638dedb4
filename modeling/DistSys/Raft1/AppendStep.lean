import DistSys.Raft1.ElectionStep
import DistSys.Raft1.Events

/- Replication: the steps of `doSendAppendEntry`, `AppendEntry`, their replies and
   `Start`.

   An append request carries a piece of the log of the leader of its term. A
   follower that accepts it either had the piece already (a confirmation of the
   protocol) or takes it over (an adoption); in both cases its log then starts
   with the piece, and the committed prefix inside the piece certifies the
   commit index it takes over. A leader counts confirmations only, so an entry
   of its own term below the selected index is committed. -/
namespace DistSys.Raft1

open Lib

variable {n : Nat} {C D : Type} {svc : Service C D} {s : Cluster n C D} {g : Ghost n C D}

/-! ## Sending -/

/-- A leader is in its durable term, leads it there and holds the log of the term. -/
theorem NodeInv.leads {me : Fin n} {p : Process n C D} (h : NodeInv svc g me p) (hi : g.core.Inv)
    (hs : p.rf.state = .leader) : g.core.leader p.rf.currentTerm = some (me, p.incarnation) ∧
      g.core.term me = p.rf.currentTerm ∧ g.core.log me = g.core.llog p.rf.currentTerm := by
  have ht := (h.dur.in_term (by rw [hs]; simp)).1
  have hl := (h.role.leader hs).1
  exact ⟨hl, ht.symm, (hi.led_log hl).2 ht.symm⟩

/-- What a peer confirmed in the leader's term is in the leader's log. -/
theorem NodeInv.acked_le {me : Fin n} {p : Process n C D} (h : NodeInv svc g me p) (hi : g.core.Inv)
    (hs : p.rf.state = .leader) (q : Fin n) :
    g.core.acked q p.rf.currentTerm ≤ (g.core.log me).length := by
  rw [(h.leads hi hs).2.2]
  exact hi.acked_le q _

theorem NodeInv.matchIndex_le {me : Fin n} {p : Process n C D} (h : NodeInv svc g me p)
    (hi : g.core.Inv) (hs : p.rf.state = .leader) (q : Fin n) :
    p.rf.matchIndex q ≤ (g.core.log me).length :=
  ((h.role.leader hs).2 q).trans (h.acked_le hi hs q)

theorem Shows.genAppendEntryArgs {ℓ : List (Entry (Option C))} {rf : Raft n C D} (h : Shows ℓ rf)
    {i : Nat} (hi : rf.lastIncludedIndex ≤ i) :
    rf.genAppendEntryArgs i =
      { term := rf.currentTerm
        leaderId := rf.me
        prevLogIndex := min i ℓ.length
        prevLogTerm := termAt ℓ (min i ℓ.length)
        entries := tag (min i ℓ.length) (ℓ.drop (min i ℓ.length))
        leaderCommit := rf.commitIndex } := by
  have hlen := h.first_len
  have hprev : (if i > ℓ.length then ℓ.length else i) = min i ℓ.length := by
    split <;> omega
  have hge : rf.lastIncludedIndex ≤ min i ℓ.length := by omega
  have hle : min i ℓ.length ≤ ℓ.length := by omega
  unfold Raft.genAppendEntryArgs
  simp only [h.first, h.latest.1, h.length, if_neg (show ¬ i < rf.lastIncludedIndex - 1 by omega),
    hprev, (h.getD hge hle).1]
  rw [if_pos ⟨hge, by omega⟩, h.logs, compact_drop_succ hge]

theorem NodeInv.appendOk {me : Fin n} {p : Process n C D} (h : NodeInv svc g me p)
    (hi : g.core.Inv) (hs : p.rf.state = .leader) {i : Nat} (hge : p.rf.lastIncludedIndex ≤ i) :
    AppendOk g.core (p.rf.genAppendEntryArgs i) (g.core.log me) := by
  obtain ⟨hl, ht, hlog⟩ := h.leads hi hs
  have hled : g.core.leader p.rf.currentTerm ≠ none := by rw [hl]; simp
  rw [h.log.shows.genAppendEntryArgs hge]
  refine ⟨hled, by rw [hlog], Nat.min_le_right _ _, rfl, rfl, ?_⟩
  rcases h.log.cert with hnil | ⟨T, N, hT, hc, hp⟩
  · left
    have := congrArg List.length hnil
    simp only [List.length_take, List.length_nil] at this
    have := h.log.commit_le
    simp only
    omega
  · right
    rw [ht] at hT
    have hN := hp.length_le
    have := h.log.commit_le
    simp only [List.length_take] at hN
    refine ⟨T, N, hT, hc, by simp only; omega, ?_⟩
    rw [hlog]
    exact Repl.AgreedBy.in_llog hi (t := T) (Or.inr ⟨T, N, le_rfl, hc, List.prefix_rfl⟩) hT hled

theorem NodeInv.snapReqOk {me : Fin n} {p : Process n C D} (h : NodeInv svc g me p)
    (hi : g.core.Inv) (hs : p.rf.state = .leader) :
    SnapReqOk svc g p.rf.makeInstallSnapShotArgs := by
  obtain ⟨hl, ht, hlog⟩ := h.leads hi hs
  have hle := h.log.first_le.trans h.log.applied_le
  unfold SnapReqOk Raft.makeInstallSnapShotArgs
  rw [h.log.first]
  refine ⟨by rw [hl]; simp, ?_, ?_, ?_, h.dur.saves.snap⟩
  · rw [← hlog]; exact h.log.first_len
  · rw [← hlog]; exact h.log.term
  · rw [← hlog, ← ht]
    exact h.log.cert.shorten (List.take_prefix_take_left hle)

theorem coupled_send (h : Coupled svc s g) (me peer : Fin n) {t : Cluster n C D}
    (ht : s.exec (.send me peer) = some t) : Coupled svc t g := by
  have hn := h.node me
  cases exec_cases ht with
  | sendAppend _ _ args _ hsend =>
    obtain ⟨hs, hnext, rfl⟩ := doSendAppendEntry_append hsend
    rw [hn.log.first] at hnext
    exact h.addNet ⟨_, hn.appendOk h.inv hs (Nat.le_pred_of_lt hnext)⟩ rfl
  | sendSnapshot _ _ args _ hsend =>
    obtain ⟨hs, -, rfl⟩ := doSendAppendEntry_snapshot hsend
    exact h.addNet (hn.snapReqOk h.inv hs) rfl

/-! ## AppendEntry -/

theorem AppendOk.length {c : Repl (Fin n) (Option C)} {args : AppendEntryArgs n C}
    {P : List (Entry (Option C))} (h : AppendOk c args P) :
    args.prevLogIndex + args.entries.length = P.length := by
  obtain ⟨-, -, hprev, -, hentries, -⟩ := h
  rw [hentries, tag_length, List.length_drop]
  omega

/-- Becoming a follower gives up what the role claimed and changes nothing durable. -/
theorem NodeInv.toFollower {me : Fin n} {p : Process n C D} (h : NodeInv svc g me p) :
    NodeInv svc g me { p with rf := { p.rf with state := .follower } } where
  self := h.self
  log := h.log.same ⟨rfl, rfl, rfl, rfl, rfl⟩ rfl (Repl.Ext.refl _)
  dur := by
    refine ⟨h.dur.term, h.dur.vote, h.dur.logs, h.dur.index, h.dur.lastTerm, h.dur.saves, ?_⟩
    rcases h.dur.volatile with hv | ⟨h₁, h₂, -⟩
    · exact Or.inl hv
    · exact Or.inr ⟨h₁, h₂, rfl⟩
  role := ⟨fun hs => by simp at hs, fun hs => by simp at hs⟩
  app := h.app.same le_rfl rfl rfl rfl rfl rfl rfl

/-- The commit index moves up to the end of an agreed prefix. -/
theorem LogInv.advance {c : Repl (Fin n) (Option C)} {me : Fin n} {rf : Raft n C D}
    (h : LogInv c me rf) {i : Nat} (hge : rf.commitIndex ≤ i) (hle : i ≤ (c.log me).length)
    (hcert : c.AgreedBy (c.term me) ((c.log me).take i)) :
    LogInv c me { rf with commitIndex := i } where
  logs := h.logs
  term := h.term
  first_le := h.first_le
  applied_le := h.applied_le.trans hge
  commit_le := hle
  cert := hcert

/-- The commit index of an accepted request is certified by the piece it carried. -/
theorem AppendOk.cert {c : Repl (Fin n) (Option C)} {args : AppendEntryArgs n C}
    {P : List (Entry (Option C))} (hi : c.Inv) (h : AppendOk c args P) {me : Fin n}
    (hP : P <+: c.log me) {i : Nat} (hle : i ≤ args.leaderCommit) :
    c.AgreedBy (c.term me) ((c.log me).take i) := by
  obtain ⟨-, -, -, -, -, h0 | ⟨T, N, hT, hc, hN, hpre⟩⟩ := h
  · obtain rfl : i = 0 := by omega
    exact Or.inl rfl
  · right
    have hlog : (c.llog T).take N <+: c.log me := hpre.trans hP
    have hlen : ((c.llog T).take N).length = N := by simp [hc.le]
    refine ⟨T, N, ?_, hc, ?_⟩
    · -- the last entry of the committed prefix is of its own term, and is in the log
      obtain ⟨e, he, -, hterm⟩ := exists_entry hc.1.pos hlen.ge
      rw [termAt_take le_rfl, hc.1.2] at hterm
      rw [hterm]
      exact hi.log_term me e (hlog.subset he)
    · exact List.prefix_of_prefix_length_le (List.take_prefix _ _) hlog
        (by rw [hlen, List.length_take]; omega)

/-- A peer that holds the previous entry of a request stores what the request carries: nothing if
its log already starts with that, and otherwise its log becomes that. -/
theorem LogInv.storeEntries {c : Repl (Fin n) (Option C)} {me : Fin n} {rf : Raft n C D}
    (h : LogInv c me rf) (hi : c.Inv) {args : AppendEntryArgs n C} {P : List (Entry (Option C))}
    (hok : AppendOk c args P) (hmatch : rf.isLogMatched args.prevLogIndex args.prevLogTerm = true) :
    (P <+: c.log me ∧ rf.storeEntries args.entries = rf) ∨
      (¬ P <+: c.log me ∧ rf.storeEntries args.entries =
        Raft.persistState { rf with logs := compact P rf.lastIncludedIndex }) := by
  obtain ⟨-, hP, hprev, hpt, hent, -⟩ := hok
  obtain ⟨hm₁, hm₂, hm₃⟩ := h.shows.isLogMatched.mp hmatch
  have hPsrc : c.Sourced P := (hi.llog_src _).shorten hP
  have hag : (c.log me).take args.prevLogIndex = P.take args.prevLogIndex :=
    (hi.log_src me).matching hPsrc hm₂ hprev (hm₃.symm.trans hpt)
  unfold Raft.storeEntries
  rw [h.first, h.logs, hent]
  rcases appendNewEntries_compact (hi.log_src me) hPsrc h.first_len (P.length - args.prevLogIndex)
    args.prevLogIndex (by omega) hm₁ hm₂ hag with ⟨hpre, heq⟩ | ⟨hpre, heq⟩
  · exact Or.inl ⟨hpre, by simp only [heq]⟩
  · exact Or.inr ⟨hpre, by simp only [heq]⟩

/-- A follower in the term of a request whose previous entry it holds makes its log start with the
piece that the request carries. -/
theorem NodeInv.accept {me : Fin n} {p : Process n C D} (h : NodeInv svc g me p) (hi : g.core.Inv)
    {args : AppendEntryArgs n C} {P : List (Entry (Option C))} (hok : AppendOk g.core args P)
    (hs : p.rf.state = .follower) (ht : p.rf.currentTerm = args.term)
    (hmatch : p.rf.isLogMatched args.prevLogIndex args.prevLogTerm = true) :
    ∃ g', Moves me g g' ∧ P <+: g'.core.log me ∧ P.length ≤ g'.core.acked me args.term ∧
      NodeInv svc g' me { p with rf := p.rf.storeEntries args.entries } := by
  have hled := hok.1
  have hP := hok.2.1
  have htake : (g.core.llog args.term).take P.length = P := List.prefix_iff_eq_take.mp hP |>.symm
  rcases h.log.storeEntries hi hok hmatch with ⟨hpre, heq⟩ | ⟨hpre, heq⟩
  · -- everything is there: a confirmation
    have hmv : Moves me g (g.withCore (g.core.ack me args.term P.length)) :=
      Moves.single (.ack me _ _ (ht ▸ h.dur.term_le) hled hP.length_le (by rw [htake]; exact hpre))
        Frame.ack (.of_same rfl rfl)
    refine ⟨_, hmv, hpre, by simp [Ghost.withCore, Repl.ack], ?_⟩
    simp only [heq]
    refine ⟨h.self, ?_, ?_, ⟨?_, ?_⟩, h.app.mono hmv.le⟩
    · exact h.log.same ⟨rfl, rfl, rfl, rfl, rfl⟩ rfl hmv.frame.ext
    · exact h.dur.same hmv.le rfl ⟨rfl, rfl, rfl, rfl, rfl⟩ ⟨rfl, rfl, rfl⟩ rfl rfl
    · intro hc; rw [hs] at hc; simp at hc
    · intro hc; rw [hs] at hc; simp at hc
  · -- the piece replaces the log, in the durable term
    obtain ⟨g₁, hmv₁, hsame, hu⟩ := h.unsaved hi
    have hP₁ := hP.trans (hmv₁.frame.ext.llog args.term)
    have hled₁ := hmv₁.frame.ext.led hled
    have hmv₂ : Moves me g₁ (g₁.withCore (g₁.core.adopt me args.term P)) :=
      Moves.single (.adopt me _ P (hu.term.trans ht) hled₁ hP₁ (by rw [hsame]; exact hpre)) Frame.adopt
        (.of_same rfl rfl)
    have hlog₂ : (g₁.withCore (g₁.core.adopt me args.term P)).core.log me = P := by
      simp [Ghost.withCore, Repl.adopt]
    -- the committed part of the old log is in the log of the term, so inside the piece
    have hcommit : (g₁.core.log me).take p.rf.commitIndex <+: P := by
      have hin := hu.log.cert.in_llog hu.inv (by rw [hu.term, ht]) hled₁
      rcases List.prefix_or_prefix_of_prefix hin hP₁ with h' | h'
      · exact h'
      · exact absurd (h'.trans (List.take_prefix _ _)) (by rw [hsame]; exact hpre)
    have hclen : p.rf.commitIndex ≤ P.length := by
      have := hcommit.length_le
      rwa [List.length_take, min_eq_left hu.log.commit_le] at this
    have hctake : P.take p.rf.commitIndex = (g₁.core.log me).take p.rf.commitIndex := by
      have := List.prefix_iff_eq_take.mp hcommit
      rw [List.length_take, min_eq_left hu.log.commit_le] at this
      exact this.symm
    have hfirst : p.rf.lastIncludedIndex ≤ p.rf.commitIndex :=
      h.log.first_le.trans h.log.applied_le
    refine ⟨_, hmv₁.trans hmv₂, by rw [hlog₂], by simp [Ghost.withCore, Repl.adopt], ?_⟩
    simp only [heq]
    refine ⟨h.self, ⟨?_, ?_, h.log.first_le, h.log.applied_le, ?_, ?_⟩, ?_, ⟨?_, ?_⟩, ?_⟩
    · rw [hlog₂]; rfl
    · rw [hlog₂]
      simp only [Raft.persistState, Raft.persist]
      rw [← termAt_take hfirst, hctake, termAt_take hfirst]
      exact hu.log.term
    · rw [hlog₂]; exact hclen
    · rw [hlog₂]
      simp only [Raft.persistState, Raft.persist, hctake]
      exact hu.log.cert.ext hmv₂.frame.ext
    · refine Durable.of_save rfl hu.term.symm hu.vote.symm ?_
      exact (hu.saves.mono hmv₂.le).again rfl rfl
    · intro hc; simp [Raft.persistState, Raft.persist, hs] at hc
    · intro hc; simp [Raft.persistState, Raft.persist, hs] at hc
    · exact hu.app.same hmv₂.le rfl rfl rfl rfl rfl rfl

theorem storeEntries_state (rf : Raft n C D) (entries : List (LogEntry C)) :
    (rf.storeEntries entries).state = rf.state := by
  unfold Raft.storeEntries
  split <;> rfl

theorem advanceCommit_state (rf : Raft n C D) (i : Nat) : (rf.advanceCommit i).state = rf.state := by
  unfold Raft.advanceCommit
  simp only
  split <;> rfl

theorem appendAsFollower_state {rf : Raft n C D} (hs : rf.state = .follower)
    (args : AppendEntryArgs n C) : (rf.appendAsFollower args).1.state = .follower := by
  unfold Raft.appendAsFollower
  split
  · exact hs
  · split
    · exact hs
    · rw [advanceCommit_state, storeEntries_state]
      exact hs

/-- A follower takes over a commit index inside the piece its log starts with. -/
theorem NodeInv.advanceCommit {me : Fin n} {p : Process n C D} (h : NodeInv svc g me p)
    (hi : g.core.Inv) {args : AppendEntryArgs n C} {P : List (Entry (Option C))}
    (hok : AppendOk g.core args P) (hP : P <+: g.core.log me) :
    NodeInv svc g me { p with rf := p.rf.advanceCommit args.leaderCommit } := by
  unfold Raft.advanceCommit
  simp only
  split
  · rename_i hlt
    refine ⟨h.self, h.log.advance hlt.le ?_ ?_, ?_, ⟨h.role.candidate, h.role.leader⟩, ?_⟩
    · rw [h.log.latest.1]; omega
    · exact hok.cert hi hP (by omega)
    · exact ⟨h.dur.term, h.dur.vote, h.dur.logs, h.dur.index, h.dur.lastTerm, h.dur.saves,
        h.dur.volatile⟩
    · exact h.app.same le_rfl rfl rfl rfl rfl rfl rfl
  · exact h

theorem appendEntry_of_ge {rf : Raft n C D} {args : AppendEntryArgs n C}
    (h : ¬ args.term < rf.currentTerm) : rf.appendEntry args =
      Raft.appendAsFollower { rf.updateTermAndStepDown args.term with state := .follower } args := by
  unfold Raft.appendEntry
  rw [if_neg h]
  simp only [changeState_follower]
  split
  · rfl
  · rename_i hf
    rw [← not_not.mp hf]

theorem conflictReply_success (rf : Raft n C D) (i : Nat) : (rf.conflictReply i).success = false := by
  unfold Raft.conflictReply
  simp only
  split
  · rfl
  · split <;> rfl

/-- What a follower in the term of a request does with it. -/
theorem NodeInv.appendAsFollower {me : Fin n} {p : Process n C D} (h : NodeInv svc g me p)
    (hi : g.core.Inv) {args : AppendEntryArgs n C} {P : List (Entry (Option C))}
    (hok : AppendOk g.core args P) (hs : p.rf.state = .follower) (ht : p.rf.currentTerm = args.term) :
    ∃ g', Moves me g g' ∧ NodeInv svc g' me { p with rf := (p.rf.appendAsFollower args).1 } ∧
      (p.rf.appendAsFollower args).1.state = .follower ∧
      ((p.rf.appendAsFollower args).2.success = true →
        args.prevLogIndex + args.entries.length ≤ g'.core.acked me args.term) := by
  unfold Raft.appendAsFollower
  split
  · exact ⟨g, Moves.refl _ _, h, hs, fun hr => by simp [Raft.rejectAppendEntry] at hr⟩
  · split
    · exact ⟨g, Moves.refl _ _, h, hs, fun hr => by simp [conflictReply_success] at hr⟩
    · rename_i hmatch
      obtain ⟨g', hmv, hpre, hack, hn⟩ := h.accept hi hok hs ht (by simpa using hmatch)
      refine ⟨g', hmv, hn.advanceCommit (hmv.steps.inv_ext hi).1 (hok.mono hmv.frame.ext) hpre, ?_,
        fun _ => ?_⟩
      · rw [advanceCommit_state, storeEntries_state]
        exact hs
      · exact hok.length.le.trans hack

theorem coupled_appendEntry (h : Coupled svc s g) {m : Rpc n C D} {rest : List (Rpc n C D)}
    (hperm : (m :: rest).Perm s.net) {args : AppendEntryArgs n C} (hm : m.payload = .appendReq args) :
    ∃ g', Moves m.server g g' ∧ Coupled svc (s.handle m rest) g' := by
  have hn := h.node m.server
  have hok := h.net m (hperm.subset List.mem_cons_self)
  unfold RpcOk at hok
  simp only [hm] at hok
  obtain ⟨P, hP⟩ := hok
  simp only [Cluster.handle, hm]
  have hkey : ∀ reply, Rpc.voteKey (⟨m.caller, m.incarnation, m.server, .appendRep args reply⟩ :
      Rpc n C D) = m.voteKey := by
    intro reply
    simp [Rpc.voteKey, hm]
  generalize hp : s.proc m.server = p at hn
  by_cases hcond : args.term < p.rf.currentTerm
  · unfold Raft.appendEntry
    rw [if_pos hcond]
    exact ⟨g, Moves.refl _ _, h.answered hperm (Moves.refl _ _) (by rw [hp]; exact hn)
      ⟨⟨P, hP⟩, fun hr => by simp [Raft.rejectAppendEntry] at hr⟩ (hkey _)
      (fun hs => ⟨by rw [hp]; exact hs, by rw [hp]⟩)⟩
  · rw [appendEntry_of_ge hcond]
    obtain ⟨g₁, hmv₁, -, hn₁, ht₁, -⟩ := hn.enter (T := args.term) (by omega)
    obtain ⟨g₂, hmv₂, hn₂, hs₂, hack⟩ := hn₁.toFollower.appendAsFollower
      (hmv₁.steps.inv_ext h.inv).1 (hP.mono hmv₁.frame.ext) rfl ht₁
    have hmv := hmv₁.trans hmv₂
    exact ⟨g₂, hmv, h.answered hperm hmv (by rw [hp]; exact hn₂)
      ⟨⟨P, hP.mono hmv.frame.ext⟩, hack⟩ (hkey _) (fun hc => absurd (hs₂.symm.trans hc) (by simp))⟩

/-! ## Replies to the leader -/

/-- A leader takes over what a peer has confirmed. -/
theorem NodeInv.updateLogIndices {me peer : Fin n} {p : Process n C D} (h : NodeInv svc g me p)
    {i : Nat} (hle : i ≤ g.core.acked peer p.rf.currentTerm) :
    NodeInv svc g me { p with rf := p.rf.updateLogIndices peer i } := by
  refine ⟨h.self, ?_, ?_, ⟨h.role.candidate, fun hs => ?_⟩, h.app.same le_rfl rfl rfl rfl rfl rfl rfl⟩
  · exact h.log.same ⟨rfl, rfl, rfl, rfl, rfl⟩ rfl (Repl.Ext.refl _)
  · exact h.dur.same le_rfl rfl ⟨rfl, rfl, rfl, rfl, rfl⟩ ⟨rfl, rfl, rfl⟩ rfl rfl
  · obtain ⟨hl, hmatch⟩ := h.role.leader hs
    refine ⟨hl, fun q => ?_⟩
    by_cases hq : q = peer
    · subst hq; simpa [Raft.updateLogIndices] using hle
    · simpa [Raft.updateLogIndices, hq] using hmatch q

/-- What more than half of the peers have confirmed to a leader is committed if its entry is of the
leader's term. -/
theorem NodeInv.selected {me : Fin n} {p : Process n C D} (h : NodeInv svc g me p)
    (hi : g.core.Inv) (hs : p.rf.state = .leader) {i : Nat}
    (hmaj : n / 2 < (Finset.univ.filter (i ≤ p.rf.matchIndex ·)).card)
    (hmatch : p.rf.isLogMatched i p.rf.currentTerm = true) :
    i ≤ (g.core.log me).length ∧ g.core.Committed p.rf.currentTerm i := by
  obtain ⟨hl, ht, hlog⟩ := h.leads hi hs
  obtain ⟨-, hm₂, hm₃⟩ := h.log.shows.isLogMatched.mp hmatch
  have hpos : 0 < p.rf.currentTerm := by
    obtain ⟨K, -, hK, -⟩ := hi.led_camp hl
    exact (hi.camp_term hK).1
  refine ⟨hm₂, ⟨hpos, by rw [← hlog]; exact hm₃.symm⟩, _, isMajority_fin.mpr hmaj, fun q hq => ?_⟩
  exact (Finset.mem_filter.mp hq).2.trans ((h.role.leader hs).2 q)

theorem NodeInv.acceptNewLogEntries {me peer : Fin n} {p : Process n C D} (h : NodeInv svc g me p)
    (hi : g.core.Inv) (hs : p.rf.state = .leader) {args : AppendEntryArgs n C}
    (hle : args.prevLogIndex + args.entries.length ≤ g.core.acked peer p.rf.currentTerm) :
    NodeInv svc g me { p with rf := p.rf.acceptNewLogEntries peer args } := by
  have h' := h.updateLogIndices hle
  obtain ⟨v, hv, heq⟩ := acceptNewLogEntries_selects p.rf peer args
  rw [heq]
  split
  · rename_i hc
    obtain ⟨hlen, hcomm⟩ := h'.selected hi hs ((hv v).mpr le_rfl) hc.2
    obtain ⟨-, ht, hlog⟩ := h'.leads hi hs
    refine ⟨h'.self, h'.log.advance hc.1.le hlen ?_, ?_, ⟨h'.role.candidate, h'.role.leader⟩, ?_⟩
    · exact Or.inr ⟨_, v, ht.ge, hcomm, by rw [hlog]⟩
    · exact ⟨h'.dur.term, h'.dur.vote, h'.dur.logs, h'.dur.index, h'.dur.lastTerm, h'.dur.saves,
        h'.dur.volatile⟩
    · exact h'.app.same le_rfl rfl rfl rfl rfl rfl rfl
  · exact h'

theorem NodeInv.rollBack {me peer : Fin n} {p : Process n C D} (h : NodeInv svc g me p)
    (args : AppendEntryArgs n C) (reply : AppendEntryReply) :
    NodeInv svc g me { p with rf := p.rf.rollBackToConflictTerm peer args reply } where
  self := h.self
  log := h.log.same ⟨rfl, rfl, rfl, rfl, rfl⟩ rfl (Repl.Ext.refl _)
  dur := h.dur.same le_rfl rfl ⟨rfl, rfl, rfl, rfl, rfl⟩ ⟨rfl, rfl, rfl⟩ rfl rfl
  role := ⟨h.role.candidate, h.role.leader⟩
  app := h.app.same le_rfl rfl rfl rfl rfl rfl rfl

/-- A reply for an earlier incarnation, or one that changes nothing, only leaves the network. -/
theorem Coupled.dropped (h : Coupled svc s g) {m : Rpc n C D} {rest : List (Rpc n C D)}
    (hperm : (m :: rest).Perm s.net) : Coupled svc { s with net := rest } g := by
  have := h.replied hperm (Moves.refl _ _) (h.node m.caller)
    ((h.counted m.caller).keep (Repl.Ext.refl _) (fun hs => ⟨hs, rfl, rfl⟩) (voteKeys_rest hperm))
  simpa [Cluster.set] using this

/-- A reply that a leader acts on: what is left is its own invariant, and a leader or follower has
no votes to count. -/
theorem Coupled.leaderReply (h : Coupled svc s g) {m : Rpc n C D} {rest : List (Rpc n C D)}
    (hperm : (m :: rest).Perm s.net) {f : Process n C D → Process n C D}
    (hf : f (s.proc m.caller) = s.proc m.caller ∨ ((f (s.proc m.caller)).rf.state ≠ .candidate ∧
      ∃ g', Moves m.caller g g' ∧ NodeInv svc g' m.caller (f (s.proc m.caller)))) :
    ∃ g', Moves m.caller g g' ∧ Coupled svc (s.handleReply m rest f) g' := by
  have hdrop := h.dropped hperm
  unfold Cluster.handleReply
  split
  · rcases hf with hf | ⟨hs, g', hmv, hn⟩
    · have : s.set m.caller (f (s.proc m.caller)) rest = { s with net := rest } := by
        simp [Cluster.set, hf]
      rw [this]
      exact ⟨g, Moves.refl _ _, hdrop⟩
    · exact ⟨g', hmv, h.replied hperm hmv hn (counted_of_ne hs)⟩
  · exact ⟨g, Moves.refl _ _, hdrop⟩

theorem acceptNewLogEntries_state (rf : Raft n C D) (peer : Fin n) (args : AppendEntryArgs n C) :
    (rf.acceptNewLogEntries peer args).state = rf.state := by
  obtain ⟨i, -, heq⟩ := acceptNewLogEntries_eq rf peer args
  rw [heq]
  rfl

theorem coupled_appendReply (h : Coupled svc s g) {m : Rpc n C D} {rest : List (Rpc n C D)}
    (hperm : (m :: rest).Perm s.net) {args : AppendEntryArgs n C} {reply : AppendEntryReply}
    (hm : m.payload = .appendRep args reply) :
    ∃ g', Moves m.caller g g' ∧ Coupled svc (s.handle m rest) g' := by
  have hn := h.node m.caller
  have hok := h.net m (hperm.subset List.mem_cons_self)
  unfold RpcOk at hok
  simp only [hm] at hok
  obtain ⟨-, hack⟩ := hok
  simp only [Cluster.handle, hm]
  refine h.leaderReply hperm ?_
  unfold Raft.handleAppendReply
  split
  · exact Or.inl rfl
  · rename_i hvalid
    obtain ⟨hs, ht⟩ : (s.proc m.caller).rf.state = .leader ∧
        (s.proc m.caller).rf.currentTerm = args.term := by
      simpa [Raft.isValidLeader] using hvalid
    right
    split
    · split
      · rename_i hlt
        obtain ⟨hmv, hnode⟩ := hn.stepDown hlt
        exact ⟨by rw [updateTermAndStepDown_state hlt]; simp, _, hmv, hnode⟩
      · refine ⟨?_, g, Moves.refl _ _, hn.rollBack args reply⟩
        simp [Raft.rollBackToConflictTerm, hs]
    · rename_i hsucc
      refine ⟨by rw [acceptNewLogEntries_state, hs]; simp, g, Moves.refl _ _, ?_⟩
      exact hn.acceptNewLogEntries h.inv hs (by rw [ht]; exact hack (by simpa using hsucc))

theorem coupled_snapShotReply (h : Coupled svc s g) {m : Rpc n C D} {rest : List (Rpc n C D)}
    (hperm : (m :: rest).Perm s.net) {args : InstallSnapShotArgs n D} {reply : InstallSnapShotReply}
    (hm : m.payload = .snapRep args reply) :
    ∃ g', Moves m.caller g g' ∧ Coupled svc (s.handle m rest) g' := by
  have hn := h.node m.caller
  have hok := h.net m (hperm.subset List.mem_cons_self)
  unfold RpcOk at hok
  simp only [hm] at hok
  obtain ⟨-, hack⟩ := hok
  simp only [Cluster.handle, hm]
  refine h.leaderReply hperm ?_
  unfold Raft.handleSnapShotReply
  split
  · rename_i hvalid
    obtain ⟨hs, ht⟩ := hvalid
    right
    split
    · rename_i hlt
      obtain ⟨hmv, hnode⟩ := hn.stepDown hlt
      exact ⟨by rw [updateTermAndStepDown_state hlt]; simp, _, hmv, hnode⟩
    · refine ⟨by simp [Raft.updateLogIndices, hs], g, Moves.refl _ _, hn.updateLogIndices ?_⟩
      rw [ht]
      exact hack (by omega)
  · exact Or.inl rfl

/-! ## Start -/

/-- `Start` is where entries come from: an accepted command is put at the index and in the term that
are returned. -/
theorem coupled_start (h : Coupled svc s g) (me : Fin n) (command : Option C) {t : Cluster n C D}
    (ht : s.exec (.start me command) = some t) :
    ∃ g', Evolves me g g' ∧ Coupled svc t g' ∧ ∀ k i T a, g'.core.Put k i T a ↔ g.core.Put k i T a ∨
      (k = me ∧ ((s.proc me).rf.start command).2 = some (i + 1, T) ∧ a = command) := by
  have hn := h.node me
  simp only [Cluster.exec, Option.some.injEq] at ht
  subst ht
  have hkeep : ∀ {g' : Ghost n C D} {rf : Raft n C D}, Evolves me g g' →
      rf.state = (s.proc me).rf.state → rf.currentTerm = (s.proc me).rf.currentTerm →
      Counted g'.core me { s.proc me with rf := rf } s.net := by
    intro g' rf hmv hs ht
    exact (h.counted me).keep hmv.frame.ext (fun hc => ⟨hs ▸ hc, ht, rfl⟩) (fun _ hx => hx)
  unfold Raft.start
  split
  · have hmv := (Moves.refl me g).toEvolves
    exact ⟨g, hmv, h.set hmv hn h.net h.keys (fun x hx _ => hx) (hkeep hmv rfl rfl), by simp⟩
  · rename_i hs
    have hs : (s.proc me).rf.state = .leader := not_not.mp hs
    obtain ⟨hl, hterm, -⟩ := hn.leads h.inv hs
    have hF : Frame me g.core (g.core.append me (s.proc me).rf.currentTerm command) :=
      Frame.append h.inv hterm hl
    have hmv : Evolves me g (g.withCore (g.core.append me (s.proc me).rf.currentTerm command)) :=
      .single (.append me _ _ command hterm hl) hF
    have hlog : (g.core.append me (s.proc me).rf.currentTerm command).log me =
        g.core.log me ++ [⟨(s.proc me).rf.currentTerm, command⟩] := by simp [Repl.append]
    have hlen := hn.log.first_len
    have hcl := hn.log.commit_le
    simp only [hn.log.latest.1]
    refine ⟨_, hmv, h.set hmv ⟨hn.self, ?_, ?_, ⟨?_, ?_⟩, ?_⟩ (fun m hm => (h.net m hm).mono hmv.le)
      h.keys (fun x hx _ => hx) (hkeep hmv rfl rfl), fun k i T a => ?_⟩
    · refine ⟨?_, ?_, hn.log.first_le, hn.log.applied_le, ?_, ?_⟩
      · have hnew := compact_append (C := C) hlen ⟨(s.proc me).rf.currentTerm, command⟩
        rw [← hn.log.logs, ← hlog] at hnew
        exact hnew.symm
      · have hpre := termAt_prefix_eq (List.prefix_append (g.core.log me)
          [⟨(s.proc me).rf.currentTerm, command⟩]) hlen
        rw [← hlog] at hpre
        exact hn.log.term.trans hpre.symm
      · have hle := congrArg List.length hlog
        rw [List.length_append] at hle
        exact hcl.trans ((Nat.le_add_right _ _).trans hle.ge)
      · have htake : ((g.core.append me (s.proc me).rf.currentTerm command).log me).take
            (s.proc me).rf.commitIndex = (g.core.log me).take (s.proc me).rf.commitIndex := by
          rw [hlog, List.take_append_of_le_length hcl]
        have hcert := hn.log.cert.ext hF.ext
        rw [← htake] at hcert
        exact hcert
    · refine Durable.of_save rfl hterm.symm (hn.dur.in_term (by rw [hs]; simp)).2 ?_
      refine (hn.dur.saves.mono hmv.le).again ?_ rfl
      have hhead := hn.log.head
      rw [hn.log.logs] at hhead ⊢
      exact hhead
    · intro hc; exact absurd (hs.symm.trans hc) (by simp)
    · intro _
      obtain ⟨-, hmatch⟩ := hn.role.leader hs
      refine ⟨hl, fun q => ?_⟩
      have hq : g.core.acked q (s.proc me).rf.currentTerm ≤
          (g.core.append me (s.proc me).rf.currentTerm command).acked q
            (s.proc me).rf.currentTerm := hF.ext.acked _ _
      by_cases hqm : q = me
      · subst hqm
        simp [Raft.updateLogIndices, Raft.persistState, Raft.persist, hn.self, Ghost.withCore,
          Repl.append, update₂]
      · simpa [Raft.updateLogIndices, Raft.persistState, Raft.persist, hn.self, hqm, Ghost.withCore] using
          (hmatch q).trans hq
    · exact hn.app.same hmv.le rfl rfl rfl rfl rfl rfl
    · refine (Repl.put_append h.inv hterm hl).trans (or_congr_right ?_)
      simp only [Option.some.injEq, Prod.mk.injEq, Nat.add_right_cancel_iff]
      constructor
      · rintro ⟨rfl, rfl, rfl, rfl⟩
        exact ⟨rfl, ⟨rfl, rfl⟩, rfl⟩
      · rintro ⟨rfl, ⟨rfl, rfl⟩, rfl⟩
        exact ⟨rfl, rfl, rfl, rfl⟩

end DistSys.Raft1
