import DistSys.Raft1.Simulation

/- Everything is saved before the lock is released.

   The five persisted fields are changed in many places and saved in others. The
   one path that leaves a change unsaved is `InstallSnapShot` with a newer term and
   an index already applied: the term is raised, the index check returns, and
   nothing is saved. What is proved is that no run gets there. A leader sends a
   snapshot to a peer only if the peer has answered it in its term, or if the log has
   been compacted past the entries the leader was elected with; the snapshot then ends
   in an entry of the leader's own term, and a peer that has applied such an entry is
   in that term.

   So the persister always holds the state in memory (`saved_at_release`), and a
   restart loses no term. -/
namespace DistSys.Raft1

open Lib

variable {n : Nat} {C D : Type} {svc : Service C D} {s t : Cluster n C D} {g : Ghost n C D}

/-! ## Saving -/

theorem raftState_make (me : Fin n) (ps : Persister n C D) :
    (Raft.make me ps).raftState = ps.state := by
  unfold Raft.make Raft.readPersist Persister.state
  split
  · rename_i h
    simp only [h, Option.getD_none]
    rfl
  · rename_i st h
    simp only [h, Option.getD_some]
    rfl

/-! ## What a leader's `nextIndex` says about a peer -/

/-- Given the terms of all peers: a leader has sent nothing but its own entries below what it
sends next, unless the peer is in its term. -/
def NextOk (terms : Fin n → Nat) (rf : Raft n C D) : Prop :=
  rf.state = .leader → ∀ q, rf.currentTerm ≤ terms q ∨
    ∀ e ∈ rf.logs, rf.nextIndex q ≤ e.index → e.term = rf.currentTerm

/-- A message tells the truth about the term of its server. -/
def Rpc.TermOk (terms : Fin n → Nat) (m : Rpc n C D) : Prop :=
  match m.payload with
  | .appendRep args reply => reply.success = true ∨ reply.term ≤ args.term →
      args.term ≤ terms m.server
  | .snapReq args => args.term ≤ terms m.server ∨ args.lastIncludedTerm = args.term
  | .snapRep args reply => reply.term ≤ args.term → args.term ≤ terms m.server
  | _ => True

/-- The terms of all peers. -/
def Cluster.terms (s : Cluster n C D) (q : Fin n) : Nat := (s.proc q).rf.currentTerm

structure Prompt (s : Cluster n C D) : Prop where
  synced : ∀ q, (s.proc q).rf.persister.state = (s.proc q).rf.raftState
  next : ∀ q, NextOk s.terms (s.proc q).rf
  net : ∀ m ∈ s.net, m.TermOk s.terms

section Mono
variable {terms terms' : Fin n → Nat}

theorem NextOk.mono {rf : Raft n C D} (h : NextOk terms rf) (hle : ∀ q, terms q ≤ terms' q) :
    NextOk terms' rf := by
  intro hs q
  rcases h hs q with h | h
  · exact Or.inl (h.trans (hle q))
  · exact Or.inr h

theorem NextOk.of_ne {rf : Raft n C D} (h : rf.state ≠ .leader) : NextOk terms rf :=
  fun hs => absurd hs h

/-- Nothing that a leader's `nextIndex` depends on changed. -/
theorem NextOk.same {rf rf' : Raft n C D} (h : NextOk terms rf) (hs : rf'.state = rf.state)
    (ht : rf'.currentTerm = rf.currentTerm) (hn : rf'.nextIndex = rf.nextIndex)
    (hl : rf'.logs = rf.logs) : NextOk terms rf' := by
  unfold NextOk
  rw [hs, ht, hn, hl]
  exact h

theorem Rpc.TermOk.mono {m : Rpc n C D} (h : m.TermOk terms) (hle : ∀ q, terms q ≤ terms' q) :
    m.TermOk terms' := by
  unfold Rpc.TermOk at h ⊢
  split <;> rename_i heq <;> simp only [heq] at h
  · exact fun hr => (h hr).trans (hle _)
  · exact h.imp_left fun h => h.trans (hle _)
  · exact fun hr => (h hr).trans (hle _)
  · trivial

end Mono

/-! ## One process steps -/

/-- A step of one peer that saves what it changes and keeps or raises its term. -/
structure Advance (terms : Fin n → Nat) (rf rf' : Raft n C D) : Prop where
  synced : rf'.persister.state = rf'.raftState
  term : rf.currentTerm ≤ rf'.currentTerm
  next : NextOk terms rf'

/-- `t` is prompt and no peer went back to an earlier term. -/
def Prompt.To (s t : Cluster n C D) : Prop := Prompt t ∧ ∀ q, s.terms q ≤ t.terms q

theorem Prompt.set (h : Prompt s) {me : Fin n} {p : Process n C D} {net : List (Rpc n C D)}
    (ha : Advance s.terms (s.proc me).rf p.rf)
    (hnet : ∀ m ∈ net, m.TermOk (s.set me p net).terms) : Prompt.To s (s.set me p net) := by
  have hle : ∀ q, s.terms q ≤ (s.set me p net).terms q := by
    intro q
    unfold Cluster.terms Cluster.set
    by_cases hq : q = me
    · subst hq; simpa using ha.term
    · simp [hq]
  refine ⟨⟨fun q => ?_, fun q => ?_, hnet⟩, hle⟩
  · by_cases hq : q = me
    · subst hq; simpa [Cluster.set] using ha.synced
    · simpa [Cluster.set, hq] using h.synced q
  · by_cases hq : q = me
    · subst hq; simpa [Cluster.set] using ha.next.mono hle
    · simpa [Cluster.set, hq] using (h.next q).mono hle

/-- The messages left are still right about terms. -/
theorem Prompt.net_set (h : Prompt s) {me : Fin n} {p : Process n C D} {net : List (Rpc n C D)}
    (ht : (s.proc me).rf.currentTerm ≤ p.rf.currentTerm) {m : Rpc n C D} (hm : m ∈ s.net) :
    m.TermOk (s.set me p net).terms := by
  refine (h.net m hm).mono fun q => ?_
  unfold Cluster.terms Cluster.set
  by_cases hq : q = me
  · subst hq; simpa using ht
  · simp [hq]

section Advances
variable {terms : Fin n → Nat} {rf : Raft n C D}

theorem Advance.refl (h : rf.persister.state = rf.raftState) (hn : NextOk terms rf) :
    Advance terms rf rf := ⟨h, le_rfl, hn⟩

theorem advance_stepDown (h : rf.persister.state = rf.raftState) (hn : NextOk terms rf) (T : Nat) :
    Advance terms rf (rf.updateTermAndStepDown T) := by
  rcases Nat.lt_or_ge rf.currentTerm T with hlt | hge
  · rw [updateTermAndStepDown_of_lt hlt]
    exact ⟨rfl, hlt.le, NextOk.of_ne (by simp [Raft.persistState, Raft.persist])⟩
  · rw [updateTermAndStepDown_of_le hge]
    exact .refl h hn

theorem advance_requestVote (h : rf.persister.state = rf.raftState) (hn : NextOk terms rf)
    (args : RequestVoteArgs n) : Advance terms rf (rf.requestVote args).1 := by
  have hstep := advance_stepDown h hn args.term
  unfold Raft.requestVote
  split
  · exact .refl h hn
  · simp only
    split
    · exact hstep
    · exact ⟨rfl, hstep.term, hstep.next.same rfl rfl rfl rfl⟩

theorem storeEntries_synced (h : rf.persister.state = rf.raftState) (entries : List (LogEntry C)) :
    (rf.storeEntries entries).persister.state = (rf.storeEntries entries).raftState ∧
      (rf.storeEntries entries).currentTerm = rf.currentTerm := by
  unfold Raft.storeEntries
  split
  · exact ⟨rfl, rfl⟩
  · exact ⟨h, rfl⟩

theorem advanceCommit_synced (h : rf.persister.state = rf.raftState) (i : Nat) :
    (rf.advanceCommit i).persister.state = (rf.advanceCommit i).raftState ∧
      (rf.advanceCommit i).currentTerm = rf.currentTerm := by
  unfold Raft.advanceCommit
  simp only
  split
  · exact ⟨h, rfl⟩
  · exact ⟨h, rfl⟩

/-- `AppendEntry` saves what it changes, and a reply that is not from a later term comes from a
server in the term of the request. -/
theorem advance_appendEntry (h : rf.persister.state = rf.raftState) (hn : NextOk terms rf)
    (args : AppendEntryArgs n C) : Advance terms rf (rf.appendEntry args).1 ∧
      ((rf.appendEntry args).2.success = true ∨ (rf.appendEntry args).2.term ≤ args.term →
        args.term ≤ (rf.appendEntry args).1.currentTerm) := by
  by_cases hcond : args.term < rf.currentTerm
  · unfold Raft.appendEntry
    rw [if_pos hcond]
    refine ⟨.refl h hn, fun hr => ?_⟩
    simp only [Raft.rejectAppendEntry, Bool.false_eq_true, false_or] at hr
    omega
  · rw [appendEntry_of_ge hcond]
    have hstep := advance_stepDown h hn args.term
    have hT : args.term ≤ (rf.updateTermAndStepDown args.term).currentTerm := by
      rcases Nat.lt_or_ge rf.currentTerm args.term with hlt | hge
      · rw [updateTermAndStepDown_of_lt hlt]; rfl
      · rw [updateTermAndStepDown_of_le hge]; exact hge
    generalize hrf : ({ rf.updateTermAndStepDown args.term with state := .follower } :
      Raft n C D) = rf₁
    have hsync : rf₁.persister.state = rf₁.raftState := by rw [← hrf]; exact hstep.synced
    have hs : rf₁.state = .follower := by rw [← hrf]
    have ht : rf.currentTerm ≤ rf₁.currentTerm ∧ args.term ≤ rf₁.currentTerm := by
      rw [← hrf]; exact ⟨hstep.term, hT⟩
    unfold Raft.appendAsFollower
    split
    · exact ⟨⟨hsync, ht.1, .of_ne (by simp [hs])⟩, fun _ => ht.2⟩
    · split
      · exact ⟨⟨hsync, ht.1, .of_ne (by simp [hs])⟩, fun _ => ht.2⟩
      · obtain ⟨hsync₂, ht₂⟩ := storeEntries_synced hsync args.entries
        obtain ⟨hsync₃, ht₃⟩ := advanceCommit_synced hsync₂ args.leaderCommit
        simp only [ht₃, ht₂]
        refine ⟨⟨hsync₃, by rw [ht₃, ht₂]; exact ht.1, .of_ne ?_⟩, fun _ => ht.2⟩
        rw [advanceCommit_state, storeEntries_state, hs]
        simp

/-- `InstallSnapShot` saves what it changes unless it raises the term for an index already
applied. -/
theorem advance_installSnapShot (h : rf.persister.state = rf.raftState) (hn : NextOk terms rf)
    {args : InstallSnapShotArgs n D}
    (hstale : args.lastIncludedIndex ≤ rf.lastApplied → args.term ≤ rf.currentTerm) :
    Advance terms rf (rf.installSnapShot args).1 ∧
      ((rf.installSnapShot args).2.term ≤ args.term →
        args.term ≤ (rf.installSnapShot args).1.currentTerm) := by
  unfold Raft.installSnapShot
  simp only
  split
  · rename_i hlt
    exact ⟨.refl h hn, fun hle => by simp only at hle; omega⟩
  · rename_i hcond
    have ht : (rf.followSnapShot args.term).currentTerm = args.term :=
      followSnapShot_currentTerm (by omega)
    split
    · rename_i hidx
      rw [followSnapShot_lastApplied] at hidx
      refine ⟨⟨?_, by rw [ht]; omega, .of_ne (by simp)⟩, fun _ => ht.ge⟩
      rw [followSnapShot_of_le (hstale hidx)]
      exact h
    · have hrep : ∀ rf : Raft n C D, (rf.replaceBySnapShot args).persister.state =
          (rf.replaceBySnapShot args).raftState ∧
          (rf.replaceBySnapShot args).currentTerm = rf.currentTerm ∧
          (rf.replaceBySnapShot args).state = rf.state := by
        intro rf
        unfold Raft.replaceBySnapShot Raft.persist
        cases args.data <;> exact ⟨rfl, rfl, rfl⟩
      obtain ⟨hsync, ht', hs⟩ := hrep (rf.followSnapShot args.term)
      refine ⟨⟨hsync, by rw [ht', ht]; omega, .of_ne ?_⟩, fun _ => by rw [ht', ht]⟩
      rw [hs, followSnapShot_state]
      simp

theorem advance_start (h : rf.persister.state = rf.raftState) (hn : NextOk terms rf)
    (hme : rf.currentTerm ≤ terms rf.me) (command : Option C) :
    Advance terms rf (rf.start command).1 := by
  unfold Raft.start
  split
  · exact .refl h hn
  · rename_i hs
    refine ⟨rfl, le_rfl, fun _ q => ?_⟩
    simp only [Raft.updateLogIndices, Raft.persistState, Raft.persist]
    by_cases hq : q = rf.me
    · exact Or.inl (hq ▸ hme)
    · rw [Function.update_of_ne hq]
      refine (hn (not_not.mp hs) q).imp_right fun hall e he hle => ?_
      rcases List.mem_append.mp he with he | he
      · exact hall e he hle
      · rw [List.mem_singleton.mp he]

/-- A leader just elected starts after every entry it has. -/
theorem advance_voteReply (h : rf.persister.state = rf.raftState) (hn : NextOk terms rf)
    (hlast : ∀ e ∈ rf.logs, e.index ≤ rf.getLatestLog.index) (hme : rf.currentTerm ≤ terms rf.me)
    (votes : Nat) (args : RequestVoteArgs n) (reply : RequestVoteReply) :
    Advance terms rf (rf.handleVoteReply votes args reply).1 := by
  unfold Raft.handleVoteReply
  split
  · split
    · split
      · unfold Raft.changeState
        split
        · exact .refl h hn
        · refine ⟨h, le_rfl, fun _ q => ?_⟩
          simp only [Raft.updateLogIndices]
          by_cases hq : q = rf.me
          · exact Or.inl (hq ▸ hme)
          · right
            intro e he hle
            rw [Function.update_of_ne hq] at hle
            have := hlast e he
            omega
      · exact .refl h hn
    · split
      · exact advance_stepDown h hn reply.term
      · exact .refl h hn
  · exact .refl h hn

/-- Moving `nextIndex` of a peer that is in the term of the leader. -/
theorem NextOk.update {rf' : Raft n C D} (hn : NextOk terms rf) {q : Fin n}
    (hq : rf.currentTerm ≤ terms q) (hs : rf'.state = rf.state)
    (ht : rf'.currentTerm = rf.currentTerm) (hl : rf'.logs = rf.logs)
    (hother : ∀ j, j ≠ q → rf'.nextIndex j = rf.nextIndex j) : NextOk terms rf' := by
  intro hlead j
  rw [ht, hl]
  by_cases hj : j = q
  · exact Or.inl (hj ▸ hq)
  · rw [hother j hj]
    exact hn (hs ▸ hlead) j

theorem advance_appendReply (h : rf.persister.state = rf.raftState) (hn : NextOk terms rf)
    {peer : Fin n} {args : AppendEntryArgs n C} {reply : AppendEntryReply}
    (hpeer : reply.success = true ∨ reply.term ≤ args.term → args.term ≤ terms peer) :
    Advance terms rf (rf.handleAppendReply peer args reply) := by
  unfold Raft.handleAppendReply
  split
  · exact .refl h hn
  · rename_i hvalid
    obtain ⟨-, ht⟩ : rf.state = .leader ∧ rf.currentTerm = args.term := by
      simpa [Raft.isValidLeader] using hvalid
    split
    · split
      · exact advance_stepDown h hn reply.term
      · refine ⟨h, le_rfl, hn.update (q := peer) ?_ rfl rfl rfl fun q hq => ?_⟩
        · rw [ht]
          exact hpeer (Or.inr (by omega))
        · simp [Raft.rollBackToConflictTerm, hq]
    · rename_i hsucc
      have hp : rf.currentTerm ≤ terms peer := by
        rw [ht]
        exact hpeer (Or.inl (by simpa using hsucc))
      have hup : NextOk terms (rf.updateLogIndices peer (args.prevLogIndex + args.entries.length)) :=
        hn.update hp rfl rfl rfl fun q hq => by simp [Raft.updateLogIndices, hq]
      obtain ⟨i, -, heq⟩ := acceptNewLogEntries_eq rf peer args
      rw [heq]
      exact ⟨h, le_rfl, hup.same rfl rfl rfl rfl⟩

theorem advance_snapShotReply (h : rf.persister.state = rf.raftState) (hn : NextOk terms rf)
    {peer : Fin n} {args : InstallSnapShotArgs n D} {reply : InstallSnapShotReply}
    (hpeer : reply.term ≤ args.term → args.term ≤ terms peer) :
    Advance terms rf (rf.handleSnapShotReply peer args reply) := by
  unfold Raft.handleSnapShotReply
  split
  · rename_i hvalid
    split
    · exact advance_stepDown h hn reply.term
    · refine ⟨h, le_rfl, hn.update (q := peer) ?_ rfl rfl rfl fun q hq => ?_⟩
      · rw [hvalid.2]
        exact hpeer (by omega)
      · simp [Raft.updateLogIndices, hq]
  · exact .refl h hn

/-- Compacting keeps the terms of the indices that stay. -/
theorem advance_snapshot (h : rf.persister.state = rf.raftState) (hn : NextOk terms rf)
    (hlen : ∀ i, rf.getFirstLog.index ≤ i → i ≤ rf.getLatestLog.index →
      i - rf.getFirstLog.index < rf.logs.length) (index : Nat) (data : D) :
    Advance terms rf (rf.snapshot index data) := by
  unfold Raft.snapshot
  simp only
  split
  · exact .refl h hn
  · rename_i hc
    refine ⟨rfl, le_rfl, fun hs q => (hn hs q).imp_right fun hall e he hle => ?_⟩
    have hlt := hlen index (by omega) (by omega)
    have hdrop := List.drop_eq_getElem_cons hlt
    simp only [Raft.persist, hdrop, List.headD_cons, List.tail_cons, List.mem_cons] at he
    rcases he with rfl | he
    · exact hall rf.logs[index - rf.getFirstLog.index] (List.getElem_mem hlt) hle
    · exact hall e (List.mem_of_mem_drop he) hle

theorem advance_applier (h : rf.persister.state = rf.raftState) (hn : NextOk terms rf) :
    Advance terms rf rf.applier.1 := by
  have hsame : rf.applier.1.persister = rf.persister ∧ rf.applier.1.raftState = rf.raftState ∧
      rf.applier.1.state = rf.state ∧ rf.applier.1.nextIndex = rf.nextIndex := by
    unfold Raft.applier
    split
    · exact ⟨rfl, rfl, rfl, rfl⟩
    · simp only
      repeat (split <;> try exact ⟨rfl, rfl, rfl, rfl⟩)
  obtain ⟨hp, hr, hs, hx⟩ := hsame
  have ht := congrArg RaftState.currentTerm hr
  exact ⟨by rw [hp, hr]; exact h, ht.ge, hn.same hs ht hx (congrArg RaftState.logs hr)⟩

end Advances

/-! ## Events -/

/-- A snapshot request with a newer term than the peer's is for an index it has not applied. -/
theorem Coupled.snapReq_fresh (h : Coupled svc s g) {m : Rpc n C D} (hm : m ∈ s.net)
    {args : InstallSnapShotArgs n D} (hp : m.payload = .snapReq args) (hok : m.TermOk s.terms)
    (hidx : args.lastIncludedIndex ≤ (s.proc m.server).rf.lastApplied) :
    args.term ≤ (s.proc m.server).rf.currentTerm := by
  have hn := h.node m.server
  have hreq := h.net m hm
  unfold RpcOk at hreq
  simp only [Rpc.TermOk, hp] at hok hreq
  rcases hok with hle | hown
  · exact hle
  · -- the snapshot ends in an entry of the leader's term, which the peer has applied
    obtain ⟨hled, hlen, hterm, hagreed, -⟩ := hreq
    have happ := hn.log.applied_le
    have hcov := hn.covers h.inv hagreed.agreed (by rw [List.length_take]; omega)
    have hpos : 0 < args.term := by
      obtain ⟨⟨k, e⟩, hk⟩ := Option.ne_none_iff_exists'.mp hled
      obtain ⟨K, -, hK, -⟩ := h.inv.led_camp hk
      exact (h.inv.camp_term hK).1
    have hone : 1 ≤ args.lastIncludedIndex := by
      by_contra hzero
      obtain hz : args.lastIncludedIndex = 0 := by omega
      rw [hz, termAt_zero] at hterm
      omega
    obtain ⟨e, he, -, het⟩ := exists_entry (ℓ := (g.core.llog args.term).take args.lastIncludedIndex)
      hone (by rw [List.length_take]; omega)
    rw [termAt_take le_rfl, ← hterm, hown] at het
    rw [het]
    exact (h.inv.log_term _ e (hcov.subset he)).trans hn.dur.term_le

/-- A request is answered with everything saved, by a server in the term that the reply tells. -/
theorem Prompt.answers (h : Prompt s) (hc : Coupled svc s g) {m : Rpc n C D} (hm : m ∈ s.net)
    {rf : Raft n C D} {reply : Payload n C D}
    (hanswer : Answers (s.proc m.server).rf m.payload rf reply) :
    Advance s.terms (s.proc m.server).rf rf ∧
      Rpc.TermOk (Function.update s.terms m.server rf.currentTerm) { m with payload := reply } := by
  have hok := h.net m hm
  have hfresh : ∀ args, m.payload = .snapReq args →
      args.lastIncludedIndex ≤ (s.proc m.server).rf.lastApplied →
      args.term ≤ (s.proc m.server).rf.currentTerm := fun _ hp => hc.snapReq_fresh hm hp hok
  generalize m.payload = payload at hanswer hfresh
  cases hanswer with
  | vote args => exact ⟨advance_requestVote (h.synced _) (h.next _) args, trivial⟩
  | append args =>
    obtain ⟨ha, hr⟩ := advance_appendEntry (h.synced m.server) (h.next m.server) args
    exact ⟨ha, by simpa [Rpc.TermOk] using hr⟩
  | snapshot args =>
    obtain ⟨ha, hr⟩ := advance_installSnapShot (h.synced m.server) (h.next m.server) (hfresh args rfl)
    exact ⟨ha, by simpa [Rpc.TermOk] using hr⟩

theorem Prompt.receives (h : Prompt s) (hc : Coupled svc s g) {m : Rpc n C D} (hm : m ∈ s.net)
    {p : Process n C D} (hreceive : Receives m.server (s.proc m.caller) m.payload p) :
    Advance s.terms (s.proc m.caller).rf p.rf := by
  have hn := hc.node m.caller
  have hok := h.net m hm
  unfold Rpc.TermOk at hok
  generalize m.payload = payload at hreceive hok
  cases hreceive with
  | vote args reply =>
    refine advance_voteReply (h.synced _) (h.next _) (fun e he => ?_) ?_ _ args reply
    · rw [hn.log.logs] at he
      rw [hn.log.latest.1]
      exact (mem_compact hn.log.first_len he).2.1
    · rw [hn.self]
      rfl
  | append args reply => exact advance_appendReply (h.synced _) (h.next _) hok
  | snapshot args reply => exact advance_snapShotReply (h.synced _) (h.next _) hok

/-- A snapshot that a leader sends ends in its own term, or goes to a peer in that term. -/
theorem Prompt.sendSnapshot (h : Prompt s) (hc : Coupled svc s g) {me peer : Fin n}
    {args : InstallSnapShotArgs n D}
    (hsend : (s.proc me).rf.doSendAppendEntry peer = some (.snapshot args)) :
    (⟨me, (s.proc me).incarnation, peer, .snapReq args⟩ : Rpc n C D).TermOk s.terms := by
  obtain ⟨hs, hnext, rfl⟩ := doSendAppendEntry_snapshot hsend
  refine (h.next me hs peer).imp_right fun hall => hall _ ?_ hnext
  rw [Raft.getFirstLog, (hc.node me).log.logs]
  exact List.mem_cons_self

theorem prompt_exec (h : Prompt s) (hc : Coupled svc s g) {e : Event n C D}
    (ht : s.exec e = some t) : Prompt.To s t := by
  have hlocal : ∀ {me : Fin n} {p : Process n C D}, Advance s.terms (s.proc me).rf p.rf →
      Prompt.To s (s.set me p s.net) := fun ha => h.set ha fun m hm => h.net_set ha.term hm
  have hnet : ∀ {net : List (Rpc n C D)}, (∀ m ∈ net, m.TermOk s.terms) →
      Prompt.To s { s with net := net } := fun hok => ⟨⟨h.synced, h.next, hok⟩, fun _ => le_rfl⟩
  have hrest : ∀ {k : Nat} {m : Rpc n C D}, m ∈ s.net.eraseIdx k → m ∈ s.net :=
    fun hm => List.mem_of_mem_eraseIdx hm
  cases exec_cases ht with
  | electionTimeout me =>
    have ha : Advance s.terms (s.proc me).rf (s.proc me).rf.electionTimeout.1 := by
      rw [electionTimeout_eq]
      exact ⟨rfl, Nat.le_succ _, .of_ne (by simp [Raft.persistState, Raft.persist])⟩
    refine h.set ha fun m hm => ?_
    rcases List.mem_append.mp hm with hm | hm
    · obtain ⟨peer, -, rfl⟩ := List.mem_map.mp hm
      trivial
    · exact h.net_set ha.term hm
  | start me command =>
    refine hlocal (advance_start (h.synced me) (h.next me) ?_ command)
    rw [(hc.node me).self]
    rfl
  | sendAppend me peer args hne hsend => exact hnet (List.forall_mem_cons.mpr ⟨trivial, h.net⟩)
  | sendSnapshot me peer args hne hsend =>
    exact hnet (List.forall_mem_cons.mpr ⟨h.sendSnapshot hc hsend, h.net⟩)
  | request k m rf reply hm hanswer =>
    obtain ⟨ha, hr⟩ := h.answers hc (List.mem_of_getElem? hm) hanswer
    refine h.set ha fun m' hm' => ?_
    rcases List.mem_cons.mp hm' with rfl | hm'
    · refine hr.mono fun q => ?_
      unfold Cluster.terms Cluster.set
      by_cases hq : q = m.server
      · subst hq; simp
      · simp [hq]
    · exact h.net_set ha.term (hrest hm')
  | reply k m p hm hlife hreceive =>
    have ha := h.receives hc (List.mem_of_getElem? hm) hreceive
    exact h.set ha fun m' hm' => h.net_set ha.term (hrest hm')
  | stale k m hm hlife => exact hnet fun m' hm' => h.net m' (hrest hm')
  | lose k => exact hnet fun m' hm' => h.net m' (hrest hm')
  | snapshot me index data =>
    have hn := (hc.node me).log
    refine hlocal (advance_snapshot (h.synced me) (h.next me) (fun i h₁ h₂ => ?_) index data)
    rw [hn.first] at h₁ ⊢
    rw [hn.latest.1] at h₂
    rw [hn.shows.length]
    simp only at h₁ ⊢
    omega
  | applier me hsending => exact hlocal (advance_applier (h.synced me) (h.next me))
  | deliver me msg hsending => exact hlocal (.refl (h.synced me) (h.next me))

/-! ## Crashes -/

theorem Prompt.restart (h : Prompt s) {me : Fin n} {ps : Persister n C D} {net : List (Rpc n C D)}
    (ht : (s.proc me).rf.currentTerm ≤ ps.state.currentTerm) (hsub : net.Sublist s.net) :
    Prompt (s.restart me ps net) := by
  obtain ⟨hp, hs⟩ := persister_make me ps
  have hr := raftState_make me ps
  have hterm : (Raft.make me ps).currentTerm = ps.state.currentTerm :=
    congrArg RaftState.currentTerm hr
  have hle : (s.proc me).rf.currentTerm ≤ (Raft.make me ps).currentTerm := by
    rw [hterm]; exact ht
  refine (h.set ⟨?_, hle, .of_ne ?_⟩ fun m hm => h.net_set hle (hsub.subset hm)).1
  · show (Raft.make me ps).persister.state = (Raft.make me ps).raftState
    rw [hp, hr]
  · show (Raft.make me ps).state ≠ .leader
    rw [hs]
    simp

/-- Whatever part of the saves of an event is left, it is not from an earlier term. -/
theorem term_of_part {rf rf' : Raft n C D} (h : rf.persister.state = rf.raftState)
    (h' : rf'.persister.state = rf'.raftState) (hle : rf.currentTerm ≤ rf'.currentTerm)
    (hsaved : Saved rf rf') {k : Nat}
    (hk : rf.persister.saves.length + k ≤ rf'.persister.saves.length) :
    rf.currentTerm ≤ (⟨rf'.persister.saves.drop k⟩ : Persister n C D).state.currentTerm := by
  have hold : (⟨rf.persister.saves⟩ : Persister n C D).state.currentTerm = rf.currentTerm :=
    congrArg RaftState.currentTerm h
  rcases Nat.eq_zero_or_pos k with rfl | hpos
  · exact hle.trans (congrArg RaftState.currentTerm h').ge
  · cases hsaved with
    | none heq => rw [heq] at hk; omega
    | one sv heq =>
      rw [heq] at hk ⊢
      obtain rfl : k = 1 := by simp at hk; omega
      exact hold.ge
    | two sv T v hT heq =>
      rw [heq] at hk ⊢
      obtain rfl | rfl : k = 1 ∨ k = 2 := by simp at hk; omega
      · exact hT.le
      · exact hold.ge

theorem prompt_step (h : Prompt s) (hc : Coupled svc s g) {a : Action n C D}
    (ht : s.step a = some t) : Prompt t := by
  cases a with
  | event e => exact (prompt_exec h hc ht).1
  | crash me =>
    obtain rfl := Option.some.inj ht
    exact h.restart (congrArg RaftState.currentTerm (h.synced me)).ge (List.Sublist.refl _)
  | crashIn me e k =>
    simp only [Cluster.step] at ht
    split at ht
    · simp at ht
    · rename_i u hu
      split at ht
      · rename_i hk
        obtain rfl := Option.some.inj ht
        obtain ⟨hpu, hle⟩ := prompt_exec h hc hu
        have hsaved : Saved (s.proc me).rf (u.proc me).rf := by
          rcases exec_proc hu with ⟨-, heq⟩ | ⟨x, p, -, heq, htouch⟩
          · rw [heq]; exact .refl _
          · rw [heq]
            by_cases hx : me = x
            · subst hx; rw [Function.update_self]; exact htouch.saved
            · rw [Function.update_of_ne hx]; exact .refl _
        exact h.restart (term_of_part (h.synced me) (hpu.synced me) (hle me) hsaved hk)
          (taken_sublist s e)
      · simp at ht

/-! ## Runs -/

theorem prompt_initial : Prompt (Cluster.initial n C D) where
  synced := fun _ => rfl
  next := fun _ => NextOk.of_ne (by
    simp [Cluster.initial, Process.boot, Raft.make, Raft.readPersist, makePersister,
      Persister.readRaftState])
  net := fun m hm => by simp [Cluster.initial] at hm

theorem Run.prompt {tr : List (Cluster n C D × Action n C D)} (h : Run svc tr s) :
    ∀ u ∈ visited tr s, Prompt u := by
  intro u hu
  have hinv : ∃ g : Ghost n C D, g.produced = (fun _ _ => True) ∧ Coupled svc u g ∧ Prompt u := by
    refine h.invariant (I := fun u => ∃ g : Ghost n C D, g.produced = (fun _ _ => True) ∧
      Coupled svc u g ∧ Prompt u) ?_ ?_ u hu
    · intro v x w ⟨g, hg, hc, hp⟩ hstep
      obtain ⟨g', -, hg', hc', -⟩ := coupled_step hc hstep.2 hstep.1 (fun _ _ _ => by rw [hg]; trivial)
      exact ⟨g', hg'.trans hg, hc', prompt_step hp hc hstep.2⟩
    · exact ⟨_, rfl, coupled_initial _, prompt_initial⟩
  obtain ⟨-, -, -, hp⟩ := hinv
  exact hp

/-- Whenever the lock is free, the persister holds the term, vote, log and snapshot position that
the peer has in memory. So a peer that crashes then comes back in the term it was in. -/
theorem saved_at_release {tr : List (Cluster n C D × Action n C D)} (h : Run svc tr s)
    {u : Cluster n C D} (hu : u ∈ visited tr s) (a : Fin n) :
    (u.proc a).rf.persister.state = (u.proc a).rf.raftState ∧
      (Raft.make a (u.proc a).rf.persister).currentTerm = (u.proc a).rf.currentTerm := by
  have hsync := (h.prompt u hu).synced a
  refine ⟨hsync, ?_⟩
  have := congrArg RaftState.currentTerm ((raftState_make a (u.proc a).rf.persister).trans hsync)
  exact this

/-- After the sample both peers have saved that they are in term 2. -/
theorem saved_at_release_sample :
    ((sampleAt (electing ++ storing ++ (committing ++ succeeding))).proc 1).rf.persister.state =
        ((sampleAt (electing ++ storing ++ (committing ++ succeeding))).proc 1).rf.raftState ∧
      (Raft.make 0
        ((sampleAt (electing ++ storing ++ (committing ++ succeeding))).proc 0).rf.persister).currentTerm =
        ((sampleAt (electing ++ storing ++ (committing ++ succeeding))).proc 0).rf.currentTerm := by
  have hrun := sample_run (electing ++ storing ++ (committing ++ succeeding)) (by decide)
  have hlast := sampleStart.after_mem_visited (electing ++ storing ++ (committing ++ succeeding)) []
  exact ⟨(saved_at_release hrun hlast 1).1, (saved_at_release hrun hlast 0).2⟩

end DistSys.Raft1
