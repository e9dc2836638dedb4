import DistSys.Raft1.Peer

/- Elections: the steps of `ticker`, `RequestVote` and the vote replies.

   A timeout is one campaign of the protocol; the vote and the term are saved
   twice on the way, but only the second save is the campaign. A granted vote is
   a ballot, cast after the term is raised durably if it was not. The reply that
   completes a majority is the election of the leader: the voters counted are
   different peers because each RPC of the election is answered once. -/
namespace DistSys.Raft1

open Lib

variable {n : Nat} {C D : Type} {svc : Service C D} {s : Cluster n C D} {g : Ghost n C D}

/-! ## Stepping down -/

theorem updateTermAndStepDown_of_le {rf : Raft n C D} {T : Nat} (h : T ≤ rf.currentTerm) :
    rf.updateTermAndStepDown T = rf := by
  unfold Raft.updateTermAndStepDown
  rw [if_neg (by omega)]

theorem updateTermAndStepDown_of_lt {rf : Raft n C D} {T : Nat} (h : rf.currentTerm < T) :
    rf.updateTermAndStepDown T = Raft.persistState
      { rf with currentTerm := T, voteFor := none, state := .follower } := by
  unfold Raft.updateTermAndStepDown
  rw [if_pos h, changeState_follower]

/-- A peer that raises its term and saves it is coupled to the raised durable term. -/
theorem NodeInv.stepDown {me : Fin n} {p : Process n C D} (h : NodeInv svc g me p) {T : Nat}
    (hT : p.rf.currentTerm < T) :
    Moves me g (g.withCore (g.core.bump me T none)) ∧
      NodeInv svc (g.withCore (g.core.bump me T none)) me
        { p with rf := p.rf.updateTermAndStepDown T } := by
  have hmv : Moves me g (g.withCore (g.core.bump me T none)) :=
    Moves.bump none (h.dur.term_le.trans_lt hT)
  rw [updateTermAndStepDown_of_lt hT]
  refine ⟨hmv, h.self, ?_, ?_, ⟨?_, ?_⟩, ?_⟩
  · exact h.log.same ⟨rfl, rfl, rfl, rfl, rfl⟩ rfl hmv.frame.ext
  · exact Durable.of_save rfl (by simp [Raft.persistState, Raft.persist, Ghost.withCore, Repl.bump])
      (by simp [Raft.persistState, Raft.persist, Ghost.withCore, Repl.bump])
      ((h.dur.saves.mono hmv.le).again h.log.head rfl)
  · intro hs; simp [Raft.persistState, Raft.persist] at hs
  · intro hs; simp [Raft.persistState, Raft.persist] at hs
  · exact h.app.same hmv.le rfl rfl rfl rfl rfl rfl

theorem updateTermAndStepDown_state {rf : Raft n C D} {T : Nat} (h : rf.currentTerm < T) :
    (rf.updateTermAndStepDown T).state = .follower := by
  rw [updateTermAndStepDown_of_lt h]; rfl

/-- A peer that sees a term not below its own enters it, durably if it is a new one. -/
theorem NodeInv.enter {me : Fin n} {p : Process n C D} (h : NodeInv svc g me p) {T : Nat}
    (hT : p.rf.currentTerm ≤ T) : ∃ g', Moves me g g' ∧ g'.core.log me = g.core.log me ∧
      NodeInv svc g' me { p with rf := p.rf.updateTermAndStepDown T } ∧
      (p.rf.updateTermAndStepDown T).currentTerm = T ∧
      ((T = p.rf.currentTerm ∧ p.rf.updateTermAndStepDown T = p.rf) ∨
        ((p.rf.updateTermAndStepDown T).state = .follower ∧
          (p.rf.updateTermAndStepDown T).voteFor = none)) := by
  rcases Nat.eq_or_lt_of_le hT with heq | hlt
  · have hsame := updateTermAndStepDown_of_le (show T ≤ p.rf.currentTerm from heq.ge)
    exact ⟨g, Moves.refl _ _, rfl, by rw [hsame]; exact h, by rw [hsame]; exact heq,
      Or.inl ⟨heq.symm, hsame⟩⟩
  · obtain ⟨hmv, hnode⟩ := h.stepDown hlt
    refine ⟨_, hmv, rfl, hnode, ?_, Or.inr ⟨updateTermAndStepDown_state hlt, ?_⟩⟩
    · rw [updateTermAndStepDown_of_lt hlt]; rfl
    · rw [updateTermAndStepDown_of_lt hlt]; rfl

/-- A peer that is not a candidate has nothing to count. -/
theorem counted_of_ne {me : Fin n} {p : Process n C D} {net : List (Rpc n C D)}
    (h : p.rf.state ≠ .candidate) : Counted g.core me p net := fun hs => absurd hs h

/-! ## The timeout -/

theorem voteKeys_append (l₁ l₂ : List (Rpc n C D)) :
    voteKeys (l₁ ++ l₂) = voteKeys l₁ ++ voteKeys l₂ := by simp [voteKeys]

theorem voteKeys_broadcast (me : Fin n) (inc : Nat) (args : RequestVoteArgs n) :
    voteKeys (Cluster.broadcast me inc (.voteReq args) : List (Rpc n C D)) =
      ((List.finRange n).filter (· ≠ me)).map fun peer => (me, args.term, peer) := by
  unfold voteKeys Cluster.broadcast
  rw [List.filterMap_map]
  have : (Rpc.voteKey ∘ fun peer : Fin n => (⟨me, inc, peer, .voteReq args⟩ : Rpc n C D)) =
      some ∘ fun peer => (me, args.term, peer) := by
    funext peer; rfl
  rw [this, List.filterMap_eq_map]

/-- The RPCs of an election name a campaign. -/
theorem Coupled.key_camp (h : Coupled svc s g) {x : Fin n × Nat × Fin n} (hx : x ∈ voteKeys s.net) :
    ∃ K, g.core.camp x.2.1 x.1 = some K := by
  obtain ⟨m, hm, hk⟩ := List.mem_filterMap.mp hx
  have hok := h.net m hm
  unfold RpcOk at hok
  unfold Rpc.voteKey at hk
  split at hk
  · rename_i heq
    simp only [heq] at hok
    obtain ⟨-, K, hK, -⟩ := hok
    obtain rfl := Option.some.inj hk
    exact ⟨K, hK⟩
  · rename_i heq
    simp only [heq] at hok
    obtain ⟨⟨K, hK⟩, -⟩ := hok
    obtain rfl := Option.some.inj hk
    exact ⟨K, hK⟩
  · simp at hk

theorem electionTimeout_eq (rf : Raft n C D) : rf.electionTimeout =
    (Raft.persistState { Raft.persistState { rf with
        state := .candidate, currentTerm := rf.currentTerm + 1 } with voteFor := some rf.me },
      { term := rf.currentTerm + 1, candidateId := rf.me, lastLogIndex := rf.getLatestLog.index,
        lastLogTerm := rf.getLatestLog.term }) := by
  simp only [Raft.electionTimeout, changeState_candidate]
  rfl

theorem coupled_electionTimeout (h : Coupled svc s g) (me : Fin n) {t : Cluster n C D}
    (ht : s.exec (.electionTimeout me) = some t) : ∃ g', Moves me g g' ∧ Coupled svc t g' := by
  have hn := h.node me
  simp only [Cluster.exec, electionTimeout_eq, Option.some.injEq] at ht
  subst ht
  generalize hp : s.proc me = p at hn ⊢
  obtain ⟨hlast, hlastT⟩ := hn.log.latest
  have hlt : g.core.term me < p.rf.currentTerm + 1 := Nat.lt_succ_of_le hn.dur.term_le
  have hF : Frame me g.core (g.core.campaign me (p.rf.currentTerm + 1)) :=
    Frame.campaign h.inv hlt
  have hmv : Moves me g (g.withCore (g.core.campaign me (p.rf.currentTerm + 1))) :=
    Moves.single (.campaign me _ hlt) hF (.of_same rfl rfl)
  have hme : p.rf.me = me := hn.self
  have hcamp : (g.core.campaign me (p.rf.currentTerm + 1)).camp (p.rf.currentTerm + 1) me =
      some (g.core.log me) := by simp [Repl.campaign]
  -- no RPC of this election exists yet
  have hfresh : ∀ v, (me, p.rf.currentTerm + 1, v) ∉ voteKeys s.net := by
    intro v hv
    obtain ⟨K, hK⟩ := h.key_camp hv
    have := (h.inv.camp_term hK).2.1
    simp only at this
    omega
  refine ⟨_, hmv, h.set hmv.toEvolves ⟨hme, ?_, ?_, ⟨?_, ?_⟩, ?_⟩ ?_ ?_ ?_ ?_⟩
  · exact hn.log.same ⟨rfl, rfl, rfl, rfl, rfl⟩ rfl hF.ext
  · refine Durable.of_save rfl (by simp [Raft.persistState, Raft.persist, Ghost.withCore, Repl.campaign])
      (by simp [Raft.persistState, Raft.persist, Ghost.withCore, Repl.campaign, hme]) ?_
    exact ((hn.dur.saves.mono hmv.le).again hn.log.head rfl).again hn.log.head rfl
  · intro _
    refine ⟨hcamp, fun e he => ?_⟩
    have := (h.inv.led_log (show g.core.leader (p.rf.currentTerm + 1) = some (me, e) from he)).1
    omega
  · intro hs; simp [Raft.persistState, Raft.persist] at hs
  · exact hn.app.same hmv.le rfl rfl rfl rfl rfl rfl
  · intro m hm
    rcases List.mem_append.mp hm with hm | hm
    · obtain ⟨peer, -, rfl⟩ := List.mem_map.mp hm
      exact ⟨hme, g.core.log me, hcamp, hlast, hlastT⟩
    · exact (h.net m hm).mono hmv.le
  · rw [voteKeys_append, voteKeys_broadcast]
    refine List.Nodup.append ?_ h.keys ?_
    · exact ((List.nodup_finRange n).filter _).map (fun a b hab => by simpa using hab)
    · intro x hx hx'
      obtain ⟨peer, -, rfl⟩ := List.mem_map.mp hx
      exact hfresh peer hx'
  · intro x hx hne
    rw [voteKeys_append, voteKeys_broadcast] at hx
    rcases List.mem_append.mp hx with hx | hx
    · obtain ⟨peer, -, rfl⟩ := List.mem_map.mp hx
      exact absurd rfl hne
    · exact hx
  · intro _
    refine ⟨{me}, by simp, by simp, ?_, ?_⟩
    · intro v hv
      obtain rfl : v = me := by simpa using hv
      simp [Ghost.withCore, Repl.campaign, Raft.persistState, Raft.persist]
    · intro v hv hm
      obtain rfl : v = me := by simpa using hv
      rw [voteKeys_append, voteKeys_broadcast] at hm
      rcases List.mem_append.mp hm with hm | hm
      · obtain ⟨peer, hpeer, heq⟩ := List.mem_map.mp hm
        obtain rfl : peer = v := by simpa using (congrArg (fun x => x.2.2) heq)
        simp at hpeer
      · exact hfresh v hm

/-! ## RequestVote -/

/-- Casting a vote keeps what a role claims: it moves no leader, campaign, log or confirmation. -/
theorem Role.grant {me k : Fin n} {inc T : Nat} {rf rf' : Raft n C D} {c : Repl (Fin n) (Option C)}
    (h : Role c me inc rf) (hs : rf'.state = rf.state) (ht : rf'.currentTerm = rf.currentTerm)
    (hm : rf'.matchIndex = rf.matchIndex) : Role (c.grant me k T) me inc rf' where
  candidate := by rw [hs, ht]; exact h.candidate
  leader := by rw [hs, ht, hm]; exact h.leader

/-- A peer about to save: the protocol is already in the term and vote that it has in memory. -/
structure Unsaved (svc : Service C D) (g : Ghost n C D) (me : Fin n) (p : Process n C D) : Prop where
  inv : g.core.Inv
  term : g.core.term me = p.rf.currentTerm
  vote : g.core.vote me = p.rf.voteFor
  log : LogInv g.core me p.rf
  saves : Saves svc g p.rf.persister p.rf.lastIncludedIndex
  role : Role g.core me p.incarnation p.rf
  app : Applying svc g p

/-- A term that is only in memory is made durable before anything else is. -/
theorem NodeInv.unsaved {me : Fin n} {p : Process n C D} (h : NodeInv svc g me p)
    (hi : g.core.Inv) : ∃ g', Moves me g g' ∧ g'.core.log me = g.core.log me ∧
      Unsaved svc g' me p := by
  rcases h.dur.volatile with ⟨ht, hv⟩ | ⟨ht, hv, hs⟩
  · exact ⟨g, Moves.refl me g, rfl, hi, ht.symm, hv.symm, h.log, h.dur.saves, h.role, h.app⟩
  · have hmv : Moves me g (g.withCore (g.core.bump me p.rf.currentTerm none)) := Moves.bump none ht
    refine ⟨_, hmv, rfl, (hmv.steps.inv_ext hi).1, by simp [Ghost.withCore, Repl.bump],
      by simp [Ghost.withCore, Repl.bump, hv], ?_, h.dur.saves.mono hmv.le, ⟨?_, ?_⟩,
      h.app.mono hmv.le⟩
    · exact h.log.same ⟨rfl, rfl, rfl, rfl, rfl⟩ rfl hmv.frame.ext
    · intro hc; rw [hs] at hc; simp at hc
    · intro hc; rw [hs] at hc; simp at hc

/-- A vote given by a peer in the term of the request. -/
theorem NodeInv.vote {me k : Fin n} {p : Process n C D} (h : NodeInv svc g me p)
    (hi : g.core.Inv) {K : List (Entry (Option C))} (hK : g.core.camp p.rf.currentTerm k = some K)
    (hv : p.rf.voteFor = none ∨ p.rf.voteFor = some k) (hup : UpToDate K (g.core.log me)) :
    ∃ g', Moves me g g' ∧ g'.core.ballot me p.rf.currentTerm = some k ∧
      NodeInv svc g' me { p with rf := Raft.persistState { p.rf with voteFor := some k } } := by
  obtain ⟨g₁, hmv₁, hsame, hu⟩ := h.unsaved hi
  have hv' : g₁.core.vote me = none ∨ g₁.core.vote me = some k := by rw [hu.vote]; exact hv
  have hF : Frame me g₁.core (g₁.core.grant me k p.rf.currentTerm) := Frame.grant hu.inv hu.term hv'
  have hmv₂ : Moves me g₁ (g₁.withCore (g₁.core.grant me k p.rf.currentTerm)) :=
    Moves.single (.grant me k _ K hu.term hv' (hmv₁.frame.ext.camp hK) (hsame ▸ hup)) hF
      (.of_same rfl rfl)
  refine ⟨_, hmv₁.trans hmv₂, by simp [Ghost.withCore, Repl.grant], h.self, ?_, ?_, ?_, ?_⟩
  · exact hu.log.same ⟨rfl, rfl, rfl, rfl, rfl⟩ rfl hF.ext
  · refine Durable.of_save rfl ?_ ?_ ((hu.saves.mono hmv₂.le).again hu.log.head rfl)
    · exact hu.term.symm
    · simp [Raft.persistState, Raft.persist, Ghost.withCore, Repl.grant]
  · exact hu.role.grant rfl rfl rfl
  · exact hu.app.same hmv₂.le rfl rfl rfl rfl rfl rfl

theorem coupled_requestVote (h : Coupled svc s g) {m : Rpc n C D} {rest : List (Rpc n C D)}
    (hperm : (m :: rest).Perm s.net) {args : RequestVoteArgs n} (hm : m.payload = .voteReq args) :
    ∃ g', Moves m.server g g' ∧ Coupled svc (s.handle m rest) g' := by
  have hn := h.node m.server
  have hok := h.net m (hperm.subset List.mem_cons_self)
  unfold RpcOk at hok
  simp only [hm] at hok
  obtain ⟨hcand, K, hK, hlen, hterm⟩ := hok
  simp only [Cluster.handle, hm]
  have hkey : ∀ reply, Rpc.voteKey (⟨m.caller, m.incarnation, m.server, .voteRep args reply⟩ : Rpc n C D) =
      m.voteKey := by
    intro reply
    simp [Rpc.voteKey, hm]
  have hrej : ∀ {g' : Ghost n C D} {reply : RequestVoteReply}, g ≤ g' → reply.voteGranted = false →
      RpcOk svc g' { m with payload := .voteRep args reply } := by
    intro g' reply hg hr
    exact ⟨⟨K, hg.1.camp hK⟩, fun hgr => by simp [hr] at hgr⟩
  generalize hp : s.proc m.server = p at hn
  unfold Raft.requestVote
  split
  · exact ⟨g, Moves.refl _ _, h.answered hperm (Moves.refl _ _) (by rw [hp]; exact hn)
      (hrej le_rfl rfl) (hkey _) (fun hs => ⟨by rw [hp]; exact hs, by rw [hp]⟩)⟩
  · rename_i hcond
    obtain ⟨g₁, hmv₁, -, hn₁, ht₁, hcase⟩ := hn.enter (T := args.term) (by omega)
    have hv₁ : (p.rf.updateTermAndStepDown args.term).voteFor = none ∨
        (p.rf.updateTermAndStepDown args.term).voteFor = some args.candidateId := by
      rcases hcase with ⟨heq, hsame⟩ | ⟨-, hv⟩
      · rw [hsame]
        by_contra hv
        exact hcond (Or.inr ⟨heq, fun h0 => hv (Or.inl h0), fun h1 => hv (Or.inr h1)⟩)
      · exact Or.inl hv
    have hc₁ : (p.rf.updateTermAndStepDown args.term).state = .candidate →
        p.rf.state = .candidate ∧
          (p.rf.updateTermAndStepDown args.term).currentTerm = p.rf.currentTerm := by
      intro hs
      rcases hcase with ⟨-, hsame⟩ | ⟨hf, -⟩
      · rw [hsame] at hs ⊢; exact ⟨hs, rfl⟩
      · rw [hf] at hs; simp at hs
    generalize hrf : p.rf.updateTermAndStepDown args.term = rf at *
    have hc : rf.state = .candidate → (s.proc m.server).rf.state = .candidate ∧
        rf.currentTerm = (s.proc m.server).rf.currentTerm := by rw [hp]; exact hc₁
    simp only
    split
    · exact ⟨g₁, hmv₁, h.answered hperm hmv₁ (by rw [hp]; exact hn₁) (hrej hmv₁.le rfl) (hkey _) hc⟩
    · rename_i hup
      have hK₁ : g₁.core.camp rf.currentTerm m.caller = some K := by
        rw [ht₁]; exact hmv₁.frame.ext.camp hK
      have hup' : UpToDate K (g₁.core.log m.server) := by
        rw [← hn₁.log.shows.isLogUpdateToDate]
        simpa [hlen, hterm] using hup
      obtain ⟨g₂, hmv₂, hb, hn₂⟩ := hn₁.vote (hmv₁.steps.inv_ext h.inv).1 hK₁ (hcand ▸ hv₁) hup'
      have hmv := hmv₁.trans hmv₂
      refine ⟨g₂, hmv, h.answered hperm hmv (by rw [hp, hcand]; exact hn₂) ?_ (hkey _) hc⟩
      refine ⟨⟨K, hmv.frame.ext.camp hK⟩, fun _ => ?_⟩
      rw [← ht₁]
      exact hb

/-! ## The replies to a campaign -/

theorem coupled_voteReply (h : Coupled svc s g) {m : Rpc n C D} {rest : List (Rpc n C D)}
    (hperm : (m :: rest).Perm s.net) {args : RequestVoteArgs n} {reply : RequestVoteReply}
    (hm : m.payload = .voteRep args reply) :
    ∃ g', Moves m.caller g g' ∧ Coupled svc (s.handle m rest) g' := by
  have hn := h.node m.caller
  have hok := h.net m (hperm.subset List.mem_cons_self)
  unfold RpcOk at hok
  simp only [hm] at hok
  obtain ⟨-, hgranted⟩ := hok
  have hlost : Coupled svc { s with net := rest } g := by
    have := h.replied hperm (Moves.refl _ _) hn
      ((h.counted m.caller).keep (Repl.Ext.refl _) (fun hs => ⟨hs, rfl, rfl⟩) (voteKeys_rest hperm))
    simpa [Cluster.set] using this
  simp only [Cluster.handle, hm, Cluster.handleReply]
  split
  · generalize hp : s.proc m.caller = p at hn
    have hsame : Coupled svc (s.set m.caller p rest) g := by
      have : s.set m.caller p rest = { s with net := rest } := by simp [Cluster.set, ← hp]
      rw [this]; exact hlost
    unfold Raft.handleVoteReply
    split
    · rename_i hvalid
      obtain ⟨hs, ht⟩ : p.rf.state = .candidate ∧ p.rf.currentTerm = args.term := by
        simpa [Raft.isValidCandidate] using hvalid
      split
      · rename_i hg
        have hb := hgranted hg
        obtain ⟨S, hmeS, hcard, hbal, hnot⟩ := by simpa only [hp] using h.counted m.caller (by rw [hp]; exact hs)
        -- the voter is a new one, and its RPC is gone
        have hkeym : (m.caller, p.rf.currentTerm, m.server) ∈ voteKeys s.net :=
          List.mem_filterMap.mpr ⟨m, hperm.subset List.mem_cons_self, by simp [Rpc.voteKey, hm, ht]⟩
        have hnew : m.server ∉ S := fun hin => hnot _ hin hkeym
        have hgone : (m.caller, p.rf.currentTerm, m.server) ∉ voteKeys rest := by
          have hnd := h.keys_rest hperm
          simp only [voteKeys, List.filterMap_cons, Rpc.voteKey, hm] at hnd
          rw [ht]
          exact (List.nodup_cons.mp hnd).1
        have hbal' : ∀ v ∈ insert m.server S, g.core.ballot v p.rf.currentTerm = some m.caller := by
          intro v hv
          rcases Finset.mem_insert.mp hv with rfl | hv
          · rw [ht]; exact hb
          · exact hbal v hv
        have hcard' : (insert m.server S).card = p.grantedVotes + 1 := by
          rw [Finset.card_insert_of_notMem hnew, hcard]
        split
        · rename_i hmaj
          obtain ⟨hcamp, hnotled⟩ := hn.role.candidate hs
          have hQ : IsMajority (insert m.server S) := by
            unfold IsMajority
            rw [hcard', Fintype.card_fin]
            omega
          have hnone : g.core.leader p.rf.currentTerm = none := by
            by_contra hsome
            obtain ⟨⟨k, e⟩, hk⟩ := Option.ne_none_iff_exists'.mp hsome
            obtain rfl := Repl.leader_unique h.inv hQ hbal' hk
            exact hnotled e hk
          have htm := (hn.dur.in_term (by rw [hs]; simp)).1
          have hF : Frame m.caller g.core (g.core.lead m.caller p.rf.currentTerm p.incarnation) :=
            Frame.lead h.inv hnone
          have hmv : Moves m.caller g
              (g.withCore (g.core.lead m.caller p.rf.currentTerm p.incarnation)) :=
            Moves.single (.lead m.caller _ _ _ htm.symm hcamp hnone hQ hbal') hF
              (Repl.quiet_lead h.inv hnone)
          have hstate : p.rf.changeState .leader = Raft.updateLogIndices
              { p.rf with
                state := .leader
                nextIndex := fun _ => p.rf.getLatestLog.index + 1
                matchIndex := fun _ => 0 }
              p.rf.me p.rf.getLatestLog.index := by
            simp [Raft.changeState, hs]
          simp only [hstate]
          refine ⟨_, hmv, h.replied hperm hmv ⟨hn.self, ?_, ?_, ⟨?_, ?_⟩, ?_⟩ ?_⟩
          · exact hn.log.same ⟨rfl, rfl, rfl, rfl, rfl⟩ rfl hF.ext
          · have hd := hn.dur
            exact ⟨hd.term, hd.vote, hd.logs, hd.index, hd.lastTerm, hd.saves.mono hmv.le,
              Or.inl (hd.in_term (by rw [hs]; simp))⟩
          · intro hc; simp [Raft.updateLogIndices] at hc
          · intro _
            refine ⟨by simp [Raft.updateLogIndices, Ghost.withCore, Repl.lead], fun q => ?_⟩
            simp only [Raft.updateLogIndices, Ghost.withCore, Repl.lead, hn.self]
            by_cases hq : q = m.caller
            · subst hq; simp [hn.log.latest.1]
            · simp [hq]
          · exact hn.app.same hmv.le rfl rfl rfl rfl rfl rfl
          · exact counted_of_ne (by simp [Raft.updateLogIndices])
        · refine ⟨g, Moves.refl _ _, h.replied hperm (Moves.refl _ _) ?_ ?_⟩
          · exact ⟨hn.self, hn.log, hn.dur, hn.role, hn.app.same le_rfl rfl rfl rfl rfl rfl rfl⟩
          · intro _
            refine ⟨insert m.server S, Finset.mem_insert_of_mem hmeS, hcard', hbal', fun v hv hk => ?_⟩
            rcases Finset.mem_insert.mp hv with rfl | hv
            · exact hgone hk
            · exact hnot v hv (voteKeys_rest hperm _ hk)
      · split
        · rename_i hlt
          obtain ⟨hmv, hnode⟩ := hn.stepDown hlt
          refine ⟨_, hmv, h.replied hperm hmv hnode (counted_of_ne ?_)⟩
          rw [updateTermAndStepDown_state hlt]
          simp
        · exact ⟨g, Moves.refl _ _, hsame⟩
    · exact ⟨g, Moves.refl _ _, hsame⟩
  · exact ⟨g, Moves.refl _ _, hlost⟩

end DistSys.Raft1
