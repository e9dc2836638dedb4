import DistSys.Raft1.Tracked

/- Handling a message, in the cluster and in Raft without compaction.

     `AppendEntry` before the first log index   the term is taken over, the request dropped
     `AppendEntry` otherwise                    the same
     `InstallSnapShot`                          `AppendEntry` of the entries covered
     a reply to an append                       the same, or nothing if only `nextIndex` moves
     the reply to a snapshot                    the reply to that `AppendEntry` -/
namespace DistSys.Raft1

open Lib

variable {n : Nat} {C D : Type} {svc : Service C D} {s t a : Cluster n C D} {g g' : Ghost n C D}

/-! ## Requests -/

/-- The protocol handles the message that stands for one of the cluster. -/
theorem Tracked.handles (h : Tracked g s a) {k : Nat} {m m' : Rpc n C D} (hm : s.net[k]? = some m)
    (hp : plainRpc g.core m = some m') : ∃ k', a.net[k']? = some m' ∧
      a.net.eraseIdx k' = (s.net.eraseIdx k).filterMap (plainRpc g.core) ∧
      a.plainExec (.handle k') =
        some (a.handle m' ((s.net.eraseIdx k).filterMap (plainRpc g.core))) := by
  obtain ⟨k', h₁, h₂⟩ := filterMap_eraseIdx hp hm
  rw [← h.net] at h₁ h₂
  refine ⟨k', h₁, h₂, ?_⟩
  simp only [Cluster.plainExec, Cluster.exec, h₁, Option.map_some, h₂]

theorem Coupled.plainRpc_rest (hc : Coupled svc s g) (hg : g ≤ g') (k : Nat) :
    (s.net.eraseIdx k).filterMap (plainRpc g'.core) =
      (s.net.eraseIdx k).filterMap (plainRpc g.core) :=
  hc.plainRpc_ext hg fun _ hm => List.mem_of_mem_eraseIdx hm

/-- A request answered on both sides. -/
theorem Tracked.answered {k : Nat} {m m' : Rpc n C D} {rf qf : Raft n C D}
    {reply reply' : Payload n C D} {L : List (Entry (Option C))} (h : Tracked g s a)
    (hc : Coupled svc s g) (hm : s.net[k]? = some m) (hp : plainRpc g.core m = some m')
    (hmv : Moves m.server g g')
    (hc' : Coupled svc (s.handleRequest m rf reply (s.net.eraseIdx k)) g')
    (ha : ∀ rest, a.handle m' rest = a.handleRequest m qf reply' rest)
    (tw : Twin L rf qf) (hsrc : g.core.Sourced (L.take rf.lastIncludedIndex))
    (hset : rf.state = .leader → Settled L rf)
    (hr : plainRpc g'.core { m with payload := reply } = some { m with payload := reply' } ∨
      plainRpc g'.core { m with payload := reply } = none) :
    ∃ b, Reaches svc g (s.handleRequest m rf reply (s.net.eraseIdx k)) a b ∧
      (b.proc m.server).rf = qf := by
  obtain ⟨k', -, -, hexec⟩ := h.handles hm hp
  rw [ha] at hexec
  have hrest := hc.plainRpc_rest hmv.le k
  have hmove : ∀ {b : Cluster n C D}, b.proc = (a.handleRequest m qf reply'
        ((s.net.eraseIdx k).filterMap (plainRpc g.core))).proc →
      b.net = (({ m with payload := reply } :: s.net.eraseIdx k).filterMap (plainRpc g'.core)) →
      Tracked g' (s.handleRequest m rf reply (s.net.eraseIdx k)) b := by
    intro b hproc hnet
    have hv : b.proc m.server = { a.proc m.server with rf := qf } := by
      rw [hproc]; exact Function.update_self ..
    refine h.move hmv.frame hc' (fun j hj => by rw [hproc]; exact Function.update_of_ne hj ..) (L := L)
      (by rw [hv]; exact tw) hsrc ?_ ?_ hset hnet
    · rw [hv]; exact h.life m.server
    · rw [hv]; exact h.votes m.server
  have hqf : (((a.handleRequest m qf reply'
      ((s.net.eraseIdx k).filterMap (plainRpc g.core))).proc m.server).rf) = qf := by
    simp [Cluster.handleRequest, Cluster.set]
  rcases hr with hr | hr
  · refine ⟨_, ⟨plain_run_single (.handle k') hexec, g', hmv.produced, hc', hmove rfl ?_⟩, hqf⟩
    simp only [List.filterMap_cons, hr, hrest]
    rfl
  · -- the answer stands for nothing: the protocol loses it
    refine ⟨{ a.handleRequest m qf reply' ((s.net.eraseIdx k).filterMap (plainRpc g.core)) with
      net := (s.net.eraseIdx k).filterMap (plainRpc g.core) },
      ⟨⟨_, (Lts.Run.single (M := plain n C D) (a := .handle k') hexec).snoc (a := .lose 0) ?_⟩, g',
        hmv.produced, hc', hmove rfl ?_⟩, hqf⟩
    · rfl
    · simp only [List.filterMap_cons, hr, hrest]

/-- A peer that leads after `RequestVote` led before it, and nothing but its vote changed. -/
theorem Settled.requestVote {ℓ : List (Entry (Option C))} {rf : Raft n C D} {args : RequestVoteArgs n}
    (h : rf.state = .leader → Settled ℓ rf) (hs : (rf.requestVote args).1.state = .leader) :
    Settled ℓ (rf.requestVote args).1 := by
  unfold Raft.requestVote at hs ⊢
  split at hs
  · rename_i hc
    rw [if_pos hc]
    exact h hs
  · rename_i hc
    rw [if_neg hc]
    simp only at hs ⊢
    rcases Nat.lt_or_ge rf.currentTerm args.term with hlt | hge
    · split at hs
      · rw [updateTermAndStepDown_state hlt] at hs
        simp at hs
      · rw [persistState_eq] at hs
        simp only [updateTermAndStepDown_state hlt] at hs
        simp at hs
    · rw [updateTermAndStepDown_of_le hge] at hs ⊢
      split at hs
      · rename_i hu
        rw [if_pos hu]
        exact h hs
      · rename_i hu
        rw [if_neg hu]
        exact (h hs).same rfl rfl rfl rfl

theorem tracked_requestVote (h : Tracked g s a) (hc : Coupled svc s g) {k : Nat} {m : Rpc n C D}
    (hm : s.net[k]? = some m) {args : RequestVoteArgs n} (hp : m.payload = .voteReq args) :
    ∃ b, Reaches svc g (s.handle m (s.net.eraseIdx k)) a b := by
  obtain ⟨g', hmv, hc'⟩ := coupled_requestVote hc (perm_eraseIdx hm) hp
  have htwin := h.node m.server
  obtain ⟨tw, hreply⟩ := htwin.requestVote args
  simp only [Cluster.handle, hp] at hc' ⊢
  obtain ⟨b, hb, -⟩ := h.answered hc hm (show plainRpc g.core m = some m by simp [plainRpc, hp]) hmv hc'
    (fun rest => by simp only [Cluster.handle, hp]; rfl) tw (hc.sourced_take _ _)
    (Settled.requestVote (h.settled m.server))
    (Or.inl (by simp [plainRpc, hreply]))
  exact ⟨b, hb⟩

theorem appendAsFollower_rejected {rf : Raft n C D} {args : AppendEntryArgs n C}
    (h : (rf.appendAsFollower args).2.success = false) :
    (rf.appendAsFollower args).2.term = rf.currentTerm := by
  unfold Raft.appendAsFollower at h ⊢
  split
  · rfl
  · rename_i hb
    rw [if_neg hb] at h
    split
    · unfold Raft.conflictReply
      simp only
      split
      · rfl
      · split <;> rfl
    · rename_i hm
      rw [if_neg hm] at h
      simp at h

theorem adoptTerm_eq (rf : Raft n C D) (T : Nat) :
    rf.adoptTerm T = { rf.updateTermAndStepDown T with state := .follower } :=
  changeState_follower _

theorem tracked_appendEntry (h : Tracked g s a) (hc : Coupled svc s g) {k : Nat} {m : Rpc n C D}
    (hm : s.net[k]? = some m) {args : AppendEntryArgs n C} (hp : m.payload = .appendReq args) :
    ∃ b, Reaches svc g (s.handle m (s.net.eraseIdx k)) a b := by
  obtain ⟨g', hmv, hc'⟩ := coupled_appendEntry hc (perm_eraseIdx hm) hp
  have hok := hc.net m (List.mem_of_getElem? hm)
  unfold RpcOk at hok
  simp only [hp] at hok
  obtain ⟨P, hP⟩ := hok
  have htwin := h.node m.server
  have hpm : plainRpc g.core m = some m := by simp [plainRpc, hp]
  have ha : ∀ rest, a.handle m rest = a.handleRequest m ((a.proc m.server).rf.appendEntry args).1
      (.appendRep args ((a.proc m.server).rf.appendEntry args).2) rest := by
    intro rest
    simp only [Cluster.handle, hp]
  simp only [Cluster.handle, hp] at hc' ⊢
  by_cases hlt : args.term < (s.proc m.server).rf.currentTerm
  · -- an old request is rejected as it is
    have h₁ : (s.proc m.server).rf.appendEntry args =
        ((s.proc m.server).rf, (s.proc m.server).rf.rejectAppendEntry) := by
      unfold Raft.appendEntry; rw [if_pos hlt]
    have h₂ : (a.proc m.server).rf.appendEntry args =
        ((a.proc m.server).rf, (a.proc m.server).rf.rejectAppendEntry) := by
      unfold Raft.appendEntry; rw [if_pos (by rw [htwin.term]; exact hlt)]
    rw [h₁] at hc' ⊢
    rw [h₂] at ha
    obtain ⟨b, hb, -⟩ := h.answered hc hm hpm hmv hc' ha htwin (hc.sourced_take _ _)
      (h.settled m.server)
      (Or.inl (by simp [plainRpc, Raft.rejectAppendEntry, htwin.term, hlt]))
    exact ⟨b, hb⟩
  · have hle : (s.proc m.server).rf.currentTerm ≤ args.term := Nat.not_lt.mp hlt
    have hlt' : ¬ args.term < (a.proc m.server).rf.currentTerm := by rw [htwin.term]; exact hlt
    have tw₁ := (htwin.updateTermAndStepDown args.term).toFollower
    have hterm : ((s.proc m.server).rf.updateTermAndStepDown args.term).currentTerm = args.term := by
      rcases Nat.eq_or_lt_of_le hle with heq | hgt
      · rw [updateTermAndStepDown_of_le heq.ge]; exact heq
      · rw [updateTermAndStepDown_of_lt hgt]; rfl
    rw [appendEntry_of_ge hlt] at hc' ⊢
    rw [appendEntry_of_ge hlt'] at ha
    generalize hrf : ({ (s.proc m.server).rf.updateTermAndStepDown args.term with
      state := .follower } : Raft n C D) = rf at tw₁ hc' ⊢
    have hrterm : rf.currentTerm = args.term := by rw [← hrf]; exact hterm
    have hrs : rf.state = .follower := by rw [← hrf]
    have hnl : (rf.appendAsFollower args).1.state = .leader →
        ∀ L, Settled L (rf.appendAsFollower args).1 := by
      intro hs
      rw [appendAsFollower_state hrs] at hs
      simp at hs
    by_cases hb : rf.lastIncludedIndex ≤ args.prevLogIndex
    · obtain ⟨L, hL, tw, hsucc, heq⟩ := tw₁.appendAsFollower hc.inv (hc.inv.log_src m.server) hP hb
      refine (h.answered hc hm hpm hmv hc' ha tw (hL.shorten (List.take_prefix _ _))
        (fun hs => hnl hs L) ?_).imp fun b hb => hb.1
      cases hr : (rf.appendAsFollower args).2.success with
      | true =>
        left
        simp [plainRpc, hr, heq hr]
      | false =>
        right
        simp [plainRpc, hr, appendAsFollower_rejected hr, hrterm]
    · -- the previous entry is compacted away: the term is taken over and nothing else
      have hrej : rf.appendAsFollower args = (rf, { rf.rejectAppendEntry with
          conflictIndex := rf.getFirstLog.index, conflictTerm := -1 }) := by
        unfold Raft.appendAsFollower
        rw [tw₁.kept.first, if_pos (Nat.not_le.mp hb)]
      rw [hrej] at hc' hnl ⊢
      obtain ⟨k', hk', hrest', -⟩ := h.handles hm hpm
      refine ⟨a.set m.server { a.proc m.server with rf := (a.proc m.server).rf.adoptTerm args.term }
        (a.net.eraseIdx k'), plain_run_single (.adopt k') ?_, g', hmv.produced, hc', ?_⟩
      · simp only [Cluster.plainExec, hk', hp, if_neg hlt']
      · refine h.move hmv.frame hc' (fun j hj => Function.update_of_ne hj ..) (L := g.core.log m.server) ?_
          (hc.sourced_take _ _) ?_ ?_ (fun hs => hnl hs _) ?_
        · simpa [Cluster.set, adoptTerm_eq] using tw₁
        · simpa [Cluster.set] using h.life m.server
        · simpa [Cluster.set] using h.votes m.server
        · simp only [Cluster.set, List.filterMap_cons, hrest', hc.plainRpc_rest hmv.le]
          simp [plainRpc, Raft.rejectAppendEntry, hrterm]

/-- An accepted `InstallSnapShot`, against the states of the protocol around it: the request that
stands for it was under way, it holds the entries up to the snapshot's index with that index as
leader commit, and the server took it as an `AppendEntry`. -/
def Installs (x : Cluster n C D × Action n C D) (b b' : Cluster n C D) : Prop :=
  ∀ k m args, x.2 = .event (.handle k) → x.1.net[k]? = some m → m.payload = .snapReq args →
    (x.1.proc m.server).rf.currentTerm ≤ args.term →
    (x.1.proc m.server).rf.lastApplied < args.lastIncludedIndex →
    ∃ piece : AppendEntryArgs n C, { m with payload := .appendReq piece } ∈ b.net ∧
      piece.term = args.term ∧ piece.prevLogIndex = 0 ∧
      piece.entries.length = args.lastIncludedIndex ∧
      (piece.entries.getLastD default).term = args.lastIncludedTerm ∧
      piece.leaderCommit = args.lastIncludedIndex ∧
      (b'.proc m.server).rf = ((b.proc m.server).rf.appendEntry piece).1

theorem tag_getLast {P : List (Entry (Option C))} (hP : P ≠ []) :
    ((tag 0 P).getLastD default).term = termAt P P.length := by
  have h := (compact_getLast (C := C) (Nat.zero_le P.length)).2
  have hne : tag 0 P ≠ [] := fun he => hP (List.eq_nil_of_length_eq_zero (by
    rw [← tag_length 0 P, he]; rfl))
  unfold compact at h
  rw [List.drop_zero, List.getLastD_eq_getLast?, List.getLast?_cons_of_ne_nil hne] at h
  rw [List.getLastD_eq_getLast?]
  exact h

theorem tracked_installSnapShot (h : Tracked g s a) (hc : Coupled svc s g) {k : Nat} {m : Rpc n C D}
    (hm : s.net[k]? = some m) {args : InstallSnapShotArgs n D} (hp : m.payload = .snapReq args) :
    ∃ b, Reaches svc g (s.handle m (s.net.eraseIdx k)) a b ∧
      Installs (s, .event (.handle k)) a b := by
  obtain ⟨g', hmv, hc'⟩ := coupled_installSnapShot hc (perm_eraseIdx hm) hp
  have hok := hc.net m (List.mem_of_getElem? hm)
  unfold RpcOk at hok
  simp only [hp] at hok
  have hpiece : snapPiece g'.core args = snapPiece g.core args := by
    unfold snapPiece
    rw [Repl.take_ext hok.2.1 hmv.le.1]
  have ⟨_, hlen, hLterm, hagreed, _⟩ := hok
  have htwin := h.node m.server
  have hpm : plainRpc g.core m = some { m with payload := .appendReq (snapPiece g.core args) } := by
    simp [plainRpc, hp]
  have ha : ∀ rest, a.handle { m with payload := .appendReq (snapPiece g.core args) } rest =
      a.handleRequest m ((a.proc m.server).rf.appendEntry (snapPiece g.core args)).1
        (.appendRep (snapPiece g.core args)
          ((a.proc m.server).rf.appendEntry (snapPiece g.core args)).2) rest := fun _ => rfl
  -- the entries that the snapshot covers
  generalize hPdef : (g.core.llog args.term).take args.lastIncludedIndex = P at hagreed
  have hPlen : P.length = args.lastIncludedIndex := by rw [← hPdef, List.length_take]; omega
  have hPterm : args.lastIncludedTerm = termAt P P.length := by
    rw [hLterm, hPlen, ← hPdef, termAt_take le_rfl]
  have hPsrc : g.core.Sourced P := hPdef ▸ (hc.inv.llog_src _).shorten (List.take_prefix _ _)
  have hentries : (snapPiece g.core args).entries = tag 0 P := by
    unfold snapPiece; rw [hPdef]
  simp only [Cluster.handle, hp] at hc' ⊢
  -- what is said of the accepted case, from the state the server reaches
  have hinst : ∀ {b : Cluster n C D}, (b.proc m.server).rf =
      ((a.proc m.server).rf.appendEntry (snapPiece g.core args)).1 →
      Installs (s, .event (.handle k)) a b := by
    intro b hb k₁ m₁ args₁ hk₁ hm₁ hp₁ _ hlt₁
    obtain rfl : k = k₁ := by simpa using hk₁
    obtain rfl : m = m₁ := Option.some.inj (hm.symm.trans hm₁)
    obtain rfl : args = args₁ := by simpa [hp] using hp₁
    obtain ⟨k', hk', -⟩ := h.handles hm hpm
    refine ⟨snapPiece g.core args, List.mem_of_getElem? hk', rfl, rfl, ?_, ?_, rfl, hb⟩
    · rw [hentries, tag_length, hPlen]
    · rw [hentries, hPterm]
      refine tag_getLast fun hnil => ?_
      rw [hnil] at hPlen
      simp only [List.length_nil] at hPlen
      omega
  by_cases hlt : args.term < (s.proc m.server).rf.currentTerm
  · have h₁ : (s.proc m.server).rf.installSnapShot args =
        ((s.proc m.server).rf, { term := (s.proc m.server).rf.currentTerm }) := by
      unfold Raft.installSnapShot; simp only [if_pos hlt]
    have h₂ : (a.proc m.server).rf.appendEntry (snapPiece g.core args) =
        ((a.proc m.server).rf, (a.proc m.server).rf.rejectAppendEntry) := by
      unfold Raft.appendEntry
      rw [if_pos (by rw [htwin.term]; exact hlt)]
    rw [h₁] at hc' ⊢
    rw [h₂] at ha hinst
    obtain ⟨b, hb, hbs⟩ := h.answered hc hm hpm hmv hc' ha htwin (hc.sourced_take _ _)
      (h.settled m.server) (Or.inl (by
        simp [plainRpc, snapAnswer, Raft.rejectAppendEntry, htwin.term, Nat.not_le.mpr hlt, hpiece]))
    exact ⟨b, hb, hinst hbs⟩
  · have hle : (s.proc m.server).rf.currentTerm ≤ args.term := Nat.not_lt.mp hlt
    have hlt' : ¬ (snapPiece g.core args).term < (a.proc m.server).rf.currentTerm := by
      rw [htwin.term]; exact hlt
    have tw₁ := htwin.followSnapShot hle
    have hq₁ : (a.proc m.server).rf.appendEntry (snapPiece g.core args) = Raft.appendAsFollower
        { (a.proc m.server).rf.updateTermAndStepDown args.term with state := .follower }
        (snapPiece g.core args) := appendEntry_of_ge hlt'
    rw [Twin.appendAsFollower_covered tw₁.whole tw₁.base rfl rfl, hentries] at hq₁
    have hrf₁ : (s.proc m.server).rf.installSnapShot args =
        (if args.lastIncludedIndex ≤ ((s.proc m.server).rf.followSnapShot args.term).lastApplied then
          (s.proc m.server).rf.followSnapShot args.term
        else ((s.proc m.server).rf.followSnapShot args.term).replaceBySnapShot args,
        { term := (s.proc m.server).rf.currentTerm }) := by
      unfold Raft.installSnapShot
      simp only [if_neg hlt]
      split <;> rfl
    have hrs := followSnapShot_state (s.proc m.server).rf args.term
    have hrt : ((s.proc m.server).rf.followSnapShot args.term).currentTerm = args.term :=
      followSnapShot_currentTerm hle
    have hn₁ := (hc.node m.server).followSnapShot (T := args.term)
    generalize (s.proc m.server).rf.followSnapShot args.term = rf at tw₁ hrf₁ hrs hrt hn₁
    have hlog₁ : LogInv g.core m.server rf := hn₁.log
    generalize ({ (a.proc m.server).rf.updateTermAndStepDown args.term with state := .follower } :
      Raft n C D) = qf at tw₁ hq₁
    rw [hrf₁] at hc' ⊢
    simp only at hc' ⊢
    -- the reply stands for a success in the leader's term
    have hrep : ∀ {q : Raft n C D}, q.currentTerm = args.term →
        plainRpc g'.core { m with payload := .snapRep args ⟨(s.proc m.server).rf.currentTerm⟩ } =
          some { m with payload := .appendRep (snapPiece g.core args) ⟨q.currentTerm, true, 0, 0⟩ } := by
      intro q hq
      simp [plainRpc, snapAnswer, hle, hpiece, hq]
    have hcomm : (snapPiece g.core args).leaderCommit = args.lastIncludedIndex := rfl
    by_cases hstale : args.lastIncludedIndex ≤ rf.lastApplied
    · rw [if_pos hstale] at hc' ⊢
      have hle_commit : P.length ≤ rf.commitIndex := hPlen ▸ hstale.trans hlog₁.applied_le
      have hcov : P <+: g.core.log m.server := hn₁.covers hc.inv hagreed.agreed hle_commit
      have hsame := tw₁.install_stale (hc.inv.log_src m.server) hPsrc hcov hle_commit
      rw [hPlen, ← hcomm] at hsame
      rw [hsame] at hq₁
      rw [hq₁] at ha hinst
      obtain ⟨b, hb, hbs⟩ := h.answered hc hm hpm hmv hc' ha tw₁ (hc.sourced_take _ _)
        (fun hs => by rw [hrs] at hs; simp at hs) (Or.inl (hrep (tw₁.term.trans hrt)))
      exact ⟨b, hb, hinst hbs⟩
    · rw [if_neg hstale] at hc' ⊢
      have hfirst := hlog₁.first_le
      obtain ⟨L, hL, tw⟩ := tw₁.replaceBySnapShot (hc.inv.log_src m.server) hPsrc hPlen hPterm
        (by omega)
      have hterm : (rf.replaceBySnapShot args).currentTerm = args.term := by
        rw [← hrt]
        unfold Raft.replaceBySnapShot Raft.persist
        cases args.data <;> rfl
      have hst : (rf.replaceBySnapShot args).state = .follower := by
        rw [← hrs]
        unfold Raft.replaceBySnapShot Raft.persist
        cases args.data <;> rfl
      rw [← hcomm] at tw
      rw [hq₁] at ha hinst
      obtain ⟨b, hb, hbs⟩ := h.answered hc hm hpm hmv hc' ha tw (hL.shorten (List.take_prefix _ _))
        (fun hs => by rw [hst] at hs; simp at hs) (Or.inl (hrep (tw.term.trans hterm)))
      exact ⟨b, hb, hinst hbs⟩

/-! ## Replies -/

/-- A reply handled on both sides; `r` is the identity where the protocol knows nothing of it. -/
theorem Tracked.replied {k : Nat} {m : Rpc n C D} {f r : Process n C D → Process n C D}
    {b : Cluster n C D} (h : Tracked g s a) (hc : Coupled svc s g) (hmv : Moves m.caller g g')
    (hc' : Coupled svc (s.handleReply m (s.net.eraseIdx k) f) g')
    (tw : Twin (g.core.log m.caller) (f (s.proc m.caller)).rf (r (a.proc m.caller)).rf)
    (hlife : (f (s.proc m.caller)).incarnation = (s.proc m.caller).incarnation ∧
      (r (a.proc m.caller)).incarnation = (a.proc m.caller).incarnation)
    (hvotes : (r (a.proc m.caller)).grantedVotes = (f (s.proc m.caller)).grantedVotes)
    (hset : (f (s.proc m.caller)).rf.state = .leader →
      Settled (g.core.log m.caller) (f (s.proc m.caller)).rf)
    (hproc : b.proc = (a.handleReply m [] r).proc)
    (hnet : b.net = (s.net.eraseIdx k).filterMap (plainRpc g.core)) :
    Tracked g' (s.handleReply m (s.net.eraseIdx k) f) b := by
  have hnet' : b.net = (s.net.eraseIdx k).filterMap (plainRpc g'.core) := by
    rw [hc.plainRpc_rest hmv.le]; exact hnet
  unfold Cluster.handleReply at hc' hproc ⊢
  rw [h.life] at hproc
  split at hc'
  · rename_i hinc
    rw [if_pos hinc] at hproc ⊢
    have hv : b.proc m.caller = r (a.proc m.caller) := by
      rw [hproc]; exact Function.update_self ..
    refine h.move hmv.frame hc' (fun j hj => by rw [hproc]; exact Function.update_of_ne hj ..)
      (by rw [hv]; exact tw) (hc.sourced_take _ _) ?_ ?_ hset hnet'
    · rw [hv, hlife.1, hlife.2]; exact h.life m.caller
    · rw [hv]; exact hvotes
  · rename_i hinc
    rw [if_neg hinc] at hproc ⊢
    have hself : { s with net := s.net.eraseIdx k } =
        s.set m.caller (s.proc m.caller) (s.net.eraseIdx k) := by
      simp [Cluster.set]
    rw [hself] at hc' ⊢
    refine h.move hmv.frame hc' (fun j _ => by rw [hproc]) (by rw [hproc]; exact h.node m.caller)
      (hc.sourced_take _ _) ?_ ?_ (h.settled m.caller) hnet'
    · rw [hproc]; exact h.life m.caller
    · rw [hproc]; exact h.votes m.caller

/-- The protocol takes the reply from the network and hands it to its caller. -/
theorem Tracked.handleReply {k : Nat} {m m' : Rpc n C D} {r : Process n C D → Process n C D}
    (h : Tracked g s a) (hm : s.net[k]? = some m) (hp : plainRpc g.core m = some m')
    (ha : ∀ rest, a.handle m' rest = a.handleReply m rest r) :
    ∃ b, (∃ ntr, (plain n C D).Run a ntr b) ∧ b.proc = (a.handleReply m [] r).proc ∧
      b.net = (s.net.eraseIdx k).filterMap (plainRpc g.core) := by
  obtain ⟨k', -, -, hexec⟩ := h.handles hm hp
  rw [ha] at hexec
  refine ⟨_, plain_run_single (.handle k') hexec, ?_, ?_⟩
  · unfold Cluster.handleReply
    split <;> rfl
  · unfold Cluster.handleReply
    split <;> rfl

theorem Settled.handleVoteReply {ℓ : List (Entry (Option C))} {rf : Raft n C D}
    (h : rf.state = .leader → Settled ℓ rf) (hk : Shows ℓ rf) {votes : Nat}
    {args : RequestVoteArgs n} {reply : RequestVoteReply}
    (hs : (rf.handleVoteReply votes args reply).1.state = .leader) :
    Settled ℓ (rf.handleVoteReply votes args reply).1 := by
  unfold Raft.handleVoteReply at hs ⊢
  by_cases hv : rf.isValidCandidate args.term = true
  · rw [if_pos hv] at hs ⊢
    have hc : rf.state = .candidate := by
      simp only [Raft.isValidCandidate, Bool.and_eq_true, decide_eq_true_eq] at hv
      exact hv.1
    have hno : ∀ {P : Prop}, rf.state = .leader → P := fun hl => by
      rw [hc] at hl; simp at hl
    split at hs
    · rename_i hg
      rw [if_pos hg]
      split at hs
      · rename_i hmaj
        rw [if_pos hmaj]
        exact elected hk hc
      · exact hno hs
    · rename_i hg
      split at hs
      · rename_i hlt
        rw [updateTermAndStepDown_state hlt] at hs
        simp at hs
      · exact hno hs
  · rw [if_neg hv] at hs ⊢
    exact h hs

theorem tracked_voteReply (h : Tracked g s a) (hc : Coupled svc s g) {k : Nat} {m : Rpc n C D}
    (hm : s.net[k]? = some m) {args : RequestVoteArgs n} {reply : RequestVoteReply}
    (hp : m.payload = .voteRep args reply) :
    ∃ b, Reaches svc g (s.handle m (s.net.eraseIdx k)) a b := by
  obtain ⟨g', hmv, hc'⟩ := coupled_voteReply hc (perm_eraseIdx hm) hp
  have htwin := h.node m.caller
  have tw := htwin.handleVoteReply (s.proc m.caller).grantedVotes args reply
  rw [← h.votes] at tw
  simp only [Cluster.handle, hp] at hc' ⊢
  obtain ⟨b, hrun, hproc, hnet⟩ := h.handleReply hm (show plainRpc g.core m = some m by simp [plainRpc, hp])
    (fun rest => by simp only [Cluster.handle, hp]; rfl)
  refine ⟨b, hrun, g', hmv.produced, hc', h.replied hc hmv hc' ?_ ⟨rfl, rfl⟩ ?_ ?_ hproc hnet⟩
  · rw [← h.votes]; exact tw.1
  · rw [← h.votes]; exact tw.2
  · exact Settled.handleVoteReply (h.settled m.caller) htwin.kept

/-- A reply to an append keeps a leader settled: a success is looked at at once. -/
theorem NodeInv.settled_handleAppendReply {me peer : Fin n} {p : Process n C D}
    (hn : NodeInv svc g me p) (hi : g.core.Inv)
    (h : p.rf.state = .leader → Settled (g.core.log me) p.rf) (hp : peer ≠ me)
    {args : AppendEntryArgs n C} {reply : AppendEntryReply} (hack : reply.success = true →
      args.prevLogIndex + args.entries.length ≤ g.core.acked peer args.term)
    (hs : (p.rf.handleAppendReply peer args reply).state = .leader) :
    Settled (g.core.log me) (p.rf.handleAppendReply peer args reply) := by
  unfold Raft.handleAppendReply at hs ⊢
  by_cases hv : (!p.rf.isValidLeader args.term) = true
  · rw [if_pos hv] at hs ⊢
    exact h hs
  · rw [if_neg hv] at hs ⊢
    obtain ⟨hl, ht⟩ : p.rf.state = .leader ∧ p.rf.currentTerm = args.term := by
      simpa [Raft.isValidLeader] using hv
    split at hs
    · rename_i hr
      rw [if_pos hr]
      split at hs
      · rename_i hlt
        rw [updateTermAndStepDown_state hlt] at hs
        simp at hs
      · rename_i hle
        rw [if_neg hle]
        exact (h hl).same rfl rfl rfl rfl
    · rename_i hr
      rw [if_neg hr]
      obtain ⟨-, -, hlog⟩ := hn.leads hi hl
      have hle := hack (by simpa using hr)
      rw [← ht] at hle
      refine Settled.accepted hi (hi.log_src me) hn.log.shows (h hl).own
        (hn.log.first_le.trans hn.log.applied_le) (fun i hlen => ?_) (by rw [hn.self]; exact hp)
        (fun q => (hn.updateLogIndices hle).matchIndex_le hi hl q)
      rcases Nat.eq_zero_or_pos i with rfl | hpos
      · simp
      · obtain ⟨e, he, -, hterm⟩ := exists_entry hpos hlen
        rw [hterm]
        rw [hlog] at he
        exact hi.llog_term _ e he

theorem tracked_appendReply (h : Tracked g s a) (hc : Coupled svc s g) (hnet : NetInv s) {k : Nat}
    {m : Rpc n C D} (hm : s.net[k]? = some m) {args : AppendEntryArgs n C}
    {reply : AppendEntryReply} (hp : m.payload = .appendRep args reply) :
    ∃ b, Reaches svc g (s.handle m (s.net.eraseIdx k)) a b := by
  obtain ⟨g', hmv, hc'⟩ := coupled_appendReply hc (perm_eraseIdx hm) hp
  have hmem := List.mem_of_getElem? hm
  have hok := hc.net m hmem
  unfold RpcOk at hok
  simp only [hp] at hok
  have htwin := h.node m.caller
  simp only [Cluster.handle, hp] at hc' ⊢
  have hset := (hc.node m.caller).settled_handleAppendReply hc.inv (h.settled m.caller)
    (hnet.apart m hmem).symm hok.2
  by_cases hr : reply.success = true ∨ args.term < reply.term
  · obtain ⟨b, hrun, hproc, hbnet⟩ := h.handleReply hm
      (show plainRpc g.core m = some m by simp [plainRpc, hp, hr])
      (fun rest => by simp only [Cluster.handle, hp]; rfl)
    refine ⟨b, hrun, g', hmv.produced, hc', h.replied hc hmv hc' ?_ ⟨rfl, rfl⟩ (h.votes m.caller) hset
      hproc hbnet⟩
    exact htwin.handleAppendReply (hc.first_le_commit m.caller) m.server args hr
  · -- only `nextIndex` moves, which the protocol does not use
    have hnone : plainRpc g.core m = none := by simp [plainRpc, hp, hr]
    obtain ⟨hsucc, hterm⟩ : reply.success = false ∧ reply.term ≤ args.term := by
      simpa [not_or] using hr
    refine ⟨a, ⟨[], .nil⟩, g', hmv.produced, hc', h.replied (r := id) hc hmv hc' ?_ ⟨rfl, rfl⟩
      (h.votes m.caller) hset ?_ ?_⟩
    · exact htwin.handleAppendReply_rejected m.server args hsucc hterm
    · unfold Cluster.handleReply
      split
      · simp [Cluster.set]
      · rfl
    · rw [filterMap_eraseIdx_none hnone hm]; exact h.net

/-- The reply to a snapshot, on the other side the reply to the append that it stands for: nothing
is left for the leader to commit there. -/
theorem Twin.handleSnapShotReply {ℓ : List (Entry (Option C))} {rf qf : Raft n C D}
    (h : Twin ℓ rf qf) (hset : rf.state = .leader → Settled ℓ rf) {peer : Fin n}
    (hp : peer ≠ rf.me) {args : InstallSnapShotArgs n D} (hi : args.lastIncludedIndex ≤ rf.commitIndex)
    (reply : InstallSnapShotReply) {c : Repl (Fin n) (Option C)}
    (hlen : (snapPiece c args).entries.length = args.lastIncludedIndex) :
    Twin ℓ (rf.handleSnapShotReply peer args reply)
      (qf.handleAppendReply peer (snapPiece c args) (snapAnswer args reply)) := by
  have hidx : (snapPiece c args).prevLogIndex + (snapPiece c args).entries.length =
      args.lastIncludedIndex := by
    rw [hlen]; exact Nat.zero_add _
  have hterm : (snapPiece c args).term = args.term := rfl
  unfold Raft.handleSnapShotReply Raft.handleAppendReply
  rw [h.isValidLeader, hterm]
  by_cases hv : rf.state = .leader ∧ rf.currentTerm = args.term
  · have hvalid : rf.isValidLeader args.term = true := by simp [Raft.isValidLeader, hv]
    rw [if_pos hv, hvalid]
    by_cases hlt : reply.term > rf.currentTerm
    · have hans : snapAnswer args reply = { term := reply.term, success := false } := by
        unfold snapAnswer
        rw [if_neg (by omega)]
      rw [if_pos hlt, hans]
      simp only [Bool.not_true, Bool.false_eq_true, if_false, Bool.not_false, if_true]
      rw [if_pos (by rw [h.term]; exact hlt)]
      exact h.updateTermAndStepDown reply.term
    · have hans : snapAnswer args reply = { term := args.term, success := true } := by
        unfold snapAnswer
        rw [if_pos (by omega)]
      rw [if_neg hlt, hans]
      simp only [Bool.not_true, Bool.false_eq_true, if_false]
      have hq : Settled ℓ qf := (hset hv.1).same h.me h.term h.commit h.matchIndex
      rw [hq.accept_eq h.whole (by rw [h.me]; exact hp) (by rw [hidx, h.commit]; exact hi), hidx]
      exact h.updateLogIndices peer args.lastIncludedIndex
  · have hvalid : rf.isValidLeader args.term = false := by
      rw [Bool.eq_false_iff]
      intro hc
      exact hv (by simpa [Raft.isValidLeader] using hc)
    rw [if_neg hv, hvalid, if_pos (by simp)]
    exact h

theorem Settled.handleSnapShotReply {ℓ : List (Entry (Option C))} {rf : Raft n C D}
    (h : rf.state = .leader → Settled ℓ rf) {peer : Fin n} (hp : peer ≠ rf.me)
    {args : InstallSnapShotArgs n D} (hi : args.lastIncludedIndex ≤ rf.commitIndex)
    {reply : InstallSnapShotReply} (hs : (rf.handleSnapShotReply peer args reply).state = .leader) :
    Settled ℓ (rf.handleSnapShotReply peer args reply) := by
  unfold Raft.handleSnapShotReply at hs ⊢
  split at hs
  · rename_i hv
    rw [if_pos hv]
    split at hs
    · rename_i hlt
      rw [updateTermAndStepDown_state hlt] at hs
      simp at hs
    · rename_i hle
      rw [if_neg hle]
      exact (h hv.1).lower hp hi
  · rename_i hv
    rw [if_neg hv]
    exact h hs

theorem tracked_snapShotReply (h : Tracked g s a) (hc : Coupled svc s g) (hnet : NetInv s) {k : Nat}
    {m : Rpc n C D} (hm : s.net[k]? = some m) {args : InstallSnapShotArgs n D}
    {reply : InstallSnapShotReply} (hp : m.payload = .snapRep args reply) :
    ∃ b, Reaches svc g (s.handle m (s.net.eraseIdx k)) a b := by
  obtain ⟨g', hmv, hc'⟩ := coupled_snapShotReply hc (perm_eraseIdx hm) hp
  have hmem := List.mem_of_getElem? hm
  have hok := hc.net m hmem
  unfold RpcOk at hok
  simp only [hp] at hok
  have htwin := h.node m.caller
  have hlen : (snapPiece g.core args).entries.length = args.lastIncludedIndex := by
    simp only [snapPiece, tag_length, List.length_take]
    exact min_eq_left hok.1.2.1
  have hpeer : m.server ≠ (s.proc m.caller).rf.me := by
    rw [(hc.node m.caller).self]
    exact (hnet.apart m hmem).symm
  have hcov := hnet.covered m hmem args.lastIncludedIndex (by simp [Rpc.snapIndex, hp])
  simp only [Cluster.handle, hp] at hc' ⊢
  obtain ⟨b, hrun, hproc, hbnet⟩ := h.handleReply (r := fun p => { p with
      rf := p.rf.handleAppendReply m.server (snapPiece g.core args) (snapAnswer args reply) }) hm
    (show plainRpc g.core m =
      some { m with payload := .appendRep (snapPiece g.core args) (snapAnswer args reply) } by
        simp [plainRpc, hp]) (fun rest => rfl)
  exact ⟨b, hrun, g', hmv.produced, hc', h.replied hc hmv hc'
    (htwin.handleSnapShotReply (h.settled m.caller) hpeer hcov reply hlen) ⟨rfl, rfl⟩
    (h.votes m.caller) (Settled.handleSnapShotReply (h.settled m.caller) hpeer hcov) hproc hbnet⟩

end DistSys.Raft1
