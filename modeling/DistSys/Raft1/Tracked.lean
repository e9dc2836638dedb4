import DistSys.Raft1.CrashFree

/- A state of the cluster beside one of Raft without compaction.

   `Tracked g s a` relates a state of the cluster to one of the protocol of
   `Plain`: every peer has its twin, and the network holds the same messages. A
   snapshot under way stands for the append request of the entries it covers; a
   rejection that only moves `nextIndex` stands for nothing. Here are the relation
   and the events that take no message: `Snapshot` and the applier are no event of
   the protocol, and a snapshot sent is a piece of the log sent. -/
namespace DistSys.Raft1

open Lib

variable {n : Nat} {C D : Type} {svc : Service C D} {s t a : Cluster n C D} {g g' : Ghost n C D}

/-! ## Messages -/

/-- The entries a snapshot covers, as an append request. -/
def snapPiece (c : Repl (Fin n) (Option C)) (args : InstallSnapShotArgs n D) :
    AppendEntryArgs n C where
  term := args.term
  leaderId := args.leaderId
  prevLogIndex := 0
  prevLogTerm := 0
  entries := tag 0 ((c.llog args.term).take args.lastIncludedIndex)
  leaderCommit := args.lastIncludedIndex

/-- The reply to a snapshot, as the reply to that request. -/
def snapAnswer (args : InstallSnapShotArgs n D) (reply : InstallSnapShotReply) : AppendEntryReply :=
  if reply.term ≤ args.term then { term := args.term, success := true }
  else { term := reply.term, success := false }

/-- The message of the protocol that a message of the cluster stands for. -/
def plainRpc (c : Repl (Fin n) (Option C)) (m : Rpc n C D) : Option (Rpc n C D) :=
  match m.payload with
  | .voteReq _ => some m
  | .voteRep _ _ => some m
  | .appendReq _ => some m
  | .appendRep args reply =>
    if reply.success = true ∨ args.term < reply.term then some m else none
  | .snapReq args => some { m with payload := .appendReq (snapPiece c args) }
  | .snapRep args reply =>
    some { m with payload := .appendRep (snapPiece c args) (snapAnswer args reply) }

/-- What messages stand for does not change while they are under way. -/
theorem plainRpc_ext (hg : g ≤ g') {m : Rpc n C D} (hm : RpcOk svc g m) :
    plainRpc g'.core m = plainRpc g.core m := by
  have hpiece : ∀ {args : InstallSnapShotArgs n D}, SnapReqOk svc g args →
      snapPiece g'.core args = snapPiece g.core args := by
    intro args hok
    unfold snapPiece
    rw [Repl.take_ext hok.2.1 hg.1]
  unfold RpcOk at hm
  unfold plainRpc
  split
  · rfl
  · rfl
  · rfl
  · rfl
  · rename_i args hp
    simp only [hp] at hm
    rw [hpiece hm]
  · rename_i args reply hp
    simp only [hp] at hm
    rw [hpiece hm.1]

theorem Coupled.plainRpc_ext (hc : Coupled svc s g) (hg : g ≤ g') {net : List (Rpc n C D)}
    (hsub : ∀ m ∈ net, m ∈ s.net) :
    net.filterMap (plainRpc g'.core) = net.filterMap (plainRpc g.core) :=
  List.filterMap_congr fun m hm => DistSys.Raft1.plainRpc_ext hg (hc.net m (hsub m hm))

/-- Taking an element out of a list takes its image out of the image. -/
theorem filterMap_eraseIdx {α β : Type*} {f : α → Option β} {x : α} {y : β} (hy : f x = some y) :
    ∀ {l : List α} {k : Nat}, l[k]? = some x → ∃ k', (l.filterMap f)[k']? = some y ∧
      (l.filterMap f).eraseIdx k' = (l.eraseIdx k).filterMap f := by
  intro l
  induction l with
  | nil => intro k hk; simp at hk
  | cons z l ih =>
    intro k hk
    cases k with
    | zero =>
      obtain rfl : z = x := by simpa using hk
      exact ⟨0, by simp [hy], by simp [hy]⟩
    | succ k =>
      obtain ⟨k', h₁, h₂⟩ := ih (by simpa using hk)
      cases hz : f z with
      | none => exact ⟨k', by simpa [List.filterMap_cons, hz] using h₁,
          by simpa [List.filterMap_cons, hz] using h₂⟩
      | some w => exact ⟨k' + 1, by simpa [List.filterMap_cons, hz] using h₁,
          by simpa [List.filterMap_cons, hz] using h₂⟩

theorem filterMap_eraseIdx_none {α β : Type*} {f : α → Option β} {x : α} (hx : f x = none) :
    ∀ {l : List α} {k : Nat}, l[k]? = some x → (l.eraseIdx k).filterMap f = l.filterMap f := by
  intro l
  induction l with
  | nil => intro k hk; simp at hk
  | cons z l ih =>
    intro k hk
    cases k with
    | zero =>
      obtain rfl : z = x := by simpa using hk
      simp [hx]
    | succ k => simp [List.filterMap_cons, ih (by simpa using hk)]

theorem plainRpc_broadcast (c : Repl (Fin n) (Option C)) (me : Fin n) (inc : Nat)
    (args : RequestVoteArgs n) :
    (Cluster.broadcast me inc (.voteReq args) : List (Rpc n C D)).filterMap (plainRpc c) =
      Cluster.broadcast me inc (.voteReq args) := by
  unfold Cluster.broadcast
  rw [List.filterMap_map]
  have : (plainRpc c ∘ fun peer : Fin n => (⟨me, inc, peer, .voteReq args⟩ : Rpc n C D)) =
      some ∘ fun peer => ⟨me, inc, peer, .voteReq args⟩ := by
    funext peer; rfl
  rw [this, List.filterMap_eq_map]

/-! ## The relation -/

structure Tracked (g : Ghost n C D) (s a : Cluster n C D) : Prop where
  node : ∀ me, Twin (g.core.log me) (s.proc me).rf (a.proc me).rf
  life : ∀ me, (a.proc me).incarnation = (s.proc me).incarnation
  votes : ∀ me, (a.proc me).grantedVotes = (s.proc me).grantedVotes
  settled : ∀ me, (s.proc me).rf.state = .leader → Settled (g.core.log me) (s.proc me).rf
  net : a.net = s.net.filterMap (plainRpc g.core)

/-- The protocol can go from `a` to `b`, where it is related to the cluster in state `t`. -/
def Reaches (svc : Service C D) (g : Ghost n C D) (t a b : Cluster n C D) : Prop :=
  (∃ ntr, (plain n C D).Run a ntr b) ∧
    ∃ g', g'.produced = g.produced ∧ Coupled svc t g' ∧ Tracked g' t b

theorem plain_run_single {b : Cluster n C D} (e : PlainEvent n C) (h : a.plainExec e = some b) :
    ∃ ntr, (plain n C D).Run a ntr b :=
  ⟨_, Lts.Run.single (M := plain n C D) h⟩

/-- The whole log behind a retained one, when its compacted part is known to come from leaders. -/
theorem Coupled.log_eq (hc : Coupled svc t g) {v : Fin n} {L : List (Entry (Option C))}
    (hs : Shows L (t.proc v).rf) (hsrc : g.core.Sourced (L.take (t.proc v).rf.lastIncludedIndex)) :
    g.core.log v = L :=
  compact_inj (hc.inv.log_src v) hsrc (hc.node v).log.first_len hs.first_len
    ((hc.node v).log.logs.symm.trans hs.logs)

/-- A step of one peer: only that peer and the network have to be looked at. -/
theorem Tracked.move {b : Cluster n C D} {v : Fin n} {p : Process n C D} {net : List (Rpc n C D)}
    {L : List (Entry (Option C))} (h : Tracked g s a) (hF : Frame v g.core g'.core)
    (hc : Coupled svc (s.set v p net) g') (hother : ∀ j, j ≠ v → b.proc j = a.proc j)
    (tw : Twin L p.rf (b.proc v).rf) (hsrc : g.core.Sourced (L.take p.rf.lastIncludedIndex))
    (hlife : (b.proc v).incarnation = p.incarnation) (hvotes : (b.proc v).grantedVotes = p.grantedVotes)
    (hset : p.rf.state = .leader → Settled L p.rf)
    (hnet : b.net = net.filterMap (plainRpc g'.core)) : Tracked g' (s.set v p net) b := by
  have hv : (s.set v p net).proc v = p := Function.update_self ..
  have hne : ∀ {j}, j ≠ v → (s.set v p net).proc j = s.proc j := fun hj =>
    Function.update_of_ne hj ..
  have hL : g'.core.log v = L :=
    hc.log_eq (by rw [hv]; exact tw.kept) (by rw [hv]; exact hsrc.ext hF.ext)
  refine ⟨fun j => ?_, fun j => ?_, fun j => ?_, fun j => ?_, hnet⟩
  · by_cases hj : j = v
    · subst hj; rw [hv, hL]; exact tw
    · rw [hne hj, hother j hj, hF.log j hj]; exact h.node j
  · by_cases hj : j = v
    · subst hj; rw [hv]; exact hlife
    · rw [hne hj, hother j hj]; exact h.life j
  · by_cases hj : j = v
    · subst hj; rw [hv]; exact hvotes
    · rw [hne hj, hother j hj]; exact h.votes j
  · by_cases hj : j = v
    · subst hj; rw [hv, hL]; exact hset
    · rw [hne hj, hF.log j hj]; exact h.settled j

theorem Tracked.setNet {net net' : List (Rpc n C D)} (h : Tracked g s a)
    (hnet : net' = net.filterMap (plainRpc g.core)) :
    Tracked g { s with net := net } { a with net := net' } :=
  ⟨h.node, h.life, h.votes, h.settled, hnet⟩

theorem Coupled.sourced_take (hc : Coupled svc s g) (me : Fin n) (k : Nat) :
    g.core.Sourced ((g.core.log me).take k) :=
  (hc.inv.log_src me).shorten (List.take_prefix _ _)

theorem Coupled.first_le_commit (hc : Coupled svc s g) (me : Fin n) :
    (s.proc me).rf.lastIncludedIndex ≤ (s.proc me).rf.commitIndex :=
  (hc.node me).log.first_le.trans (hc.node me).log.applied_le

/-! ## Local events -/

theorem tracked_electionTimeout (h : Tracked g s a) (hc : Coupled svc s g) (me : Fin n)
    (ht : s.exec (.electionTimeout me) = some t) : ∃ b, Reaches svc g t a b := by
  obtain ⟨g', hmv, hc'⟩ := coupled_electionTimeout hc me ht
  obtain rfl := Option.some.inj ht
  obtain ⟨tw, hargs⟩ := (h.node me).electionTimeout
  refine ⟨_, plain_run_single (.electionTimeout me) rfl, g', hmv.produced, hc', ?_⟩
  refine h.move hmv.frame hc' (fun j hj => Function.update_of_ne hj ..) (L := g.core.log me) ?_
    (hc.sourced_take me _) ?_ ?_ ?_ ?_
  · simpa [Cluster.set] using tw
  · simpa [Cluster.set] using h.life me
  · simp [Cluster.set]
  · intro hs
    simp [electionTimeout_eq, persistState_eq] at hs
  · simp only [Cluster.set]
    rw [List.filterMap_append, plainRpc_broadcast, hc.plainRpc_ext hmv.le (fun _ hm => hm), ← h.net,
      hargs, h.life]

theorem tracked_start (h : Tracked g s a) (hc : Coupled svc s g) (me : Fin n) (command : Option C)
    (ht : s.exec (.start me command) = some t) : ∃ b, Reaches svc g t a b := by
  obtain ⟨g', hmv, hc', -⟩ := coupled_start hc me command ht
  obtain rfl := Option.some.inj ht
  have tw := h.node me
  have hnet : a.net = s.net.filterMap (plainRpc g'.core) := by
    rw [hc.plainRpc_ext hmv.le (fun _ hm => hm)]; exact h.net
  refine ⟨_, plain_run_single (.start me command) rfl, g', hmv.produced, hc', ?_⟩
  by_cases hs : (s.proc me).rf.state = .leader
  · have hk := tw.kept
    have hbase : ((s.proc me).rf.start command).1.lastIncludedIndex =
        (s.proc me).rf.lastIncludedIndex := by
      simp [Raft.start, hs, Raft.updateLogIndices, persistState_eq]
    refine h.move hmv.frame hc' (fun j hj => Function.update_of_ne hj ..)
      (L := g.core.log me ++ [⟨(s.proc me).rf.currentTerm, command⟩]) ?_ ?_ ?_ ?_ ?_ hnet
    · simpa [Cluster.set] using tw.start hs command
    · simp only [hbase]
      rw [List.take_append_of_le_length hk.first_len]
      exact hc.sourced_take me _
    · simpa [Cluster.set] using h.life me
    · simpa [Cluster.set] using h.votes me
    · intro _
      exact (h.settled me hs).start hk hs ((hc.node me).matchIndex_le hc.inv hs) command
  · have h₁ := Twin.start_of_ne (s.proc me).rf hs command
    have h₂ := Twin.start_of_ne (a.proc me).rf (by rw [tw.state]; exact hs) command
    refine h.move hmv.frame hc' (fun j hj => Function.update_of_ne hj ..) (L := g.core.log me) ?_ ?_ ?_ ?_
      ?_ hnet
    · simpa [Cluster.set, h₁, h₂] using tw
    · simp only [h₁]
      exact hc.sourced_take me _
    · simpa [Cluster.set] using h.life me
    · simpa [Cluster.set] using h.votes me
    · simp only [h₁]
      exact h.settled me

/-- Steps that the protocol does not take. -/
theorem Tracked.stutter {me : Fin n} {p : Process n C D} (h : Tracked g s a) (hc : Coupled svc s g)
    (hmv : Moves me g g') (hc' : Coupled svc (s.set me p s.net) g')
    (tw : Twin (g.core.log me) p.rf (a.proc me).rf) (hlife : p.incarnation = (s.proc me).incarnation)
    (hvotes : p.grantedVotes = (s.proc me).grantedVotes)
    (hset : p.rf.state = .leader → Settled (g.core.log me) p.rf) :
    Reaches svc g (s.set me p s.net) a a := by
  refine ⟨⟨[], .nil⟩, g', hmv.produced, hc', ?_⟩
  refine h.move hmv.frame hc' (fun _ _ => rfl) tw (hc.sourced_take me _) ?_ ?_ hset ?_
  · rw [hlife]; exact h.life me
  · rw [hvotes]; exact h.votes me
  · rw [hc.plainRpc_ext hmv.le (fun _ hm => hm)]; exact h.net

/-- A leader stays settled where its commit index, term and `matchIndex` stay. -/
theorem Settled.same {ℓ : List (Entry (Option C))} {rf rf' : Raft n C D} (h : Settled ℓ rf)
    (hme : rf'.me = rf.me) (ht : rf'.currentTerm = rf.currentTerm)
    (hc : rf'.commitIndex = rf.commitIndex) (hm : rf'.matchIndex = rf.matchIndex) :
    Settled ℓ rf' where
  own := by rw [hm, hme]; exact h.own
  done := by
    unfold Raft.confirmed
    rw [hm, hme, ht, hc]
    exact h.done

/-- Twins of one peer are settled together. -/
theorem Twin.settled {ℓ : List (Entry (Option C))} {rf rf' qf : Raft n C D} (h : Twin ℓ rf qf)
    (h' : Twin ℓ rf' qf) (hset : rf.state = .leader → Settled ℓ rf) (hs : rf'.state = .leader) :
    Settled ℓ rf' :=
  (hset (h.state.symm.trans (h'.state.trans hs))).same (h'.me.symm.trans h.me)
    (h'.term.symm.trans h.term) (h'.commit.symm.trans h.commit)
    (h'.matchIndex.symm.trans h.matchIndex)

theorem tracked_snapshot (h : Tracked g s a) (hc : Coupled svc s g) (me : Fin n) {index : Nat}
    {data : D} (ht : s.exec (.snapshot me index data) = some t)
    (hprod : Produced svc (s.proc me) index data) (hg : g.produced index data) :
    ∃ b, Reaches svc g t a b := by
  obtain ⟨g', hmv, hc'⟩ := coupled_snapshot hc me ht hprod hg
  obtain rfl := Option.some.inj ht
  have tw := (h.node me).snapshot index data
  exact ⟨a, h.stutter hc hmv hc' tw rfl rfl ((h.node me).settled tw (h.settled me))⟩

theorem tracked_applier (h : Tracked g s a) (hc : Coupled svc s g) (me : Fin n)
    (ht : s.exec (.applier me) = some t) : ∃ b, Reaches svc g t a b := by
  have hc' := coupled_applier hc me ht
  simp only [Cluster.exec] at ht
  split at ht
  · simp at ht
  · obtain rfl := Option.some.inj ht
    have tw := (h.node me).applier
    exact ⟨a, h.stutter hc (Moves.refl me g) hc' tw rfl rfl ((h.node me).settled tw (h.settled me))⟩

theorem tracked_deliver (h : Tracked g s a) (hc : Coupled svc s g) (me : Fin n)
    (ht : s.exec (.deliver me) = some t) : ∃ b, Reaches svc g t a b := by
  have hc' := coupled_deliver hc me ht
  simp only [Cluster.exec] at ht
  split at ht
  · simp at ht
  · obtain rfl := Option.some.inj ht
    exact ⟨a, h.stutter hc (Moves.refl me g) hc' (h.node me) rfl rfl (h.settled me)⟩

/-! ## Sending and losing -/

/-- What a leader sends is a piece of its whole log. -/
theorem pieceArgs_eq {ℓ : List (Entry (Option C))} {qf : Raft n C D} (h : Shows ℓ qf)
    (hb : qf.lastIncludedIndex = 0) {i j : Nat} (hi : i ≤ ℓ.length) :
    qf.pieceArgs i j =
      { term := qf.currentTerm
        leaderId := qf.me
        prevLogIndex := i
        prevLogTerm := termAt ℓ i
        entries := tag i ((ℓ.drop i).take (j - i))
        leaderCommit := min qf.commitIndex j } := by
  have hterm := (h.getD (i := i) (by rw [hb]; exact Nat.zero_le i) hi).1
  have hdrop : qf.logs.drop (i + 1) = tag i (ℓ.drop i) := by
    rw [h.logs, hb]
    exact compact_drop_succ (Nat.zero_le i)
  rw [hb, Nat.sub_zero] at hterm
  unfold Raft.pieceArgs
  rw [hterm, hdrop, tag_take]

/-- The protocol sends the piece between two indices of the whole log. -/
theorem Tracked.sends (h : Tracked g s a) {me peer : Fin n} (hne : me ≠ peer)
    (hs : (s.proc me).rf.state = .leader) {i j : Nat} (hij : i ≤ j)
    (hj : j ≤ (g.core.log me).length) : ∃ ntr, (plain n C D).Run a ntr
      { a with net := ⟨me, (a.proc me).incarnation, peer,
        .appendReq ((a.proc me).rf.pieceArgs i j)⟩ :: a.net } := by
  have tw := h.node me
  have hlen := tw.whole.length
  rw [tw.base] at hlen
  refine plain_run_single (.send me peer i j) ?_
  simp only [Cluster.plainExec]
  rw [if_pos ⟨hne, tw.state.trans hs, hij, by omega⟩]

theorem tracked_send (h : Tracked g s a) (hc : Coupled svc s g) (me peer : Fin n)
    (ht : s.exec (.send me peer) = some t) : ∃ b, Reaches svc g t a b := by
  have hc' := coupled_send hc me peer ht
  have tw := h.node me
  have hlog := (hc.node me).log
  cases exec_cases ht with
  | sendAppend _ _ args hne hsend =>
    obtain ⟨hs, hnext, rfl⟩ := doSendAppendEntry_append hsend
    rw [hlog.first] at hnext
    have hge : (s.proc me).rf.lastIncludedIndex ≤ (s.proc me).rf.nextIndex peer - 1 :=
      Nat.le_pred_of_lt hnext
    refine ⟨_, h.sends hne hs (Nat.min_le_right ((s.proc me).rf.nextIndex peer - 1) _) le_rfl, g, rfl,
      hc', h.setNet ?_⟩
    rw [List.filterMap_cons, ← h.net, pieceArgs_eq tw.whole tw.base (Nat.min_le_right _ _), tw.term,
      tw.me, tw.commit, min_eq_left hlog.commit_le, h.life]
    simp only [plainRpc, hlog.shows.genAppendEntryArgs hge]
    rw [List.take_of_length_le (by rw [List.length_drop])]
  | sendSnapshot _ _ args hne hsend =>
    obtain ⟨hs, -, rfl⟩ := doSendAppendEntry_snapshot hsend
    obtain ⟨-, -, hled⟩ := (hc.node me).leads hc.inv hs
    have hfirst : (s.proc me).rf.getFirstLog.index = (s.proc me).rf.lastIncludedIndex := by
      rw [hlog.first]
    have hcommit := hc.first_le_commit me
    refine ⟨_, h.sends hne hs (Nat.zero_le _) hlog.first_len, g, rfl, hc', h.setNet ?_⟩
    rw [List.filterMap_cons, ← h.net, pieceArgs_eq tw.whole tw.base (Nat.zero_le _), tw.term,
      tw.me, tw.commit, min_eq_right hcommit, h.life]
    simp only [plainRpc, snapPiece, Raft.makeInstallSnapShotArgs, hfirst, List.drop_zero,
      Nat.sub_zero, termAt_zero, hled]

theorem tracked_lose (h : Tracked g s a) (hc : Coupled svc s g) {k : Nat}
    (ht : s.exec (.lose k) = some t) : ∃ b, Reaches svc g t a b := by
  simp only [Cluster.exec] at ht
  split at ht
  · rename_i hlt
    obtain rfl := Option.some.inj ht
    have hc' : Coupled svc { s with net := s.net.eraseIdx k } g := hc.lost
    have hm : s.net[k]? = some s.net[k] := List.getElem?_eq_getElem hlt
    cases hp : plainRpc g.core s.net[k] with
    | none =>
      refine ⟨a, ⟨[], .nil⟩, g, rfl, hc', h.node, h.life, h.votes, h.settled, ?_⟩
      rw [filterMap_eraseIdx_none hp hm]
      exact h.net
    | some m' =>
      obtain ⟨k', h₁, h₂⟩ := filterMap_eraseIdx hp hm
      rw [← h.net] at h₁ h₂
      refine ⟨{ a with net := a.net.eraseIdx k' }, plain_run_single (.lose k') ?_, g, rfl, hc',
        h.setNet h₂⟩
      simp only [Cluster.plainExec, Cluster.exec]
      rw [if_pos (List.getElem?_eq_some_iff.mp h₁).1]
  · simp at ht

end DistSys.Raft1
