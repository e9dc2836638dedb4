import DistSys.Raft1.Redelivery
import DistSys.Raft1.Representation

/- Does a leader's `matchIndex` go back?

   A success sets `matchIndex[peer]` to what its request carried, and a snapshot reply to
   the index of the snapshot, whatever the entry was before. With two requests to one peer
   under way the reply to the earlier one may come last, and then the entry goes back.

   With one request of the term at a time it does not. What the leader has counted the peer
   keeps for the rest of the term (`Repl.Shares`), and so `nextIndex` stays ahead of it: a
   request starts after the counted entries, and a peer that rejects one has compacted its log
   beyond its previous index and names an index that it shares as well. -/
namespace DistSys.Raft1

open Lib

variable {n : Nat} {C D : Type} {svc : Service C D} {s t : Cluster n C D} {g g' : Ghost n C D}
  {c c' : Repl (Fin n) (Option C)} {rf rf' : Raft n C D} {l p : Fin n} {T : Nat}
  {tr : List (Cluster n C D × Action n C D)}

/-! ## Requests under way -/

def Raft.Leads (rf : Raft n C D) (T : Nat) : Prop := rf.state = .leader ∧ rf.currentTerm = T

instance (rf : Raft n C D) (T : Nat) : Decidable (rf.Leads T) :=
  inferInstanceAs (Decidable (_ ∧ _))

def Raft.Outgoing.term : Raft.Outgoing n C D → Nat
  | .append args => args.term
  | .snapshot args => args.term

/-- The leader, the term and the peer of an append or a snapshot. -/
def Rpc.lane (m : Rpc n C D) : Option (Fin n × Nat × Fin n) :=
  m.outgoing.map fun o => (m.caller, o.term, m.server)

/-- The requests of `l` in term `T` to `p` that are not done: they, or the replies to them, are in
the network. -/
def Cluster.underWay (s : Cluster n C D) (l : Fin n) (T : Nat) (p : Fin n) : List (Rpc n C D) :=
  s.net.filter fun m => m.lane = some (l, T, p)

def Action.sends : Action n C D → Option (Fin n × Fin n)
  | .event (.send me peer) => some (me, peer)
  | _ => none

/-- If the action is a request of `l` in term `T` to `p`, no other one is under way. -/
def Alone (l : Fin n) (T : Nat) (p : Fin n) (s : Cluster n C D) (a : Action n C D) : Prop :=
  a.sends = some (l, p) → (s.proc l).rf.currentTerm = T → (s.underWay l T p).isEmpty = true

instance (l : Fin n) (T : Nat) (p : Fin n) (s : Cluster n C D) (a : Action n C D) :
    Decidable (Alone l T p s a) :=
  inferInstanceAs (Decidable (_ → _ → _))

/-- The leader of the sample sends its first entry to peer 1, a second command comes and it sends
both. When the reply to the first message is the last to arrive, `matchIndex[1]` goes from 2 to 1. -/
theorem matchIndex_goes_back :
    let as : List SampleAction := electing ++ [.event (.start 0 (some 7)), .event (.send 0 1),
      .event (.start 0 (some 8)), .event (.send 0 1), .event (.handle 0), .event (.handle 1),
      .event (.handle 1)]
    let s := sampleAt as
    let t := sampleAt (as ++ [.event (.handle 0)])
    Run logService (sampleStart.traceOf as) s ∧ s.step (.event (.handle 0)) = some t ∧
      (s.proc 0).rf.Leads 1 ∧ (t.proc 0).rf.Leads 1 ∧
      (s.proc 0).rf.matchIndex 1 = 2 ∧ (t.proc 0).rf.matchIndex 1 = 1 := by
  refine ⟨sample_run _ (by decide), rfl, by decide, by decide, by decide, by decide⟩

theorem lane_eq {m : Rpc n C D} (h : m.lane = some (l, T, p)) :
    m.caller = l ∧ m.server = p ∧ ∃ o, m.outgoing = some o ∧ o.term = T := by
  obtain ⟨o, ho, heq⟩ := Option.map_eq_some_iff.mp h
  obtain ⟨hcaller, hterm, hserver⟩ : m.caller = l ∧ o.term = T ∧ m.server = p := by simpa using heq
  exact ⟨hcaller, hserver, o, ho, hterm⟩

/-- A reply belongs with its request. -/
theorem Answers.lane {m : Rpc n C D} {reply : Payload n C D} (h : Answers rf m.payload rf' reply) :
    ({ m with payload := reply } : Rpc n C D).lane = m.lane := by
  unfold Rpc.lane
  rw [h.outgoing]

/-- Nothing is left of a lane once the only RPC of it is taken out. -/
theorem underWay_erase (h : (s.underWay l T p).length ≤ 1) {k : Nat} {m : Rpc n C D}
    (hk : s.net[k]? = some m) (hm : m.lane = some (l, T, p)) :
    (s.net.eraseIdx k).filter (fun m => m.lane = some (l, T, p)) = [] := by
  have hlen := ((perm_eraseIdx hk).filter (fun m => decide (m.lane = some (l, T, p)))).length_eq
  rw [List.filter_cons_of_pos (by simpa using hm), List.length_cons] at hlen
  have hlen' : (s.underWay l T p).length = _ := hlen.symm
  rw [← List.length_eq_zero_iff]
  omega

theorem filter_broadcast (me : Fin n) (incarnation : Nat) (args : RequestVoteArgs n) :
    (Cluster.broadcast (C := C) (D := D) me incarnation (.voteReq args)).filter
      (fun m => m.lane = some (l, T, p)) = [] := by
  rw [List.filter_eq_nil_iff]
  intro m hm
  obtain ⟨peer, -, rfl⟩ := List.mem_map.mp hm
  simp [Rpc.lane, Rpc.outgoing]

/-! ## What the leader and the requests know -/

/-- The leader looks ahead of what it has counted, at something that the peer shares or at what
only a snapshot can bring. -/
structure Raft.Paced (rf : Raft n C D) (c : Repl (Fin n) (Option C)) (p : Fin n) : Prop where
  lt : rf.matchIndex p < rf.nextIndex p
  next : 0 < rf.matchIndex p →
    c.Shares p rf.currentTerm (rf.nextIndex p - 1) ∨ rf.nextIndex p ≤ rf.getFirstLog.index

/-- What a reply confirms, the peer shares. -/
def Payload.Confirms (c : Repl (Fin n) (Option C)) (p : Fin n) : Payload n C D → Prop
  | .appendRep args reply =>
    reply.success = true → c.Shares p args.term (args.prevLogIndex + args.entries.length)
  | .snapRep args reply => reply.term ≤ args.term → c.Shares p args.term args.lastIncludedIndex
  | _ => True

/-- A request starts at or after the index `i` that its leader has counted, and so does what a
rejection makes the leader do. -/
def Payload.NotBehind (c : Repl (Fin n) (Option C)) (p : Fin n) (i : Nat) : Payload n C D → Prop
  | .appendReq args =>
    i ≤ args.prevLogIndex ∧ (0 < i → c.Shares p args.term args.prevLogIndex)
  | .appendRep args reply => i ≤ args.prevLogIndex ∧
    (reply.success = false → reply.term ≤ args.term → 0 < i → reply.conflictTerm = -1 ∧
      i < reply.conflictIndex ∧ c.Shares p args.term reply.conflictIndex)
  | .snapReq args => i ≤ args.lastIncludedIndex
  | .snapRep args _ => i ≤ args.lastIncludedIndex
  | _ => True

theorem Payload.NotBehind.zero (payload : Payload n C D) : payload.NotBehind c p 0 := by
  have hno : ¬ 0 < 0 := lt_irrefl 0
  cases payload with
  | appendReq args => exact ⟨Nat.zero_le _, fun hpos => absurd hpos hno⟩
  | appendRep args reply => exact ⟨Nat.zero_le _, fun _ _ hpos => absurd hpos hno⟩
  | snapReq args => exact Nat.zero_le _
  | snapRep args reply => exact Nat.zero_le _
  | _ => trivial

section Steps
variable (hi : c.Inv) (hsteps : Repl.Steps c c')
include hi hsteps

theorem Raft.Paced.steps (h : rf.Paced c p) : rf.Paced c' p where
  lt := h.lt
  next := fun hpos => (h.next hpos).imp_left fun hshares => hshares.steps hi hsteps

theorem Payload.Confirms.steps {payload : Payload n C D} (h : payload.Confirms c p) :
    payload.Confirms c' p := by
  cases payload with
  | appendRep args reply => exact fun hsucc => (h hsucc).steps hi hsteps
  | snapRep args reply => exact fun hle => (h hle).steps hi hsteps
  | _ => trivial

theorem Payload.NotBehind.steps {payload : Payload n C D} {i : Nat}
    (h : payload.NotBehind c p i) : payload.NotBehind c' p i := by
  cases payload with
  | appendReq args => exact ⟨h.1, fun hpos => (h.2 hpos).steps hi hsteps⟩
  | appendRep args reply =>
    refine ⟨h.1, fun hfail hle hpos => ?_⟩
    obtain ⟨hterm, hlt, hshares⟩ := h.2 hfail hle hpos
    exact ⟨hterm, hlt, hshares.steps hi hsteps⟩
  | snapReq args => exact h
  | snapRep args reply => exact h
  | _ => trivial

end Steps

/-! ## The peer's answers -/

/-- In the term of a leader a peer shares with it what is committed at the peer. -/
theorem NodeInv.shares {q : Fin n} {pr : Process n C D} (h : NodeInv svc g q pr) (hi : g.core.Inv)
    (hled : g.core.leader T ≠ none) (hT : g.core.term q = T) {k : Nat} (hk : k ≤ pr.rf.commitIndex) :
    g.core.Shares q T k := by
  have hlen : k ≤ (g.core.log q).length := hk.trans h.log.commit_le
  have hpre : (g.core.log q).take k <+: g.core.llog T :=
    (h.log.cert.shorten (List.take_prefix_take_left hk)).in_llog hi hT.le hled
  have heq := List.prefix_iff_eq_take.mp hpre
  rw [List.length_take, min_eq_left hlen] at heq
  refine ⟨?_, hT.ge, fun _ => ?_⟩
  · have hle := hpre.length_le
    rwa [List.length_take, min_eq_left hlen] at hle
  · rw [← heq]
    exact List.take_prefix _ _

/-- A peer that shares the previous entry of a request and still rejects it has compacted its log
beyond that entry. -/
theorem LogInv.rejected {b : Fin n} (h : LogInv c b rf) {args : AppendEntryArgs n C}
    {P : List (Entry (Option C))} (hok : AppendOk c args P) (hterm : c.term b = rf.currentTerm)
    (hshares : c.Shares b args.term args.prevLogIndex)
    (hfail : (rf.appendEntry args).2.success = false)
    (hle : (rf.appendEntry args).2.term ≤ args.term) :
    (rf.appendEntry args).2.conflictTerm = -1 ∧
      args.prevLogIndex < (rf.appendEntry args).2.conflictIndex ∧
      (rf.appendEntry args).2.conflictIndex = (rf.appendEntry args).1.lastIncludedIndex ∧
      (rf.appendEntry args).1.currentTerm = args.term := by
  by_cases hlt : args.term < rf.currentTerm
  · rw [Raft.appendEntry, if_pos hlt] at hle
    exact absurd hlt (not_lt.mpr hle)
  · have hlog : LogInv c b { rf.updateTermAndStepDown args.term with state := .follower } :=
      h.same (sameLog_enter rf args.term) rfl (Repl.Ext.refl _)
    have hcur : ({ rf.updateTermAndStepDown args.term with state := .follower } :
        Raft n C D).currentTerm = args.term := enter_currentTerm hlt
    rw [appendEntry_of_ge hlt] at hfail ⊢
    generalize ({ rf.updateTermAndStepDown args.term with state := .follower } : Raft n C D) = rf₁
      at hfail hlog hcur ⊢
    unfold Raft.appendAsFollower at hfail ⊢
    by_cases hfirst : args.prevLogIndex < rf₁.getFirstLog.index
    · rw [if_pos hfirst]
      refine ⟨rfl, hfirst, ?_, hcur⟩
      show rf₁.getFirstLog.index = rf₁.lastIncludedIndex
      rw [hlog.first]
    · -- the previous entry is retained, and it is the leader's
      have hT : c.term b = args.term := by
        have := hshares.term
        omega
      have hpre := hshares.log hT
      have hlen : args.prevLogIndex ≤ ((c.llog args.term).take args.prevLogIndex).length := by
        rw [List.length_take, min_eq_left hshares.le]
      have hmatched : rf₁.isLogMatched args.prevLogIndex args.prevLogTerm = true := by
        rw [hlog.first] at hfirst
        refine hlog.shows.isLogMatched.mpr ⟨not_lt.mp hfirst, hlen.trans hpre.length_le, ?_⟩
        calc args.prevLogTerm
            = termAt P args.prevLogIndex := hok.2.2.2.1
          _ = termAt (c.llog args.term) args.prevLogIndex :=
              (termAt_prefix_eq hok.2.1 hok.2.2.1).symm
          _ = termAt ((c.llog args.term).take args.prevLogIndex) args.prevLogIndex :=
              termAt_prefix_eq (List.take_prefix _ _) hlen
          _ = termAt (c.log b) args.prevLogIndex := (termAt_prefix_eq hpre hlen).symm
      rw [if_neg hfirst, hmatched] at hfail
      simp at hfail

/-- A snapshot that is not refused leaves the peer in its term, with everything before it
committed. -/
theorem installSnapShot_accepted {args : InstallSnapShotArgs n D}
    (happlied : rf.lastApplied ≤ rf.commitIndex)
    (hle : (rf.installSnapShot args).2.term ≤ args.term) :
    (rf.installSnapShot args).1.currentTerm = args.term ∧
      args.lastIncludedIndex ≤ (rf.installSnapShot args).1.commitIndex := by
  unfold Raft.installSnapShot at hle ⊢
  by_cases hlt : args.term < rf.currentTerm
  · rw [if_pos hlt] at hle
    exact absurd hlt (not_lt.mpr hle)
  · have hcur : (rf.followSnapShot args.term).currentTerm = args.term := by
      unfold Raft.followSnapShot
      rw [changeState_follower]
      split
      · rfl
      · simp only
        omega
    have hcommit : (rf.followSnapShot args.term).lastApplied ≤
        (rf.followSnapShot args.term).commitIndex := by
      unfold Raft.followSnapShot
      rw [changeState_follower]
      split <;> exact happlied
    rw [if_neg hlt]
    generalize rf.followSnapShot args.term = rf₁ at hcur hcommit ⊢
    simp only
    split
    · rename_i hold
      exact ⟨hcur, hold.trans hcommit⟩
    · refine ⟨?_, ?_⟩
      · unfold Raft.replaceBySnapShot Raft.persist
        cases args.data <;> exact hcur
      · unfold Raft.replaceBySnapShot Raft.persist
        cases args.data <;> exact le_max_right _ _

/-- The reply to a request confirms only what the peer shares, and is not behind if the request was
not. -/
theorem Coupled.answer_paced (hc : Coupled svc s g) (hps : Prompt s) (hct : Coupled svc t g')
    (hpt : Prompt t) (hg : g ≤ g') {m : Rpc n C D} (hm : m ∈ s.net) {reply : Payload n C D}
    (hanswer : Answers (s.proc m.server).rf m.payload rf reply)
    (hproc : t.proc m.server = { s.proc m.server with rf := rf }) :
    reply.Confirms g'.core m.server ∧
      ∀ i, m.payload.NotBehind g.core m.server i → reply.NotBehind g'.core m.server i := by
  have hn := hc.node m.server
  have hn' := hct.node m.server
  have hterm := hc.term_eq hps m.server
  have hterm' := hct.term_eq hpt m.server
  have hok := hc.net m hm
  rw [hproc] at hn' hterm'
  unfold RpcOk at hok
  generalize m.payload = payload at hanswer hok
  cases hanswer with
  | vote args => exact ⟨trivial, fun _ _ => trivial⟩
  | append args =>
    obtain ⟨P, hP⟩ := hok
    have hP' := hP.mono hg.1
    refine ⟨fun hsucc => ?_, fun i hi => ⟨hi.1, fun hfail hle hpos => ?_⟩⟩
    · obtain ⟨hstored, hcur, -⟩ := hn.stored hc.inv hP hsucc hg hct.inv hn'
      have hT : g'.core.term m.server = args.term := hterm'.trans hcur
      rw [hP.length]
      refine ⟨hP'.2.1.length_le, hT.ge, fun _ => ?_⟩
      rwa [← List.prefix_iff_eq_take.mp hP'.2.1]
    · obtain ⟨hconf, hlt, hindex, hcur⟩ := hn.log.rejected hP hterm (hi.2 hpos) hfail hle
      refine ⟨hconf, hi.1.trans_lt hlt, hn'.shares hct.inv hP'.1 (hterm'.trans hcur) ?_⟩
      rw [hindex]
      exact hn'.log.first_le.trans hn'.log.applied_le
  | snapshot args =>
    refine ⟨fun hle => ?_, fun i hi => hi⟩
    obtain ⟨hcur, hcommit⟩ := installSnapShot_accepted hn.log.applied_le hle
    have hled : g'.core.leader args.term ≠ none := hg.1.led hok.1
    exact hn'.shares hct.inv hled (hterm'.trans hcur) hcommit

/-! ## The leader's entries for the peer -/

/-- The leader goes on with what it has about `p`. -/
structure Marks (p : Fin n) (rf rf' : Raft n C D) : Prop where
  leads : rf.state = .leader
  term : rf'.currentTerm = rf.currentTerm
  matchIndex : rf'.matchIndex p = rf.matchIndex p
  nextIndex : rf'.nextIndex p = rf.nextIndex p
  first : rf.getFirstLog.index ≤ rf'.getFirstLog.index

/-- Whoever leads term `T` afterwards goes on with what it has about `p`, or has just been
elected. -/
def Rests (p : Fin n) (T : Nat) (rf rf' : Raft n C D) : Prop :=
  rf'.Leads T → Marks p rf rf' ∨ (rf.state = .candidate ∧ rf.currentTerm = T ∧ rf'.matchIndex p = 0)

namespace Rests

theorem on (h : LeadsOn rf rf') : Rests p T rf rf' := by
  intro hl
  have ha := h hl.1
  refine Or.inl ⟨ha.leads, ha.term, by rw [ha.matchIndex], by rw [ha.nextIndex], ?_⟩
  rw [Raft.getFirstLog, Raft.getFirstLog, ha.logs]

theorem refl (rf : Raft n C D) : Rests p T rf rf := on (.refl rf)

theorem of_ne (h : rf'.state ≠ .leader) : Rests p T rf rf' := on (.of_ne h)

theorem start (hp : p ≠ rf.me) (command : Option C) : Rests p T rf (rf.start command).1 := by
  by_cases hs : rf.state = .leader
  · unfold Raft.start
    rw [if_neg (not_not.mpr hs)]
    refine fun _ => Or.inl ⟨hs, rfl, Function.update_of_ne hp _ _, Function.update_of_ne hp _ _, ?_⟩
    show (rf.logs.headD default).index ≤ ((rf.logs ++ [_]).headD default).index
    cases rf.logs with
    | nil => exact Nat.zero_le _
    | cons e rest => exact le_rfl
  · unfold Raft.start
    rw [if_pos hs]
    exact refl rf

theorem snapshot (hshape : Shape rf.logs) (index : Nat) (data : D) :
    Rests p T rf (rf.snapshot index data) := by
  obtain ⟨hstate, -, hterm, hmatch, hnext⟩ := snapshot_fields rf index data
  intro hl
  refine Or.inl ⟨hstate ▸ hl.1, hterm, by rw [hmatch], by rw [hnext], ?_⟩
  have hlen := hshape.latest
  unfold Raft.snapshot
  simp only
  split
  · exact le_rfl
  · show rf.getFirstLog.index ≤ ((rf.logs.drop (index - rf.getFirstLog.index)).headD default).index
    rw [List.headD_eq_head?_getD, List.head?_drop, ← List.getD_eq_getElem?_getD,
      hshape.index _ (by omega)]
    exact Nat.le_add_right _ _

theorem handleVoteReply (hp : p ≠ rf.me) (votes : Nat) (args : RequestVoteArgs n)
    (reply : RequestVoteReply) : Rests p T rf (rf.handleVoteReply votes args reply).1 := by
  unfold Raft.handleVoteReply
  split
  · rename_i hvalid
    obtain ⟨hcand, -⟩ : rf.state = .candidate ∧ rf.currentTerm = args.term := by
      simpa [Raft.isValidCandidate] using hvalid
    split
    · split
      · unfold Raft.changeState
        rw [if_neg (by rw [hcand]; simp)]
        exact fun hl => Or.inr ⟨hcand, hl.2, Function.update_of_ne hp _ _⟩
      · exact refl rf
    · split
      · exact on (.stepDown rf reply.term)
      · exact refl rf
  · exact refl rf

/-- A reply of another peer, or to a request of another term. -/
theorem handleAppendReply {peer : Fin n} {args : AppendEntryArgs n C} (hother : args.term = T → p ≠ peer)
    (reply : AppendEntryReply) : Rests p T rf (rf.handleAppendReply peer args reply) := by
  unfold Raft.handleAppendReply
  split
  · exact refl rf
  · rename_i hvalid
    obtain ⟨hs, hterm⟩ : rf.state = .leader ∧ rf.currentTerm = args.term := by
      simpa [Raft.isValidLeader] using hvalid
    split
    · split
      · exact on (.stepDown rf reply.term)
      · obtain ⟨next, heq⟩ := rollBack_bounded rf peer args reply
        rw [heq]
        intro hl
        have hne := hother (hterm.symm.trans hl.2)
        exact Or.inl ⟨hs, rfl, rfl, Function.update_of_ne hne _ _, le_rfl⟩
    · obtain ⟨i, -, heq⟩ := acceptNewLogEntries_eq rf peer args
      rw [heq]
      intro hl
      have hne := hother (hterm.symm.trans hl.2)
      exact Or.inl ⟨hs, rfl, Function.update_of_ne hne _ _, Function.update_of_ne hne _ _, le_rfl⟩

theorem handleSnapShotReply {peer : Fin n} {args : InstallSnapShotArgs n D}
    (hother : args.term = T → p ≠ peer) (reply : InstallSnapShotReply) :
    Rests p T rf (rf.handleSnapShotReply peer args reply) := by
  unfold Raft.handleSnapShotReply
  split
  · rename_i hvalid
    split
    · exact on (.stepDown rf reply.term)
    · intro hl
      have hne := hother (hvalid.2.symm.trans hl.2)
      exact Or.inl ⟨hvalid.1, rfl, Function.update_of_ne hne _ _, Function.update_of_ne hne _ _, le_rfl⟩
  · exact refl rf

/-- A reply that is not of the lane. -/
theorem receives {m : Rpc n C D} {pr pr' : Process n C D} (hp : p ≠ pr.rf.me)
    (hlane : m.lane ≠ some (m.caller, T, p)) (h : Receives m.server pr m.payload pr') :
    Rests p T pr.rf pr'.rf := by
  have hother : ∀ o, m.outgoing = some o → o.term = T → p ≠ m.server := by
    rintro o ho hterm rfl
    apply hlane
    rw [Rpc.lane, ho, ← hterm]
    rfl
  unfold Rpc.outgoing at hother
  generalize m.payload = payload at h hother
  cases h with
  | vote args reply => exact handleVoteReply hp _ args reply
  | append args reply => exact handleAppendReply (hother _ rfl) reply
  | snapshot args reply => exact handleSnapShotReply (hother _ rfl) reply

end Rests

/-- If the peer leads term `T` now, then it did before and has not gone back on `p`, or it was a
candidate. -/
def Raft.Grows (p : Fin n) (T : Nat) (rf rf' : Raft n C D) : Prop :=
  rf'.Leads T → (rf.Leads T ∧ rf.matchIndex p ≤ rf'.matchIndex p) ∨
    (rf.state = .candidate ∧ rf.currentTerm = T)

theorem Rests.grows (h : Rests p T rf rf') : rf.Grows p T rf' := by
  intro hl
  rcases h hl with hm | ⟨hcand, hterm, -⟩
  · exact Or.inl ⟨⟨hm.leads, hm.term.symm.trans hl.2⟩, hm.matchIndex.ge⟩
  · exact Or.inr ⟨hcand, hterm⟩

theorem Raft.Paced.marks (h : rf.Paced c p) (hm : Marks p rf rf') : rf'.Paced c p where
  lt := by
    rw [hm.matchIndex, hm.nextIndex]
    exact h.lt
  next := by
    rw [hm.matchIndex, hm.nextIndex, hm.term]
    exact fun hpos => (h.next hpos).imp_right fun hle => hle.trans hm.first

/-- An index that the peer shares, or that only a snapshot can bring, stays so within the bounds of
the leader's log. -/
theorem Raft.Paced.setNext {next : Nat} (hlt : rf.matchIndex p < next)
    (hlast : rf.matchIndex p ≤ rf.getLatestLog.index) (hshares : c.Shares p rf.currentTerm next) :
    (rf.setNext p (rf.bounded next)).Paced c p where
  lt := by
    rw [Raft.nextIndex_setNext]
    exact Raft.lt_bounded hlt hlast
  next := fun _ => by
    rw [Raft.nextIndex_setNext]
    show c.Shares p rf.currentTerm (rf.bounded next - 1) ∨ rf.bounded next ≤ rf.getFirstLog.index
    unfold Raft.bounded
    rcases Nat.le_total next rf.getFirstLog.index with hle | hge
    · rw [max_eq_right hle]
      exact Or.inr (min_le_left _ _)
    · rw [max_eq_left hge]
      exact Or.inl (hshares.mono (by omega))

/-- A leader that has counted nothing yet only has to look at some index. -/
theorem Raft.Paced.of_zero (h : rf.matchIndex p = 0) (hnext : 1 ≤ rf.nextIndex p) : rf.Paced c p where
  lt := by
    rw [h]
    exact hnext
  next := fun hpos => by
    rw [h] at hpos
    exact absurd hpos (lt_irrefl 0)

theorem Raft.Paced.updateLogIndices {i j : Nat} (hshares : c.Shares p rf.currentTerm i) :
    ({ rf.updateLogIndices p i with commitIndex := j } : Raft n C D).Paced c p := by
  have hmatch : Function.update rf.matchIndex p i p = i := Function.update_self _ _ _
  have hnext : Function.update rf.nextIndex p (i + 1) p = i + 1 := Function.update_self _ _ _
  constructor
  · show Function.update rf.matchIndex p i p < Function.update rf.nextIndex p (i + 1) p
    rw [hmatch, hnext]
    exact Nat.lt_succ_self i
  · intro _
    left
    show c.Shares p rf.currentTerm (Function.update rf.nextIndex p (i + 1) p - 1)
    rw [hnext]
    exact hshares

theorem rollBack_of_none {args : AppendEntryArgs n C} {reply : AppendEntryReply}
    (h : reply.conflictTerm = -1) : rf.rollBackToConflictTerm p args reply =
      rf.setNext p (rf.bounded reply.conflictIndex) := by
  unfold Raft.rollBackToConflictTerm
  simp only
  rw [clamp_eq, if_neg (not_not.mpr h)]
  rfl

section Replies
variable (h : rf.Leads T → rf.Paced c p)
include h

/-- The reply to an append of the lane: the leader counts no less, and keeps ahead. -/
theorem handleAppendReply_paced {args : AppendEntryArgs n C} (hterm : args.term = T)
    {reply : AppendEntryReply} (hconf : (Payload.appendRep (D := D) args reply).Confirms c p)
    (hnot : rf.Leads T → (Payload.appendRep (D := D) args reply).NotBehind c p (rf.matchIndex p))
    (hlast : rf.Leads T → rf.matchIndex p ≤ rf.getLatestLog.index)
    (hnext : 1 ≤ (rf.handleAppendReply p args reply).nextIndex p)
    (hl : (rf.handleAppendReply p args reply).Leads T) :
    rf.Leads T ∧ rf.matchIndex p ≤ (rf.handleAppendReply p args reply).matchIndex p ∧
      (rf.handleAppendReply p args reply).Paced c p := by
  unfold Raft.handleAppendReply at hnext hl ⊢
  split at hl
  · rename_i hvalid
    rw [if_pos hvalid]
    exact ⟨hl, le_rfl, h hl⟩
  · rename_i hvalid
    rw [if_neg hvalid] at hnext ⊢
    obtain ⟨hs, hcur⟩ : rf.state = .leader ∧ rf.currentTerm = args.term := by
      simpa [Raft.isValidLeader] using hvalid
    have hleads : rf.Leads T := ⟨hs, hcur.trans hterm⟩
    refine ⟨hleads, ?_⟩
    obtain ⟨hprev, hrejected⟩ := hnot hleads
    split at hl
    · rename_i hfail
      rw [if_pos hfail] at hnext ⊢
      split at hl
      · rename_i hnewer
        rw [updateTermAndStepDown_of_lt hnewer] at hl
        simp [Raft.Leads, Raft.persistState, Raft.persist] at hl
      · rename_i hnewer
        rw [if_neg hnewer] at hnext ⊢
        rcases Nat.eq_zero_or_pos (rf.matchIndex p) with hzero | hpos
        · obtain ⟨next, heq⟩ := rollBack_bounded rf p args reply
          rw [heq] at hnext ⊢
          exact ⟨le_rfl, .of_zero hzero hnext⟩
        · obtain ⟨hconflict, hlt, hshares⟩ := hrejected (by simpa using hfail) (by omega) hpos
          rw [rollBack_of_none hconflict]
          rw [← hcur] at hshares
          exact ⟨le_rfl, .setNext hlt (hlast hleads) hshares⟩
    · rename_i hfail
      have hshares := hconf (by simpa using hfail)
      rw [← hcur] at hshares
      obtain ⟨i, -, heq⟩ := acceptNewLogEntries_eq rf p args
      rw [if_neg hfail, heq]
      refine ⟨?_, .updateLogIndices hshares⟩
      show rf.matchIndex p ≤ Function.update rf.matchIndex p (args.prevLogIndex + args.entries.length) p
      rw [Function.update_self]
      exact hprev.trans (Nat.le_add_right _ _)

theorem handleSnapShotReply_paced {args : InstallSnapShotArgs n D} (hterm : args.term = T)
    {reply : InstallSnapShotReply} (hconf : (Payload.snapRep (C := C) args reply).Confirms c p)
    (hnot : rf.Leads T → (Payload.snapRep (C := C) args reply).NotBehind c p (rf.matchIndex p))
    (hl : (rf.handleSnapShotReply p args reply).Leads T) :
    rf.Leads T ∧ rf.matchIndex p ≤ (rf.handleSnapShotReply p args reply).matchIndex p ∧
      (rf.handleSnapShotReply p args reply).Paced c p := by
  unfold Raft.handleSnapShotReply at hl ⊢
  split at hl
  · rename_i hvalid
    rw [if_pos hvalid]
    have hleads : rf.Leads T := ⟨hvalid.1, hvalid.2.trans hterm⟩
    refine ⟨hleads, ?_⟩
    split at hl
    · rename_i hnewer
      rw [updateTermAndStepDown_of_lt hnewer] at hl
      simp [Raft.Leads, Raft.persistState, Raft.persist] at hl
    · rename_i hnewer
      have hshares := hconf (by omega)
      rw [← hvalid.2] at hshares
      rw [if_neg hnewer]
      refine ⟨?_, .updateLogIndices hshares⟩
      show rf.matchIndex p ≤ Function.update rf.matchIndex p args.lastIncludedIndex p
      rw [Function.update_self]
      exact hnot hleads
  · rename_i hvalid
    rw [if_neg hvalid]
    exact ⟨hl, le_rfl, h hl⟩

end Replies

/-! ## The cluster -/

/-- What holds of `l`, `p` and the RPCs of the lane while no two of them are under way. -/
structure Steady (l : Fin n) (T : Nat) (p : Fin n) (s : Cluster n C D)
    (c : Repl (Fin n) (Option C)) : Prop where
  paced : (s.proc l).rf.Leads T → (s.proc l).rf.Paced c p
  net : ∀ m ∈ s.underWay l T p, m.payload.Confirms c p ∧
    ((s.proc l).rf.Leads T → m.payload.NotBehind c p ((s.proc l).rf.matchIndex p))
  one : (s.underWay l T p).length ≤ 1

section Step
variable (h : Steady l T p s c) (hi : c.Inv) (hsteps : Repl.Steps c c')
include h hi hsteps

/-- Steps that bring nothing new to the lane and leave the leader with what it has about the peer. -/
theorem Steady.quiet (hnet : (t.underWay l T p).Sublist (s.underWay l T p)) (hat : Ahead t)
    (hrests : Rests p T (s.proc l).rf (t.proc l).rf) :
    Steady l T p t c' ∧ (s.proc l).rf.Grows p T (t.proc l).rf := by
  refine ⟨⟨fun hl => ?_, fun m hm => ?_, hnet.length_le.trans h.one⟩, hrests.grows⟩
  · rcases hrests hl with hm | ⟨-, -, hzero⟩
    · have hleads : (s.proc l).rf.Leads T := ⟨hm.leads, hm.term.symm.trans hl.2⟩
      exact ((h.paced hleads).steps hi hsteps).marks hm
    · exact .of_zero hzero (hat.next l p)
  · obtain ⟨hconf, hnot⟩ := h.net m (hnet.subset hm)
    refine ⟨hconf.steps hi hsteps, fun hl => ?_⟩
    rcases hrests hl with hm | ⟨-, -, hzero⟩
    · rw [hm.matchIndex]
      exact (hnot ⟨hm.leads, hm.term.symm.trans hl.2⟩).steps hi hsteps
    · rw [hzero]
      exact .zero m.payload

/-- A message is sent, by the leader to the peer with nothing else under way, or elsewhere. -/
theorem Steady.send {m : Rpc n C D} (hconf : m.payload.Confirms c p)
    (halone : m.lane = some (l, T, p) → s.underWay l T p = [])
    (hnot : m.lane = some (l, T, p) → (s.proc l).rf.Leads T → (s.proc l).rf.Paced c p →
      m.payload.NotBehind c p ((s.proc l).rf.matchIndex p)) (hat : Ahead { s with net := m :: s.net }) :
    Steady l T p { s with net := m :: s.net } c' ∧ (s.proc l).rf.Grows p T (s.proc l).rf := by
  by_cases hlane : m.lane = some (l, T, p)
  · have honly : ({ s with net := m :: s.net } : Cluster n C D).underWay l T p = [m] := by
      unfold Cluster.underWay
      rw [List.filter_cons_of_pos (by simpa using hlane)]
      exact congrArg (m :: ·) (halone hlane)
    refine ⟨⟨fun hl => (h.paced hl).steps hi hsteps, fun m' hm' => ?_, ?_⟩, (Rests.refl _).grows⟩
    · rw [honly, List.mem_singleton] at hm'
      subst hm'
      exact ⟨hconf.steps hi hsteps, fun hl => (hnot hlane hl (h.paced hl)).steps hi hsteps⟩
    · rw [honly]
      exact le_rfl
  · refine h.quiet hi hsteps ?_ hat (Rests.refl _)
    unfold Cluster.underWay
    rw [List.filter_cons_of_neg (by simpa using hlane)]

/-- The peer answers the request of the lane. -/
theorem Steady.request {k : Nat} {m : Rpc n C D} {pr : Process n C D} {reply : Payload n C D}
    (hk : s.net[k]? = some m) (hlane : m.lane = some (l, T, p)) (hne : p ≠ l)
    (hlane' : ({ m with payload := reply } : Rpc n C D).lane = m.lane)
    (hconf : reply.Confirms c' p)
    (hnot : ∀ i, m.payload.NotBehind c p i → reply.NotBehind c' p i) :
    Steady l T p (s.set p pr ({ m with payload := reply } :: s.net.eraseIdx k)) c' ∧
      (s.proc l).rf.Grows p T
        ((s.set p pr ({ m with payload := reply } :: s.net.eraseIdx k)).proc l).rf := by
  have hproc : (s.set p pr ({ m with payload := reply } :: s.net.eraseIdx k)).proc l = s.proc l :=
    Function.update_of_ne hne.symm _ _
  have honly : (s.set p pr ({ m with payload := reply } :: s.net.eraseIdx k)).underWay l T p =
      [{ m with payload := reply }] := by
    unfold Cluster.underWay Cluster.set
    rw [List.filter_cons_of_pos (by simpa [hlane'] using hlane), underWay_erase h.one hk hlane]
  have hmem : m ∈ s.underWay l T p :=
    List.mem_filter.mpr ⟨List.mem_of_getElem? hk, by simpa using hlane⟩
  constructor
  · constructor
    · rw [hproc]
      exact fun hl => (h.paced hl).steps hi hsteps
    · intro m' hm'
      rw [honly, List.mem_singleton] at hm'
      subst hm'
      rw [hproc]
      exact ⟨hconf, fun hl => hnot _ ((h.net m hmem).2 hl)⟩
    · rw [honly]
      exact le_rfl
  · rw [hproc]
    exact (Rests.refl _).grows

/-- The leader handles the reply of the lane. -/
theorem Steady.reply {k : Nat} {m : Rpc n C D} {pr : Process n C D} (hk : s.net[k]? = some m)
    (hlane : m.lane = some (l, T, p)) (hreceive : Receives p (s.proc l) m.payload pr)
    (hlast : (s.proc l).rf.Leads T → (s.proc l).rf.matchIndex p ≤ (s.proc l).rf.getLatestLog.index)
    (hat : Ahead (s.set l pr (s.net.eraseIdx k))) :
    Steady l T p (s.set l pr (s.net.eraseIdx k)) c' ∧
      (s.proc l).rf.Grows p T ((s.set l pr (s.net.eraseIdx k)).proc l).rf := by
  have hproc : (s.set l pr (s.net.eraseIdx k)).proc l = pr := Function.update_self _ _ _
  have hnone : (s.set l pr (s.net.eraseIdx k)).underWay l T p = [] := underWay_erase h.one hk hlane
  have hmem : m ∈ s.underWay l T p :=
    List.mem_filter.mpr ⟨List.mem_of_getElem? hk, by simpa using hlane⟩
  obtain ⟨hconf, hnot⟩ := h.net m hmem
  have hconf' := hconf.steps hi hsteps
  have hnot' := fun hl => (hnot hl).steps hi hsteps
  have hpaced := fun hl => (h.paced hl).steps hi hsteps
  obtain ⟨-, -, o, ho, hterm⟩ := lane_eq hlane
  have hnext := hat.next l p
  rw [hproc] at hnext
  have hafter : pr.rf.Leads T → (s.proc l).rf.Leads T ∧
      (s.proc l).rf.matchIndex p ≤ pr.rf.matchIndex p ∧ pr.rf.Paced c' p := by
    unfold Rpc.outgoing at ho
    generalize m.payload = payload at hreceive hconf' hnot' ho
    cases hreceive with
    | vote args reply => simp at ho
    | append args reply =>
      obtain rfl := Option.some.inj ho
      exact handleAppendReply_paced hpaced hterm hconf' hnot' hlast hnext
    | snapshot args reply =>
      obtain rfl := Option.some.inj ho
      exact handleSnapShotReply_paced hpaced hterm hconf' hnot'
  refine ⟨⟨?_, ?_, ?_⟩, ?_⟩
  · rw [hproc]
    exact fun hl => (hafter hl).2.2
  · rw [hnone]
    exact fun m' hm' => absurd hm' List.not_mem_nil
  · rw [hnone]
    exact Nat.zero_le 1
  · rw [hproc]
    intro hl
    obtain ⟨hleads, hle, -⟩ := hafter hl
    exact Or.inl ⟨hleads, hle⟩

end Step

/-- It is enough to look at the leader's own process. -/
theorem Rests.set {me : Fin n} {pr : Process n C D} {net : List (Rpc n C D)}
    (h : me = l → Rests p T (s.proc l).rf pr.rf) :
    Rests p T (s.proc l).rf ((s.set me pr net).proc l).rf :=
  forall_proc_set (I := fun q pr => q = l → Rests p T (s.proc l).rf pr.rf)
    (fun _ hq => hq ▸ Rests.refl _) h l rfl

/-- The previous index of an append that a leader builds is the one before `nextIndex`. -/
theorem Coupled.prev_eq (hc : Coupled svc s g) (hb : Bounded s) {q peer : Fin n}
    {args : AppendEntryArgs n C}
    (hsend : (s.proc q).rf.doSendAppendEntry peer = some (.append args)) :
    (s.proc q).rf.getFirstLog.index < (s.proc q).rf.nextIndex peer ∧
      args.prevLogIndex = (s.proc q).rf.nextIndex peer - 1 := by
  obtain ⟨hfirst, hlast, rfl⟩ := hb.prev_range hsend
  have hshows := (hc.node q).log.shows
  refine ⟨hfirst, ?_⟩
  rw [hshows.first] at hfirst
  rw [hshows.latest.1] at hlast
  rw [hshows.genAppendEntryArgs (by simp only at hfirst; omega)]
  exact min_eq_left (by omega)

/-- An append to the peer starts where `nextIndex` says. -/
theorem Raft.Paced.append (h : rf.Paced c p) {args : AppendEntryArgs n C}
    (hterm : args.term = rf.currentTerm) (hfirst : rf.getFirstLog.index < rf.nextIndex p)
    (hprev : args.prevLogIndex = rf.nextIndex p - 1) :
    (Payload.appendReq (D := D) args).NotBehind c p (rf.matchIndex p) := by
  have hlt := h.lt
  refine ⟨by omega, fun hpos => ?_⟩
  rw [hterm, hprev]
  exact (h.next hpos).resolve_right (not_le.mpr hfirst)

/-- A snapshot for the peer reaches `nextIndex`. -/
theorem Raft.Paced.snapshot (h : rf.Paced c p) {args : InstallSnapShotArgs n D}
    (hsend : rf.doSendAppendEntry p = some (.snapshot args)) :
    (Payload.snapReq (C := C) args).NotBehind c p (rf.matchIndex p) := by
  obtain ⟨-, hnext, rfl⟩ := doSendAppendEntry_snapshot hsend
  exact h.lt.le.trans hnext

theorem doSendAppendEntry_term {o : Raft.Outgoing n C D} {peer : Fin n}
    (hsend : rf.doSendAppendEntry peer = some o) : o.term = rf.currentTerm := by
  cases o with
  | append args =>
    obtain ⟨-, -, rfl⟩ := doSendAppendEntry_append hsend
    rfl
  | snapshot args =>
    obtain ⟨-, -, rfl⟩ := doSendAppendEntry_snapshot hsend
    rfl

/-- A request of the lane goes out only when no other one is under way. -/
theorem Alone.free {me peer : Fin n} (h : Alone l T p s (.event (.send me peer)))
    {o : Raft.Outgoing n C D} (hsend : (s.proc me).rf.doSendAppendEntry peer = some o) {m : Rpc n C D}
    (hcaller : m.caller = me) (hserver : m.server = peer) (hout : m.outgoing = some o)
    (hlane : m.lane = some (l, T, p)) : s.underWay l T p = [] := by
  obtain ⟨rfl, rfl, o', ho', rfl⟩ := lane_eq hlane
  subst hcaller
  subst hserver
  obtain rfl : o = o' := Option.some.inj (hout.symm.trans ho')
  exact List.isEmpty_iff.mp (h rfl (doSendAppendEntry_term hsend).symm)

theorem Steady.exec (h : Steady l T p s g.core) (hc : Coupled svc s g) (hps : Prompt s)
    (hb : Bounded s) (hsteps : Repl.Steps g.core g'.core) (hg : g ≤ g') (hct : Coupled svc t g')
    (hpt : Prompt t) (hat : Ahead t) (hne : p ≠ l) {e : Event n C D} (he : Exec s e t)
    (halone : Alone l T p s (.event e)) :
    Steady l T p t g'.core ∧ (s.proc l).rf.Grows p T (t.proc l).rf := by
  have hself : p ≠ (s.proc l).rf.me := by rwa [(hc.node l).self]
  have herase : ∀ k, ((s.net.eraseIdx k).filter fun m => m.lane = some (l, T, p)).Sublist
      (s.underWay l T p) := fun k => (List.eraseIdx_sublist _ _).filter _
  cases he with
  | electionTimeout me =>
    refine h.quiet hc.inv hsteps ?_ hat (.set fun _ => .of_ne ?_)
    · show (List.filter _ (_ ++ s.net)).Sublist _
      rw [List.filter_append, filter_broadcast]
      exact .refl _
    · rw [electionTimeout_state]
      simp
  | start me command =>
    refine h.quiet hc.inv hsteps (.refl _) hat (.set fun hme => ?_)
    subst hme
    exact .start hself command
  | sendAppend me peer args hother hsend =>
    refine h.send hc.inv hsteps trivial (halone.free hsend rfl rfl rfl) (fun hlane hl hpaced => ?_) hat
    obtain ⟨rfl, rfl, -⟩ := lane_eq hlane
    obtain ⟨hfirst, hprev⟩ := hc.prev_eq hb hsend
    exact hpaced.append (doSendAppendEntry_term hsend) hfirst hprev
  | sendSnapshot me peer args hother hsend =>
    refine h.send hc.inv hsteps trivial (halone.free hsend rfl rfl rfl) (fun hlane hl hpaced => ?_) hat
    obtain ⟨rfl, rfl, -⟩ := lane_eq hlane
    exact hpaced.snapshot hsend
  | request k m rf reply hm hanswer =>
    by_cases hlane : m.lane = some (l, T, p)
    · obtain ⟨-, rfl, -⟩ := lane_eq hlane
      obtain ⟨hconf, hnot⟩ := hc.answer_paced hps hct hpt hg (List.mem_of_getElem? hm) hanswer
        (Function.update_self _ _ _)
      exact h.request hc.inv hsteps hm hlane hne hanswer.lane hconf hnot
    · refine h.quiet hc.inv hsteps ?_ hat (.set fun hme => ?_)
      · show (List.filter _ (_ :: _)).Sublist _
        rw [List.filter_cons_of_neg (by simpa [hanswer.lane] using hlane)]
        exact herase k
      · subst hme
        exact .on (.answers hanswer)
  | reply k m pr hm hlife hreceive =>
    by_cases hlane : m.lane = some (l, T, p)
    · obtain ⟨rfl, rfl, -⟩ := lane_eq hlane
      refine h.reply hc.inv hsteps hm hlane hreceive (fun hl => ?_) hat
      rw [(hc.node m.caller).log.latest.1]
      exact (hc.node m.caller).matchIndex_le hc.inv hl.1 m.server
    · refine h.quiet hc.inv hsteps (herase k) hat (.set fun hme => ?_)
      subst hme
      exact .receives hself hlane hreceive
  | stale k m hm hlife => exact h.quiet hc.inv hsteps (herase k) hat (Rests.refl _)
  | lose k => exact h.quiet hc.inv hsteps (herase k) hat (Rests.refl _)
  | snapshot me index data =>
    refine h.quiet hc.inv hsteps (.refl _) hat (.set fun hme => ?_)
    subst hme
    exact .snapshot (hc.shape _) index data
  | applier me hsending =>
    refine h.quiet hc.inv hsteps (.refl _) hat (.set fun hme => ?_)
    subst hme
    exact .on (.applier _)
  | deliver me msg hsending =>
    refine h.quiet hc.inv hsteps (.refl _) hat (.set fun hme => ?_)
    subst hme
    exact .refl _

/-! ## Runs -/

/-- Everything that holds in a state of a run in which the requests of the lane do not overlap. -/
structure Orderly (svc : Service C D) (l : Fin n) (T : Nat) (p : Fin n) (s : Cluster n C D)
    (g : Ghost n C D) : Prop where
  coupled : Coupled svc s g
  produced : g.produced = fun _ _ => True
  prompt : Prompt s
  bounded : Bounded s
  ahead : Ahead s
  steady : Steady l T p s g.core

theorem Orderly.initial : Orderly svc l T p (Cluster.initial n C D)
    (Ghost.initial n C D fun _ _ => True) where
  coupled := coupled_initial _
  produced := rfl
  prompt := prompt_initial
  bounded := Bounded.initial
  ahead := ahead_initial
  steady := by
    have hs : ((Cluster.initial n C D).proc l).rf.state = .follower := make_state l makePersister
    refine ⟨fun hl => ?_, fun m hm => absurd hm List.not_mem_nil, Nat.zero_le 1⟩
    rw [Raft.Leads, hs] at hl
    exact absurd hl.1 (by simp)

theorem Orderly.step (h : Orderly svc l T p s g) (hne : p ≠ l) {a : Action n C D}
    (hallowed : a.Allowed svc s) (ht : s.step a = some t) (halone : Alone l T p s a) :
    ∃ g', g ≤ g' ∧ Orderly svc l T p t g' ∧ (s.proc l).rf.Grows p T (t.proc l).rf := by
  obtain ⟨g', hsteps, hp, hct, -⟩ := h.coupled.step ht hallowed fun _ _ _ => by
    rw [h.produced]
    trivial
  have hg : g ≤ g' := by
    refine ⟨(hsteps.inv_ext h.coupled.inv).2, fun _ _ hpr => ?_⟩
    rw [hp]
    exact hpr
  have hpt := prompt_step h.prompt h.coupled ht
  have hbt := h.bounded.step h.coupled ht
  have hat := ahead_step h.ahead h.coupled ht
  have hsteady : Steady l T p t g'.core ∧ (s.proc l).rf.Grows p T (t.proc l).rf := by
    rcases step_cases ht with ⟨e, rfl, he⟩ | ⟨me, persister, net, hsub, -, rfl⟩
    · exact h.steady.exec h.coupled h.prompt h.bounded hsteps hg hct hpt hat hne he halone
    · refine h.steady.quiet h.coupled.inv hsteps (hsub.filter _) hat (.set fun _ => .of_ne ?_)
      rw [Process.boot, make_state]
      simp
  exact ⟨g', hg, ⟨hct, hp.trans h.produced, hpt, hbt, hat, hsteady.1⟩, hsteady.2⟩

theorem Orderly.run (h : Orderly svc l T p s g) (hne : p ≠ l) (hrun : (system n svc).Run s tr t)
    (halone : ∀ x ∈ tr, Alone l T p x.1 x.2) :
    ∃ g', g ≤ g' ∧ Orderly svc l T p t g' ∧ ((s.proc l).rf.Leads T → (t.proc l).rf.Leads T →
      (s.proc l).rf.matchIndex p ≤ (t.proc l).rf.matchIndex p) := by
  induction hrun with
  | nil => exact ⟨g, le_rfl, h, fun _ _ => le_rfl⟩
  | @snoc tr u w a _ hstep ih =>
    obtain ⟨gu, hgu, hu, hle⟩ := ih fun x hx => halone x (List.mem_append_left _ hx)
    obtain ⟨gw, hgw, hw, hgrows⟩ := hu.step hne hstep.1 hstep.2
      (halone _ (List.mem_append_right _ (List.mem_singleton_self _)))
    refine ⟨gw, hgu.trans hgw, hw, fun hls hlw => ?_⟩
    rcases hgrows hlw with ⟨hlu, hle'⟩ | ⟨hcand, hterm⟩
    · exact (hle hls hlu).trans hle'
    · -- nobody is a candidate again in a term that it has led
      obtain ⟨hleader, -⟩ := (h.coupled.node l).role.leader hls.1
      rw [hls.2] at hleader
      obtain ⟨-, hnot⟩ := (hu.coupled.node l).role.candidate hcand
      rw [hterm] at hnot
      exact absurd (hgu.1.leader hleader) (hnot _)

/-- A leader's own entry is the end of its log, which only grows in its term. -/
theorem own_matchIndex_le {u v : Cluster n C D} {gu gv : Ghost n C D} (hcu : Coupled svc u gu)
    (hcv : Coupled svc v gv) (hg : gu ≤ gv) (hbu : Bounded u) (hbv : Bounded v)
    (hlu : (u.proc l).rf.Leads T) (hlv : (v.proc l).rf.Leads T) :
    (u.proc l).rf.matchIndex l ≤ (v.proc l).rf.matchIndex l := by
  have hend : ∀ {w : Cluster n C D} {gw : Ghost n C D}, Coupled svc w gw → Bounded w →
      (w.proc l).rf.Leads T → (w.proc l).rf.matchIndex l = (gw.core.llog T).length := by
    intro w gw hcw hbw hlw
    have hown := (hbw.leading l hlw.1).own
    obtain ⟨-, -, hlog⟩ := (hcw.node l).leads hcw.inv hlw.1
    rwa [(hcw.node l).self, (hcw.node l).log.latest.1, hlog, hlw.2] at hown
  rw [hend hcu hbu hlu, hend hcv hbv hlv]
  exact (hg.1.llog T).length_le

/-- If in the term of a leader no request of it to the peer goes out while another one is under way,
then its `matchIndex` for the peer never decreases in that term. -/
theorem matchIndex_monotone (h : Run svc tr s) {u v : Cluster n C D} {i j : Nat} (hij : i ≤ j)
    (hu : (visited tr s)[i]? = some u) (hv : (visited tr s)[j]? = some v)
    (hlu : (u.proc l).rf.Leads T) (hlv : (v.proc l).rf.Leads T)
    (halone : ∀ x ∈ tr, Alone l T p x.1 x.2) :
    (u.proc l).rf.matchIndex p ≤ (v.proc l).rf.matchIndex p := by
  have hrun := (h.at_visited hu).1
  have hrun' := h.between hij hu hv
  by_cases hne : p = l
  · subst hne
    obtain ⟨gu, -, -, hpu, hcu⟩ := (coupled_initial fun _ _ => True).goes_on rfl hrun
    obtain ⟨gv, -, hg, -, hcv⟩ := hcu.goes_on hpu hrun'
    obtain ⟨-, hbu, -⟩ := h.bounded u (List.mem_of_getElem? hu)
    obtain ⟨-, hbv, -⟩ := h.bounded v (List.mem_of_getElem? hv)
    exact own_matchIndex_le hcu hcv hg hbu hbv hlu hlv
  · obtain ⟨gu, -, hou, -⟩ := Orderly.initial.run hne hrun
      fun x hx => halone x (List.mem_of_mem_take hx)
    obtain ⟨gv, -, -, hle⟩ := hou.run hne hrun'
      fun x hx => halone x (List.mem_of_mem_take (List.mem_of_mem_drop hx))
    exact hle hlu hlv

/-- The leader of the sample waits for the reply to its first append before it sends the second
command: `matchIndex[1]` goes from 1 to 2. -/
theorem matchIndex_monotone_waiting :
    let as : List SampleAction := electing ++ storing ++ committing
    let bs : List SampleAction := as ++ [.event (.start 0 (some 8)), .event (.send 0 1),
      .event (.handle 0), .event (.handle 0)]
    ((sampleAt as).proc 0).rf.matchIndex 1 = 1 ∧ ((sampleAt bs).proc 0).rf.matchIndex 1 = 2 ∧
      ((sampleAt as).proc 0).rf.matchIndex 1 ≤ ((sampleAt bs).proc 0).rf.matchIndex 1 := by
  refine ⟨by decide, by decide, ?_⟩
  exact matchIndex_monotone (sample_run (electing ++ storing ++ committing ++
    [.event (.start 0 (some 8)), .event (.send 0 1), .event (.handle 0), .event (.handle 0)])
    (by decide)) (i := 9) (j := 13) (T := 1) (by decide) rfl rfl (by decide) (by decide) (by decide)

end DistSys.Raft1
