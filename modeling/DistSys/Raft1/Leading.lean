import DistSys.Raft1.NextIndex

/- What a leader keeps about its peers.

   Only the functions that a leader runs for itself write `matchIndex` and `nextIndex`; the
   others leave a leader as it is or end its term as one (`LeadsOn`). From its election on a
   leader's own `matchIndex` is the end of its log, since no request goes to itself, and
   `nextIndex` is never beyond the entry after it. -/
namespace DistSys.Raft1

open Lib

variable {n : Nat} {C D : Type} {svc : Service C D} {s t : Cluster n C D} {g : Ghost n C D}
  {rf rf' : Raft n C D}

/-! ## Functions that a leader does not run -/

/-- What `rf'` leads with is what `rf` led with. -/
structure LeadsAlike (rf rf' : Raft n C D) : Prop where
  leads : rf.state = .leader
  me : rf'.me = rf.me
  term : rf'.currentTerm = rf.currentTerm
  logs : rf'.logs = rf.logs
  matchIndex : rf'.matchIndex = rf.matchIndex
  nextIndex : rf'.nextIndex = rf.nextIndex

def LeadsOn (rf rf' : Raft n C D) : Prop := rf'.state = .leader → LeadsAlike rf rf'

namespace LeadsOn

theorem of_ne (h : rf'.state ≠ .leader) : LeadsOn rf rf' := fun hs => absurd hs h

theorem refl (rf : Raft n C D) : LeadsOn rf rf := fun hs => ⟨hs, rfl, rfl, rfl, rfl, rfl⟩

theorem stepDown (rf : Raft n C D) (T : Nat) : LeadsOn rf (rf.updateTermAndStepDown T) := by
  unfold Raft.updateTermAndStepDown
  split
  · apply of_ne
    rw [changeState_follower]
    simp [Raft.persistState, Raft.persist]
  · exact refl rf

theorem requestVote (rf : Raft n C D) (args : RequestVoteArgs n) :
    LeadsOn rf (rf.requestVote args).1 := by
  unfold Raft.requestVote
  split
  · exact refl rf
  · simp only
    split
    · exact stepDown rf args.term
    · intro hs
      obtain ⟨hleads, hme, hterm, hlogs, hmatch, hnext⟩ := stepDown rf args.term hs
      exact ⟨hleads, hme, hterm, hlogs, hmatch, hnext⟩

theorem appendEntry (rf : Raft n C D) (args : AppendEntryArgs n C) :
    LeadsOn rf (rf.appendEntry args).1 := by
  by_cases hterm : args.term < rf.currentTerm
  · unfold Raft.appendEntry
    rw [if_pos hterm]
    exact refl rf
  · apply of_ne
    rw [appendEntry_of_ge hterm, appendAsFollower_state rfl]
    simp

theorem installSnapShot (rf : Raft n C D) (args : InstallSnapShotArgs n D) :
    LeadsOn rf (rf.installSnapShot args).1 := by
  unfold Raft.installSnapShot
  split
  · exact refl rf
  · have hfollow : (rf.followSnapShot args.term).state ≠ .leader := by
      rw [Raft.followSnapShot, changeState_follower]
      simp
    generalize rf.followSnapShot args.term = rf₁ at hfollow ⊢
    simp only
    split
    · exact of_ne hfollow
    · apply of_ne
      unfold Raft.replaceBySnapShot Raft.persist
      cases args.data <;> exact hfollow

theorem answers {payload reply : Payload n C D} (h : Answers rf payload rf' reply) :
    LeadsOn rf rf' := by
  cases h with
  | vote args => exact requestVote rf args
  | append args => exact appendEntry rf args
  | snapshot args => exact installSnapShot rf args

theorem applier (rf : Raft n C D) : LeadsOn rf rf.applier.1 := by
  unfold Raft.applier
  split
  · exact fun hs => ⟨hs, rfl, rfl, rfl, rfl, rfl⟩
  · simp only
    split
    · exact refl rf
    · split
      · exact fun hs => ⟨hs, rfl, rfl, rfl, rfl, rfl⟩
      · split
        · exact refl rf
        · split <;> exact fun hs => ⟨hs, rfl, rfl, rfl, rfl, rfl⟩

end LeadsOn

theorem electionTimeout_state (rf : Raft n C D) : rf.electionTimeout.1.state = .candidate := by
  rw [electionTimeout_eq]
  rfl

theorem make_state (me : Fin n) (persister : Persister n C D) :
    (Raft.make me persister).state = .follower := by
  unfold Raft.make Raft.readPersist
  split <;> rfl

/-! ## Going back -/

namespace Raft

/-- `next`, kept inside the log or right after it. -/
def bounded (rf : Raft n C D) (next : Nat) : Nat :=
  min (max next rf.getFirstLog.index) (rf.getLatestLog.index + 1)

def setNext (rf : Raft n C D) (peer : Fin n) (next : Nat) : Raft n C D :=
  { rf with nextIndex := Function.update rf.nextIndex peer next }

theorem nextIndex_setNext (rf : Raft n C D) (peer : Fin n) (next : Nat) :
    (rf.setNext peer next).nextIndex peer = next := Function.update_self _ _ _

theorem lt_bounded {rf : Raft n C D} {i next : Nat} (h : i < next) (hlast : i ≤ rf.getLatestLog.index) :
    i < rf.bounded next :=
  lt_min (lt_max_of_lt_left h) (Nat.lt_succ_of_le hlast)

end Raft

/-- The two bounds that `rollBackToConflictTerm` keeps to. -/
theorem clamp_eq (x a b : Nat) : (if (if x < a then a else x) > b then b else if x < a then a else x) =
    min (max x a) b := by
  split <;> split at * <;> omega

theorem rollBack_bounded (rf : Raft n C D) (peer : Fin n) (args : AppendEntryArgs n C)
    (reply : AppendEntryReply) :
    ∃ next, rf.rollBackToConflictTerm peer args reply = rf.setNext peer (rf.bounded next) := by
  unfold Raft.rollBackToConflictTerm
  simp only
  rw [clamp_eq]
  exact ⟨_, rfl⟩

/-! ## The bounds -/

/-- The leader's own entry, and how far it thinks ahead. -/
structure Leading (rf : Raft n C D) : Prop where
  own : rf.matchIndex rf.me = rf.getLatestLog.index
  next : ∀ p, rf.nextIndex p ≤ rf.getLatestLog.index + 1

/-- Nobody sends entries or a snapshot to itself. -/
def Rpc.ToOther (m : Rpc n C D) : Prop :=
  match m.payload with
  | .voteReq _ => True
  | .voteRep _ _ => True
  | _ => m.caller ≠ m.server

theorem start_leader (hs : rf.state = .leader) (command : Option C) :
    (rf.start command).1.getLatestLog.index = rf.getLatestLog.index + 1 ∧
      (rf.start command).1.me = rf.me ∧
      (rf.start command).1.matchIndex =
        Function.update rf.matchIndex rf.me (rf.getLatestLog.index + 1) ∧
      (rf.start command).1.nextIndex =
        Function.update rf.nextIndex rf.me (rf.getLatestLog.index + 2) := by
  unfold Raft.start
  rw [if_neg (not_not.mpr hs)]
  refine ⟨?_, rfl, rfl, rfl⟩
  simp [Raft.getLatestLog, Raft.updateLogIndices, Raft.persistState, Raft.persist]

namespace Leading

theorem same (h : Leading rf) (ha : LeadsAlike rf rf') : Leading rf' := by
  have hlatest : rf'.getLatestLog = rf.getLatestLog := by rw [Raft.getLatestLog, ha.logs]; rfl
  constructor
  · rw [ha.matchIndex, ha.me, hlatest]
    exact h.own
  · intro p
    rw [ha.nextIndex, hlatest]
    exact h.next p

theorem on (h : rf.state = .leader → Leading rf) (ha : LeadsOn rf rf') (hs : rf'.state = .leader) :
    Leading rf' :=
  (h (ha hs).leads).same (ha hs)

theorem elected (hs : rf.state = .candidate) : Leading (rf.changeState .leader) := by
  unfold Raft.changeState
  rw [if_neg (by rw [hs]; simp)]
  refine ⟨Function.update_self _ _ _, fun p => ?_⟩
  show Function.update (fun _ => rf.getLatestLog.index + 1) rf.me (rf.getLatestLog.index + 1) p ≤ _
  rw [Function.update_apply]
  split <;> exact le_rfl

theorem updateLogIndices (h : Leading rf) {peer : Fin n} (hpeer : rf.me ≠ peer) {i : Nat}
    (hi : i ≤ rf.getLatestLog.index) : Leading (rf.updateLogIndices peer i) := by
  refine ⟨(Function.update_of_ne hpeer _ _).trans h.own, fun p => ?_⟩
  show Function.update rf.nextIndex peer (i + 1) p ≤ _
  rw [Function.update_apply]
  split
  · exact Nat.succ_le_succ hi
  · exact h.next p

theorem setNext (h : Leading rf) (peer : Fin n) {next : Nat}
    (hnext : next ≤ rf.getLatestLog.index + 1) : Leading (rf.setNext peer next) := by
  refine ⟨h.own, fun p => ?_⟩
  show Function.update rf.nextIndex peer next p ≤ _
  rw [Function.update_apply]
  split
  · exact hnext
  · exact h.next p

theorem start (h : rf.state = .leader → Leading rf) (command : Option C)
    (hs : (rf.start command).1.state = .leader) : Leading (rf.start command).1 := by
  by_cases hleads : rf.state = .leader
  · obtain ⟨hlatest, hme, hmatch, hnext⟩ := start_leader hleads command
    constructor
    · rw [hmatch, hme, Function.update_self, hlatest]
    · intro p
      have hold := (h hleads).next p
      rw [hnext, Function.update_apply, hlatest]
      split <;> omega
  · unfold Raft.start at hs ⊢
    rw [if_pos hleads] at hs ⊢
    exact h hs

theorem handleVoteReply (h : rf.state = .leader → Leading rf) (votes : Nat)
    (args : RequestVoteArgs n) (reply : RequestVoteReply)
    (hs : (rf.handleVoteReply votes args reply).1.state = .leader) :
    Leading (rf.handleVoteReply votes args reply).1 := by
  unfold Raft.handleVoteReply at hs ⊢
  split
  · rename_i hvalid
    obtain ⟨hcand, -⟩ : rf.state = .candidate ∧ rf.currentTerm = args.term := by
      simpa [Raft.isValidCandidate] using hvalid
    rw [if_pos hvalid] at hs
    split
    · rename_i hgranted
      rw [if_pos hgranted] at hs
      split
      · exact elected hcand
      · rename_i hfew
        rw [if_neg hfew] at hs
        exact h hs
    · rename_i hgranted
      rw [if_neg hgranted] at hs
      split
      · rename_i hnewer
        rw [if_pos hnewer] at hs
        exact on h (.stepDown rf reply.term) hs
      · rename_i hnewer
        rw [if_neg hnewer] at hs
        exact h hs
  · rename_i hvalid
    rw [if_neg hvalid] at hs
    exact h hs

theorem handleAppendReply (h : rf.state = .leader → Leading rf) {peer : Fin n} (hpeer : rf.me ≠ peer)
    {args : AppendEntryArgs n C} {reply : AppendEntryReply}
    (hreply : rf.state = .leader → rf.currentTerm = args.term → reply.success = true →
      args.prevLogIndex + args.entries.length ≤ rf.getLatestLog.index)
    (hs : (rf.handleAppendReply peer args reply).state = .leader) :
    Leading (rf.handleAppendReply peer args reply) := by
  unfold Raft.handleAppendReply at hs ⊢
  split
  · rename_i hvalid
    rw [if_pos hvalid] at hs
    exact h hs
  · rename_i hvalid
    rw [if_neg hvalid] at hs
    obtain ⟨hleads, hterm⟩ : rf.state = .leader ∧ rf.currentTerm = args.term := by
      simpa [Raft.isValidLeader] using hvalid
    split
    · rename_i hfail
      rw [if_pos hfail] at hs
      split
      · rename_i hnewer
        rw [if_pos hnewer] at hs
        exact on h (.stepDown rf reply.term) hs
      · obtain ⟨next, heq⟩ := rollBack_bounded rf peer args reply
        rw [heq]
        exact (h hleads).setNext peer (min_le_right _ _)
    · rename_i hfail
      obtain ⟨i, -, heq⟩ := acceptNewLogEntries_eq rf peer args
      rw [heq]
      have hl := (h hleads).updateLogIndices hpeer (hreply hleads hterm (by simpa using hfail))
      exact ⟨hl.own, hl.next⟩

theorem handleSnapShotReply (h : rf.state = .leader → Leading rf) {peer : Fin n}
    (hpeer : rf.me ≠ peer) {args : InstallSnapShotArgs n D} {reply : InstallSnapShotReply}
    (hreply : rf.state = .leader → rf.currentTerm = args.term → reply.term ≤ args.term →
      args.lastIncludedIndex ≤ rf.getLatestLog.index)
    (hs : (rf.handleSnapShotReply peer args reply).state = .leader) :
    Leading (rf.handleSnapShotReply peer args reply) := by
  unfold Raft.handleSnapShotReply at hs ⊢
  split
  · rename_i hvalid
    rw [if_pos hvalid] at hs
    split
    · rename_i hnewer
      rw [if_pos hnewer] at hs
      exact on h (.stepDown rf reply.term) hs
    · exact (h hvalid.1).updateLogIndices hpeer (hreply hvalid.1 hvalid.2 (by omega))
  · rename_i hvalid
    rw [if_neg hvalid] at hs
    exact h hs

end Leading

/-- A snapshot keeps the end of the log. -/
theorem latest_snapshot (hshape : Shape rf.logs) (index : Nat) (data : D) :
    (rf.snapshot index data).getLatestLog.index = rf.getLatestLog.index := by
  have hlen := hshape.latest
  unfold Raft.snapshot
  simp only
  split
  · rfl
  · rename_i hrange
    have hdrop : index - rf.getFirstLog.index < rf.logs.length := by omega
    show (({ (rf.logs.drop (index - rf.getFirstLog.index)).headD default with command := none } ::
      (rf.logs.drop (index - rf.getFirstLog.index)).tail).getLastD default).index = _
    have hlast : (rf.logs.drop (index - rf.getFirstLog.index)).getLastD default = rf.getLatestLog := by
      rw [Raft.getLatestLog, List.getLastD_eq_getLast?, List.getLastD_eq_getLast?, List.getLast?_drop,
        if_neg (by omega)]
    rw [← hlast]
    cases rf.logs.drop (index - rf.getFirstLog.index) with
    | nil => rfl
    | cons x xs => cases xs <;> rfl

theorem snapshot_fields (rf : Raft n C D) (index : Nat) (data : D) :
    (rf.snapshot index data).state = rf.state ∧ (rf.snapshot index data).me = rf.me ∧
      (rf.snapshot index data).currentTerm = rf.currentTerm ∧
      (rf.snapshot index data).matchIndex = rf.matchIndex ∧
      (rf.snapshot index data).nextIndex = rf.nextIndex := by
  unfold Raft.snapshot
  simp only
  split <;> exact ⟨rfl, rfl, rfl, rfl, rfl⟩

theorem Leading.snapshot (h : Leading rf) (hshape : Shape rf.logs) (index : Nat) (data : D) :
    Leading (rf.snapshot index data) := by
  obtain ⟨-, hme, -, hmatch, hnext⟩ := snapshot_fields rf index data
  constructor
  · rw [hmatch, hme, latest_snapshot hshape]
    exact h.own
  · intro p
    rw [hnext, latest_snapshot hshape]
    exact h.next p

/-! ## Runs -/

/-- What a compacted log looks like. -/
theorem Shows.shape {c : Repl (Fin n) (Option C)} (hi : c.Inv) {ℓ : List (Entry (Option C))}
    (hℓ : c.Sourced ℓ) (h : Shows ℓ rf) : Shape rf.logs := by
  have hlen := h.length
  have hfirst : (rf.logs.headD default).index = rf.lastIncludedIndex := congrArg LogEntry.index h.first
  have hget : ∀ k < rf.logs.length, (rf.logs.getD k default).term = termAt ℓ (rf.lastIncludedIndex + k) ∧
      (rf.logs.getD k default).index = rf.lastIncludedIndex + k := by
    intro k hk
    have hentry := h.getD (Nat.le_add_right rf.lastIncludedIndex k) (by have := h.first_len; omega)
    rwa [Nat.add_sub_cancel_left] at hentry
  refine ⟨by omega, fun k hk => ?_, ?_⟩
  · rw [hfirst]
    exact (hget k hk).2
  · rw [List.pairwise_map, List.pairwise_iff_getElem]
    intro i j hi' hj hij
    have hi₁ := (hget i hi').1
    have hj₁ := (hget j hj).1
    rw [List.getD_eq_getElem _ _ hi'] at hi₁
    rw [List.getD_eq_getElem _ _ hj] at hj₁
    rw [hi₁, hj₁]
    exact hℓ.mono hi (by omega) (by have := h.first_len; omega)

theorem Coupled.shape (hc : Coupled svc s g) (q : Fin n) : Shape (s.proc q).rf.logs :=
  (hc.node q).log.shows.shape hc.inv (hc.inv.log_src q)

/-- The bounds of all leaders. -/
structure Bounded (s : Cluster n C D) : Prop where
  leading : ∀ q, (s.proc q).rf.state = .leader → Leading (s.proc q).rf
  net : ∀ m ∈ s.net, m.ToOther

theorem Coupled.receives_bounded (hc : Coupled svc s g) (h : Bounded s) {m : Rpc n C D}
    (hm : m ∈ s.net) {p : Process n C D}
    (hreceive : Receives m.server (s.proc m.caller) m.payload p) (hs : p.rf.state = .leader) :
    Leading p.rf := by
  have hl := h.leading m.caller
  have hn := hc.node m.caller
  have hother := h.net m hm
  have hok := hc.net m hm
  unfold Rpc.ToOther at hother
  unfold RpcOk at hok
  generalize m.payload = payload at hreceive hother hok
  cases hreceive with
  | vote args reply => exact Leading.handleVoteReply hl _ args reply hs
  | append args reply =>
    refine Leading.handleAppendReply hl (by rw [hn.self]; exact hother) (fun hleads hterm hsucc => ?_) hs
    have hle := hok.2 hsucc
    rw [← hterm] at hle
    rw [hn.log.latest.1]
    exact hle.trans (hn.acked_le hc.inv hleads m.server)
  | snapshot args reply =>
    refine Leading.handleSnapShotReply hl (by rw [hn.self]; exact hother) (fun hleads hterm hle => ?_) hs
    have hle := hok.2 hle
    rw [← hterm] at hle
    rw [hn.log.latest.1]
    exact hle.trans (hn.acked_le hc.inv hleads m.server)

theorem Coupled.keeps_bounded (hc : Coupled svc s g) (h : Bounded s) (a : Action n C D) :
    Keeps s a (fun _ p => p.rf.state = .leader → Leading p.rf) Rpc.ToOther where
  electionTimeout := fun me => by
    refine ⟨fun hs => ?_, fun _ => trivial⟩
    rw [electionTimeout_state] at hs
    contradiction
  start := fun me command => Leading.start (h.leading me) command
  sendAppend := fun _ _ _ _ hne _ => hne
  sendSnapshot := fun _ _ _ _ hne _ => hne
  request := fun m hm rf' reply hanswer => by
    refine ⟨Leading.on (h.leading m.server) (.answers hanswer), ?_⟩
    have hother := h.net m hm
    unfold Rpc.ToOther at hother ⊢
    generalize m.payload = payload at hanswer hother
    cases hanswer with
    | vote args => trivial
    | append args => exact hother
    | snapshot args => exact hother
  reply := fun m hm _ p hreceive => hc.receives_bounded h hm hreceive
  snapshot := fun me index data hs => by
    rw [(snapshot_fields _ index data).1] at hs
    exact (h.leading me hs).snapshot (hc.shape me) index data
  applier := fun me => Leading.on (h.leading me) (.applier _)
  deliver := fun me _ _ => h.leading me
  boot := fun _ _ _ _ _ hs => by
    rw [Process.boot, make_state] at hs
    contradiction

theorem Bounded.step (h : Bounded s) (hc : Coupled svc s g) {a : Action n C D}
    (ht : s.step a = some t) : Bounded t := by
  obtain ⟨hleading, hnet⟩ := (hc.keeps_bounded h a).step h.leading h.net ht
  exact ⟨hleading, hnet⟩

theorem Bounded.initial : Bounded (Cluster.initial n C D) := by
  refine ⟨fun q hs => ?_, fun m hm => by simp [Cluster.initial] at hm⟩
  have hs : (Raft.make q (makePersister : Persister n C D)).state = .leader := hs
  rw [make_state] at hs
  contradiction

/-- Every state of a run is coupled, and in it the bounds of leaders hold and no `nextIndex` is 0. -/
theorem Run.bounded {tr : List (Cluster n C D × Action n C D)} (h : Run svc tr s) :
    ∀ u ∈ visited tr s, (∃ g, Coupled svc u g) ∧ Bounded u ∧ Ahead u := by
  obtain ⟨g, -, -, hall⟩ := h.coupled
  have hcoupled : ∀ u ∈ visited tr s, ∃ gu, Coupled svc u gu := by
    intro u hu
    obtain ⟨gu, -, hc⟩ := hall u hu
    exact ⟨gu, hc⟩
  have hinv : ∀ u ∈ visited tr s, Bounded u ∧ Ahead u := by
    refine Lts.Run.invariant_on h (fun u a w hmem hu hstep => ?_) ⟨Bounded.initial, ahead_initial⟩
    obtain ⟨gu, hc⟩ := hcoupled u (List.mem_append_left _ (List.mem_map.mpr ⟨_, hmem, rfl⟩))
    exact ⟨hu.1.step hc hstep.2, ahead_step hu.2 hc hstep.2⟩
  exact fun u hu => ⟨hcoupled u hu, hinv u hu⟩


end DistSys.Raft1
