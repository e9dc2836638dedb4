import DistSys.Raft1.Cluster

/- What an event can do, said once.

   `Exec s e t` has a constructor for every way an event changes the cluster, with the
   conditions under which it does. An invariant that speaks of one process or one message
   at a time (`I` and `J`) then has to be shown for the result of each function of the
   source (`Keeps`), and for nothing else: the rest of the cluster stays as it is, and a
   crash leaves a fresh process and at most the messages there were. -/
namespace DistSys.Raft1

variable {n : Nat} {C D : Type}

/-! ## Events -/

/-- A peer handles a request: what becomes of it, and the reply. -/
inductive Answers (rf : Raft n C D) : Payload n C D → Raft n C D → Payload n C D → Prop where
  | vote (args : RequestVoteArgs n) :
    Answers rf (.voteReq args) (rf.requestVote args).1 (.voteRep args (rf.requestVote args).2)
  | append (args : AppendEntryArgs n C) :
    Answers rf (.appendReq args) (rf.appendEntry args).1 (.appendRep args (rf.appendEntry args).2)
  | snapshot (args : InstallSnapShotArgs n D) :
    Answers rf (.snapReq args) (rf.installSnapShot args).1
      (.snapRep args (rf.installSnapShot args).2)

/-- A process handles a reply of `peer`. -/
inductive Receives (peer : Fin n) (p : Process n C D) : Payload n C D → Process n C D → Prop where
  | vote (args : RequestVoteArgs n) (reply : RequestVoteReply) :
    Receives peer p (.voteRep args reply)
      { p with
        rf := (p.rf.handleVoteReply p.grantedVotes args reply).1
        grantedVotes := (p.rf.handleVoteReply p.grantedVotes args reply).2 }
  | append (args : AppendEntryArgs n C) (reply : AppendEntryReply) :
    Receives peer p (.appendRep args reply) { p with rf := p.rf.handleAppendReply peer args reply }
  | snapshot (args : InstallSnapShotArgs n D) (reply : InstallSnapShotReply) :
    Receives peer p (.snapRep args reply) { p with rf := p.rf.handleSnapShotReply peer args reply }

/-- The ways an event changes the cluster. -/
inductive Exec (s : Cluster n C D) : Event n C D → Cluster n C D → Prop where
  | electionTimeout (me : Fin n) : Exec s (.electionTimeout me)
      (s.set me { s.proc me with rf := (s.proc me).rf.electionTimeout.1, grantedVotes := 1 }
        (Cluster.broadcast me (s.proc me).incarnation (.voteReq (s.proc me).rf.electionTimeout.2) ++
          s.net))
  | start (me : Fin n) (command : Option C) : Exec s (.start me command)
      (s.set me { s.proc me with rf := ((s.proc me).rf.start command).1 } s.net)
  | sendAppend (me peer : Fin n) (args : AppendEntryArgs n C) (hne : me ≠ peer)
      (hsend : (s.proc me).rf.doSendAppendEntry peer = some (.append args)) :
      Exec s (.send me peer)
        { s with net := ⟨me, (s.proc me).incarnation, peer, .appendReq args⟩ :: s.net }
  | sendSnapshot (me peer : Fin n) (args : InstallSnapShotArgs n D) (hne : me ≠ peer)
      (hsend : (s.proc me).rf.doSendAppendEntry peer = some (.snapshot args)) :
      Exec s (.send me peer)
        { s with net := ⟨me, (s.proc me).incarnation, peer, .snapReq args⟩ :: s.net }
  | request (k : Nat) (m : Rpc n C D) (rf : Raft n C D) (reply : Payload n C D)
      (hm : s.net[k]? = some m) (hanswer : Answers (s.proc m.server).rf m.payload rf reply) :
      Exec s (.handle k) (s.set m.server { s.proc m.server with rf := rf }
        ({ m with payload := reply } :: s.net.eraseIdx k))
  | reply (k : Nat) (m : Rpc n C D) (p : Process n C D) (hm : s.net[k]? = some m)
      (hlife : m.incarnation = (s.proc m.caller).incarnation)
      (hreceive : Receives m.server (s.proc m.caller) m.payload p) :
      Exec s (.handle k) (s.set m.caller p (s.net.eraseIdx k))
  /-- Nobody waits for the reply any more. -/
  | stale (k : Nat) (m : Rpc n C D) (hm : s.net[k]? = some m)
      (hlife : m.incarnation ≠ (s.proc m.caller).incarnation) :
      Exec s (.handle k) { s with net := s.net.eraseIdx k }
  | lose (k : Nat) : Exec s (.lose k) { s with net := s.net.eraseIdx k }
  | snapshot (me : Fin n) (index : Nat) (data : D) : Exec s (.snapshot me index data)
      (s.set me { s.proc me with rf := (s.proc me).rf.snapshot index data } s.net)
  | applier (me : Fin n) (hsending : (s.proc me).sending = none) : Exec s (.applier me)
      (s.set me { s.proc me with
        rf := (s.proc me).rf.applier.1, sending := (s.proc me).rf.applier.2 } s.net)
  | deliver (me : Fin n) (msg : ApplyMsg C D) (hsending : (s.proc me).sending = some msg) :
      Exec s (.deliver me) (s.set me { s.proc me with
        sending := none, applyCh := (s.proc me).applyCh ++ [msg] } s.net)

variable {s t : Cluster n C D}

section Sends
variable {rf : Raft n C D} {peer : Fin n}

/-- Only a leader sends an append, and from an entry that it retains. -/
theorem doSendAppendEntry_append {args : AppendEntryArgs n C}
    (h : rf.doSendAppendEntry peer = some (.append args)) :
    rf.state = .leader ∧ rf.getFirstLog.index < rf.nextIndex peer ∧
      args = rf.genAppendEntryArgs (rf.nextIndex peer - 1) := by
  unfold Raft.doSendAppendEntry at h
  split at h
  · contradiction
  · rename_i hs
    split at h
    · simp at h
    · rename_i hnext
      exact ⟨not_not.mp hs, not_le.mp hnext, by simpa using h.symm⟩

/-- Only a leader sends a snapshot, and to a peer that needs an entry that it has compacted. -/
theorem doSendAppendEntry_snapshot {args : InstallSnapShotArgs n D}
    (h : rf.doSendAppendEntry peer = some (.snapshot args)) :
    rf.state = .leader ∧ rf.nextIndex peer ≤ rf.getFirstLog.index ∧
      args = rf.makeInstallSnapShotArgs := by
  unfold Raft.doSendAppendEntry at h
  split at h
  · contradiction
  · rename_i hs
    split at h
    · rename_i hnext
      exact ⟨not_not.mp hs, hnext, by simpa using h.symm⟩
    · simp at h

end Sends

theorem exec_of_handle {k : Nat} {m : Rpc n C D} (hm : s.net[k]? = some m) :
    Exec s (.handle k) (s.handle m (s.net.eraseIdx k)) := by
  have hreply : ∀ {f : Process n C D → Process n C D},
      Receives m.server (s.proc m.caller) m.payload (f (s.proc m.caller)) →
      Exec s (.handle k) (s.handleReply m (s.net.eraseIdx k) f) := by
    intro f hf
    unfold Cluster.handleReply
    split
    · rename_i hlife
      exact .reply k m _ hm hlife hf
    · rename_i hlife
      exact .stale k m hm hlife
  unfold Cluster.handle
  cases hp : m.payload with
  | voteReq args => exact .request k m _ _ hm (hp ▸ .vote args)
  | appendReq args => exact .request k m _ _ hm (hp ▸ .append args)
  | snapReq args => exact .request k m _ _ hm (hp ▸ .snapshot args)
  | voteRep args reply => exact hreply (hp ▸ .vote args reply)
  | appendRep args reply => exact hreply (hp ▸ .append args reply)
  | snapRep args reply => exact hreply (hp ▸ .snapshot args reply)

theorem exec_cases {e : Event n C D} (ht : s.exec e = some t) : Exec s e t := by
  cases e with
  | electionTimeout me =>
    obtain rfl := Option.some.inj ht
    exact .electionTimeout me
  | start me command =>
    obtain rfl := Option.some.inj ht
    exact .start me command
  | send me peer =>
    obtain ⟨hne, ht⟩ := Option.ite_none_left_eq_some.mp ht
    split at ht
    · contradiction
    · rename_i args hsend
      obtain rfl := Option.some.inj ht
      exact .sendAppend me peer args hne hsend
    · rename_i args hsend
      obtain rfl := Option.some.inj ht
      exact .sendSnapshot me peer args hne hsend
  | handle k =>
    obtain ⟨m, hm, rfl⟩ := Option.map_eq_some_iff.mp ht
    exact exec_of_handle hm
  | lose k =>
    obtain ⟨-, ht⟩ := Option.ite_none_right_eq_some.mp ht
    obtain rfl := Option.some.inj ht
    exact .lose k
  | snapshot me index data =>
    obtain rfl := Option.some.inj ht
    exact .snapshot me index data
  | applier me =>
    simp only [Cluster.exec] at ht
    split at ht
    · contradiction
    · rename_i hsending
      obtain rfl := Option.some.inj ht
      exact .applier me hsending
  | deliver me =>
    simp only [Cluster.exec] at ht
    split at ht
    · contradiction
    · rename_i msg hsending
      obtain rfl := Option.some.inj ht
      exact .deliver me msg hsending

theorem taken_sublist (s : Cluster n C D) (e : Event n C D) : (s.taken e).Sublist s.net := by
  cases e <;> first | exact List.eraseIdx_sublist _ _ | exact List.Sublist.refl _

/-- A crash finds the saves made before it, or some of those of the event it comes in. -/
def Cluster.LeftBy (s : Cluster n C D) (me : Fin n) (persister : Persister n C D) : Prop :=
  persister = (s.proc me).rf.persister ∨
    ∃ e u, Exec s e u ∧ persister.saves <:+ (u.proc me).rf.persister.saves

/-- An action is an event, or a crash that leaves a process on what its persister holds. -/
theorem step_cases {a : Action n C D} (ht : s.step a = some t) :
    (∃ e, a = .event e ∧ Exec s e t) ∨
      ∃ me persister net, (net : List (Rpc n C D)).Sublist s.net ∧ s.LeftBy me persister ∧
        t = s.restart me persister net := by
  cases a with
  | event e => exact Or.inl ⟨e, rfl, exec_cases ht⟩
  | crash me =>
    obtain rfl := Option.some.inj ht
    exact Or.inr ⟨me, _, _, List.Sublist.refl _, Or.inl rfl, rfl⟩
  | crashIn me e k =>
    simp only [Cluster.step] at ht
    split at ht
    · contradiction
    · rename_i u hu
      obtain ⟨-, ht⟩ := Option.ite_none_right_eq_some.mp ht
      obtain rfl := Option.some.inj ht
      exact Or.inr ⟨me, _, _, taken_sublist s e,
        Or.inr ⟨e, u, exec_cases hu, List.drop_suffix _ _⟩, rfl⟩

/-! ## Invariants of one process and one message -/

/-- What has to be shown in `s` for the action `a` to keep `I` and `J`. -/
structure Keeps (s : Cluster n C D) (a : Action n C D) (I : Fin n → Process n C D → Prop)
    (J : Rpc n C D → Prop) : Prop where
  electionTimeout : ∀ me,
    I me { s.proc me with rf := (s.proc me).rf.electionTimeout.1, grantedVotes := 1 } ∧
      ∀ peer, J ⟨me, (s.proc me).incarnation, peer, .voteReq (s.proc me).rf.electionTimeout.2⟩
  start : ∀ me command, I me { s.proc me with rf := ((s.proc me).rf.start command).1 }
  sendAppend : ∀ me peer args, a = .event (.send me peer) → me ≠ peer →
    (s.proc me).rf.doSendAppendEntry peer = some (.append args) →
    J ⟨me, (s.proc me).incarnation, peer, .appendReq args⟩
  sendSnapshot : ∀ me peer args, a = .event (.send me peer) → me ≠ peer →
    (s.proc me).rf.doSendAppendEntry peer = some (.snapshot args) →
    J ⟨me, (s.proc me).incarnation, peer, .snapReq args⟩
  request : ∀ m ∈ s.net, ∀ rf reply, Answers (s.proc m.server).rf m.payload rf reply →
    I m.server { s.proc m.server with rf := rf } ∧ J { m with payload := reply }
  reply : ∀ m ∈ s.net, m.incarnation = (s.proc m.caller).incarnation →
    ∀ p, Receives m.server (s.proc m.caller) m.payload p → I m.caller p
  snapshot : ∀ me index data, I me { s.proc me with rf := (s.proc me).rf.snapshot index data }
  applier : ∀ me, I me { s.proc me with
    rf := (s.proc me).rf.applier.1, sending := (s.proc me).rf.applier.2 }
  deliver : ∀ me msg, (s.proc me).sending = some msg → I me { s.proc me with
    sending := none, applyCh := (s.proc me).applyCh ++ [msg] }
  /-- The saves that a crash leaves end those of a process that has the property itself. -/
  boot : ∀ me p, I me p → ∀ persister : Persister n C D,
    persister.saves <:+ p.rf.persister.saves →
    I me (Process.boot me ((s.proc me).incarnation + 1) persister)

theorem forall_proc_set {I : Fin n → Process n C D → Prop} {me : Fin n} {p : Process n C D}
    {net : List (Rpc n C D)} (h : ∀ q, I q (s.proc q)) (hp : I me p) (q : Fin n) :
    I q ((s.set me p net).proc q) := by
  by_cases hq : q = me
  · subst hq
    show I q (Function.update s.proc q p q)
    rw [Function.update_self]
    exact hp
  · show I q (Function.update s.proc me p q)
    rw [Function.update_of_ne hq]
    exact h q

theorem Keeps.proc {a : Action n C D} {I : Fin n → Process n C D → Prop} {J : Rpc n C D → Prop}
    (hk : Keeps s a I J) (hI : ∀ q, I q (s.proc q)) {e : Event n C D} (he : Exec s e t) :
    ∀ q, I q (t.proc q) := by
  cases he with
  | electionTimeout me => exact forall_proc_set hI (hk.electionTimeout me).1
  | start me command => exact forall_proc_set hI (hk.start me command)
  | request k m rf reply hm hanswer =>
    exact forall_proc_set hI (hk.request m (List.mem_of_getElem? hm) rf reply hanswer).1
  | reply k m p hm hlife hreceive =>
    exact forall_proc_set hI (hk.reply m (List.mem_of_getElem? hm) hlife p hreceive)
  | snapshot me index data => exact forall_proc_set hI (hk.snapshot me index data)
  | applier me _ => exact forall_proc_set hI (hk.applier me)
  | deliver me msg hsending => exact forall_proc_set hI (hk.deliver me msg hsending)
  | _ => exact hI

theorem Keeps.net {I : Fin n → Process n C D → Prop} {J : Rpc n C D → Prop} {e : Event n C D}
    (hk : Keeps s (.event e) I J) (hJ : ∀ m ∈ s.net, J m) (he : Exec s e t) : ∀ m ∈ t.net, J m := by
  have herase : ∀ k, ∀ m ∈ s.net.eraseIdx k, J m :=
    fun k m hm => hJ m ((List.eraseIdx_sublist _ _).subset hm)
  cases he with
  | electionTimeout me =>
    intro m hm
    rcases List.mem_append.mp hm with hm | hm
    · obtain ⟨peer, -, rfl⟩ := List.mem_map.mp hm
      exact (hk.electionTimeout me).2 peer
    · exact hJ m hm
  | sendAppend me peer args hne hsend =>
    exact List.forall_mem_cons.mpr ⟨hk.sendAppend me peer args rfl hne hsend, hJ⟩
  | sendSnapshot me peer args hne hsend =>
    exact List.forall_mem_cons.mpr ⟨hk.sendSnapshot me peer args rfl hne hsend, hJ⟩
  | request k m rf reply hm hanswer =>
    exact List.forall_mem_cons.mpr
      ⟨(hk.request m (List.mem_of_getElem? hm) rf reply hanswer).2, herase k⟩
  | reply k m p hm hlife hreceive => exact herase k
  | stale k m hm hlife => exact herase k
  | lose k => exact herase k
  | _ => exact hJ

theorem Keeps.step {a : Action n C D} {I : Fin n → Process n C D → Prop} {J : Rpc n C D → Prop}
    (hk : Keeps s a I J) (hI : ∀ q, I q (s.proc q)) (hJ : ∀ m ∈ s.net, J m)
    (ht : s.step a = some t) : (∀ q, I q (t.proc q)) ∧ ∀ m ∈ t.net, J m := by
  rcases step_cases ht with ⟨e, rfl, he⟩ | ⟨me, persister, net, hsub, hleft, rfl⟩
  · exact ⟨hk.proc hI he, hk.net hJ he⟩
  · refine ⟨forall_proc_set hI ?_, fun m hm => hJ m (hsub.subset hm)⟩
    rcases hleft with rfl | ⟨e, u, he, hsuffix⟩
    · exact hk.boot me _ (hI me) _ List.suffix_rfl
    · exact hk.boot me _ (hk.proc hI he me) _ hsuffix

/-! ## Where requests come from -/

/-- What `doSendAppendEntry` sent, for the RPCs that it sends. -/
def Rpc.outgoing (m : Rpc n C D) : Option (Raft.Outgoing n C D) :=
  match m.payload with
  | .appendReq args => some (.append args)
  | .appendRep args _ => some (.append args)
  | .snapReq args => some (.snapshot args)
  | .snapRep args _ => some (.snapshot args)
  | _ => none

/-- In `u` the caller of `m` builds what `m` carries. -/
def Rpc.BuiltIn (m : Rpc n C D) (u : Cluster n C D) : Prop :=
  (u.proc m.caller).incarnation = m.incarnation ∧
    (u.proc m.caller).rf.doSendAppendEntry m.server = m.outgoing

/-- The RPC is one of an election, or a step of the trace built and sent it. -/
def Rpc.SentIn (tr : List (Cluster n C D × Action n C D)) (m : Rpc n C D) : Prop :=
  m.outgoing = none ∨ ∃ u, (u, .event (.send m.caller m.server)) ∈ tr ∧ m.BuiltIn u

theorem Rpc.SentIn.snoc {tr : List (Cluster n C D × Action n C D)} {m : Rpc n C D} (h : m.SentIn tr)
    (x : Cluster n C D × Action n C D) : m.SentIn (tr ++ [x]) := by
  rcases h with hnone | ⟨u, hu, hbuilt⟩
  · exact Or.inl hnone
  · exact Or.inr ⟨u, List.mem_append_left _ hu, hbuilt⟩

/-- A reply carries what its request carried. -/
theorem Answers.outgoing {m : Rpc n C D} {rf rf' : Raft n C D} {reply : Payload n C D}
    (h : Answers rf m.payload rf' reply) : ({ m with payload := reply } : Rpc n C D).outgoing = m.outgoing := by
  unfold Rpc.outgoing
  generalize m.payload = payload at h
  cases h <;> rfl

theorem keeps_sentIn {tr : List (Cluster n C D × Action n C D)} (h : ∀ m ∈ s.net, m.SentIn tr)
    (a : Action n C D) : Keeps s a (fun _ _ => True) (Rpc.SentIn (tr ++ [(s, a)])) where
  electionTimeout := fun _ => ⟨trivial, fun _ => Or.inl rfl⟩
  start := fun _ _ => trivial
  sendAppend := fun me peer args ha _ hsend => by
    subst ha
    exact Or.inr ⟨s, List.mem_append_right _ (List.mem_singleton_self _), rfl, hsend⟩
  sendSnapshot := fun me peer args ha _ hsend => by
    subst ha
    exact Or.inr ⟨s, List.mem_append_right _ (List.mem_singleton_self _), rfl, hsend⟩
  request := fun m hm rf reply hanswer => by
    refine ⟨trivial, ?_⟩
    have hsent := (h m hm).snoc (s, a)
    unfold Rpc.SentIn Rpc.BuiltIn at hsent ⊢
    rw [hanswer.outgoing]
    exact hsent
  reply := fun _ _ _ _ _ => trivial
  snapshot := fun _ _ _ => trivial
  applier := fun _ => trivial
  deliver := fun _ _ _ => trivial
  boot := fun _ _ _ _ _ => trivial

/-- Every append and snapshot under way was built and sent in the run. -/
theorem Run.sentIn {svc : Service C D} {tr : List (Cluster n C D × Action n C D)} (h : Run svc tr s) :
    ∀ m ∈ s.net, m.SentIn tr := by
  induction h with
  | nil => exact fun m hm => by simp [Cluster.initial] at hm
  | @snoc tr u w a _ hstep ih =>
    exact ((keeps_sentIn ih a).step (fun _ => trivial) (fun m hm => (ih m hm).snoc (u, a)) hstep.2).2

end DistSys.Raft1
