import DistSys.Tester1.UnderWay

/- The tester and labrpc give Raft the network and the crashes that the cluster assumes.

   Every step of the testbed is followed by the cluster (`Sim.step`): the code of a peer that runs for
   a server is an event, taking the copy of the persister is the crash, and all that the network does
   between is nothing, or the loss of a message. A peer that was shut down is no longer seen: the
   network finds it under no name when it looks for the second time, so no reply of it is returned,
   and what it saves is not in the copy. Only calls of its own would still be seen, as the tests may
   enable its ends again; `quiet` says that there are none.

   So every run of the testbed is a run of the cluster with the same processes
   (`testbed_refines`). -/
namespace DistSys.Tester1

open Lib
open Raft1 (Raft Process Payload Rpc Event Cluster Persister Produced makePersister)
open Labrpc (Network Admin Rpcs Call Op Stage Handler Route)

variable {n : Nat} {C D : Type} {svc : Raft1.Service C D} {t t' : Testbed n C D}
  {s : Cluster n C D}

/-! ## Simulation -/

/-- A state of the cluster for a state of the testbed: the same processes, and every message that is
under way. What was lost in the testbed may still be in the network of the cluster. -/
structure Sim (t : Testbed n C D) (s : Cluster n C D) : Prop where
  ok : Ok t
  proc : ∀ i, s.proc i = t.process i
  net : (pending t).Subperm s.net

/-- A call moves on, and its message stays what it is or is lost. -/
theorem Sim.setCall (h : Sim t s) {c : Nat} {call call' : TestCall n C D} {o : Op (Payload n C D)}
    (hcall : t.rpcs.calls[c]? = some call) (hmoves : call.Moves t.rpcs.net o call')
    (hreply : ∀ reply, o = .handle reply → isReply reply = true)
    (hmessage : message t.srvs call' = none ∨ message t.srvs call' = message t.srvs call) :
    Sim (t.setCall c call') s := by
  refine ⟨h.ok.setCall hcall hmoves hreply, h.proc, ?_⟩
  have hlt := (List.getElem?_eq_some_iff.mp hcall).1
  have hbefore := filterMap_perm (message t.srvs) hcall
  have hafter := filterMap_set_perm (x := call') (message t.srvs) hlt
  refine ((hafter.subperm.trans ?_).trans hbefore.symm.subperm).trans h.net
  rcases hmessage with hm | hm
  · rw [hm]
    exact (List.sublist_append_right _ _).subperm
  · rw [hm]

/-- A peer that was shut down does what nobody sees. -/
theorem Sim.dead (h : Sim t s) {p : Nat} {peer : Peer n C D} {proc : Process n C D}
    (hpeer : t.peers[p]? = some peer) (hinc : proc.incarnation = peer.proc.incarnation)
    (hdead : ∀ i, (t.srvs i).status.svcs ≠ some p) : Sim (t.setPeer p proc) s := by
  refine ⟨h.ok.setPeer hpeer hinc, fun i => ?_, h.net⟩
  rw [process_setPeer hpeer, if_neg (hdead i)]
  exact h.proc i

/-- A peer runs for one server. -/
theorem Ok.svcs_unique (hok : Ok t) {i j : Fin n} {p : Nat} (hi : (t.srvs i).status.svcs = some p)
    (hj : (t.srvs j).status.svcs = some p) : i = j := by
  obtain ⟨peer, hpeer, rfl, -⟩ := hok.svcs i p hi
  obtain ⟨peer', hpeer', rfl, -⟩ := hok.svcs j p hj
  rw [Option.some.inj (hpeer.symm.trans hpeer')]

/-- The processes after the peer of a server has taken a step. -/
theorem Sim.proc_set (h : Sim t s) {i : Fin n} {p : Nat} {peer : Peer n C D} {proc : Process n C D}
    {net : List (Rpc n C D)} (hpeer : t.peers[p]? = some peer)
    (hlive : (t.srvs i).status.svcs = some p) (j : Fin n) :
    (s.set i proc net).proc j = (t.setPeer p proc).process j := by
  rw [process_setPeer hpeer]
  by_cases hij : j = i
  · subst hij
    simp [Cluster.set, hlive]
  · have hne : (t.srvs j).status.svcs ≠ some p := fun hj => hij (h.ok.svcs_unique hj hlive)
    simp [Cluster.set, Function.update_of_ne hij, hne, h.proc j]

/-- The peer of a server takes a step of its own. -/
theorem Sim.run (h : Sim t s) {p : Nat} {peer : Peer n C D} {e : Event n C D} {proc : Process n C D}
    {msgs : List (Rpc n C D)} (hpeer : t.peers[p]? = some peer)
    (hlive : (t.srvs peer.me).status.svcs = some p)
    (hturn : turn peer.me peer.proc e = some (proc, msgs)) :
    ∃ s', s.exec e = some s' ∧ s.taken e = s.net ∧
      Sim ((t.setPeer p proc).send (msgs.map (Request.mk p))) s' := by
  have hproc : s.proc peer.me = peer.proc := (h.proc _).trans (process_live hlive hpeer)
  rw [← hproc] at hturn
  obtain ⟨hexec, htaken, hinc, hmsgs⟩ := exec_turn hturn
  rw [hproc] at hinc hmsgs
  refine ⟨_, hexec, htaken, ?_, fun j => h.proc_set hpeer hlive j, ?_⟩
  · have hpeer' : (t.setPeer p proc).peers[p]? = some { peer with proc := proc } := by
      simp [getElem?_setPeer, hpeer]
    exact (h.ok.setPeer hpeer hinc).send hpeer' fun m hm => ⟨(hmsgs m hm).1, (hmsgs m hm).2.trans hinc.symm⟩
  · rw [pending_send]
    exact List.perm_append_comm.subperm.trans ((List.subperm_append_left msgs).mpr h.net)

/-- The calls other than the one whose message is taken from the network. -/
theorem Sim.take (h : Sim t s) {c : Nat} {call : TestCall n C D} {m : Rpc n C D}
    (hcall : t.rpcs.calls[c]? = some call) (hm : message t.srvs call = some m) :
    ∃ k, s.net[k]? = some m ∧
      ((t.rpcs.calls.eraseIdx c).filterMap (message t.srvs)).Subperm (s.net.eraseIdx k) := by
  apply take_message
  have hperm := filterMap_perm (message t.srvs) hcall
  rw [hm] at hperm
  exact hperm.symm.subperm.trans h.net

/-- The peer of a server handles a request. -/
theorem Sim.handle (h : Sim t s) {c q : Nat} {call : TestCall n C D} {peer : Peer n C D}
    {rf : Raft n C D} {reply : Payload n C D} (hcall : t.rpcs.calls[c]? = some call)
    (hrunning : call.handler = .running q) (hpeer : t.peers[q]? = some peer)
    (hlive : (t.srvs call.args.rpc.server).status.svcs = some q)
    (hserve : serve peer.proc.rf call.args.rpc.payload = some (rf, reply)) :
    ∃ k s', s.exec (.handle k) = some s' ∧
      ((t.rpcs.calls.eraseIdx c).filterMap (message t.srvs)).Subperm (s.net.eraseIdx k) ∧
      Sim ((t.setCall c { call with handler := .finished q reply }).setPeer q
        { peer.proc with rf := rf }) s' := by
  have hlt := (List.getElem?_eq_some_iff.mp hcall).1
  have hmoves : call.Moves t.rpcs.net (.handle reply) { call with handler := .finished q reply } :=
    .handle q reply hrunning
  have hok := h.ok.setCall hcall hmoves fun reply' heq => by
    obtain rfl := Op.handle.inj heq
    exact serve_isReply hserve
  have hm : message t.srvs call = some call.args.rpc := by
    simp [message, underWay, hrunning, runs, hlive]
  have hproc : s.proc call.args.rpc.server = peer.proc :=
    (h.proc _).trans (process_live hlive hpeer)
  obtain ⟨k, hk, hrest⟩ := h.take hcall hm
  rw [← hproc] at hserve
  refine ⟨k, s.handle call.args.rpc (s.net.eraseIdx k), by simp [Cluster.exec, hk], hrest, ?_⟩
  rw [handle_serve hserve, hproc]
  refine ⟨hok.setPeer hpeer rfl, fun j => h.proc_set hpeer hlive j, ?_⟩
  -- the request is replaced by the reply, or by nothing when the network has given up
  have hafter := filterMap_set_perm (x := { call with handler := .finished q reply })
    (message t.srvs) hlt
  refine hafter.subperm.trans ?_
  have hcases : message t.srvs { call with handler := .finished q reply } = none ∨
      message t.srvs { call with handler := .finished q reply } =
        some { call.args.rpc with payload := reply } := by
    cases call.stage <;> simp [message, underWay, runs, hlive]
  rcases hcases with hnone | hsome
  · rw [hnone]
    exact hrest.trans (List.sublist_cons_self _ _).subperm
  · rw [hsome]
    exact (List.subperm_cons _).mpr hrest

/-- The peer of a server handles a reply. -/
theorem Sim.receive (h : Sim t s) {c : Nat} {call : TestCall n C D} {peer : Peer n C D}
    {reply : Payload n C D} (hcall : t.rpcs.calls[c]? = some call)
    (hstage : call.stage = .replying (some reply)) (hpeer : t.peers[call.args.sender]? = some peer)
    (hlive : (t.srvs peer.me).status.svcs = some call.args.sender) :
    ∃ k s', s.exec (.handle k) = some s' ∧
      ((t.rpcs.calls.eraseIdx c).filterMap (message t.srvs)).Subperm (s.net.eraseIdx k) ∧
      Sim ((t.setCall c { call with stage := .returned (some reply) }).setPeer call.args.sender
        (Tester1.receive peer.proc call.args.rpc.server reply)) s' := by
  have hlt := (List.getElem?_eq_some_iff.mp hcall).1
  have hcallOk := h.ok.calls call (List.mem_of_getElem? hcall)
  have hgone : call.handler = .gone := by simpa [hstage, Call.Fits] using hcallOk.fits
  have hreply := hcallOk.reply reply (Or.inr (Or.inr hstage))
  have hok := h.ok.setCall hcall (.return (some reply) hstage) (by simp)
  have hm : message t.srvs call = some { call.args.rpc with payload := reply } := by
    simp [message, underWay, hgone, hstage]
  obtain ⟨peer', hpeer', hcaller, hinc⟩ := hcallOk.sender
  obtain rfl := Option.some.inj (hpeer.symm.trans hpeer')
  have hproc : s.proc call.args.rpc.caller = peer.proc := by
    rw [hcaller]
    exact (h.proc _).trans (process_live hlive hpeer)
  obtain ⟨k, hk, hrest⟩ := h.take hcall hm
  refine ⟨k, s.handle { call.args.rpc with payload := reply } (s.net.eraseIdx k),
    by simp [Cluster.exec, hk], hrest, ?_⟩
  rw [handle_receive hreply (by rw [hproc]; exact hinc), hproc, hcaller]
  have hsame : (Tester1.receive peer.proc call.args.rpc.server reply).incarnation =
      peer.proc.incarnation := by
    cases reply <;> rfl
  refine ⟨hok.setPeer hpeer hsame, fun j => h.proc_set hpeer hlive j, ?_⟩
  have hafter := filterMap_set_perm (x := { call with stage := .returned (some reply) })
    (message t.srvs) hlt
  refine hafter.subperm.trans ?_
  have hnone : message t.srvs { call with stage := .returned (some reply) } = none := by
    simp [message, underWay, hgone]
  rw [hnone]
  exact hrest

/-! ## A server is shut down -/

theorem svcs_stop {i j : Fin n} {ps : Persister n C D} {q : Nat}
    (h : ((t.stop i ps).srvs j).status.svcs = some q) : j ≠ i ∧ (t.srvs j).status.svcs = some q := by
  simp only [Testbed.stop, Testbed.setServer, Function.update_apply] at h
  split at h
  · simp [Status.svcs] at h
  · exact ⟨‹_›, h⟩

/-- When a server is shut down, messages may be lost with it. -/
theorem message_stop {i : Fin n} {ps : Persister n C D} (call : TestCall n C D) :
    message (t.stop i ps).srvs call = none ∨ message (t.stop i ps).srvs call = message t.srvs call := by
  unfold message
  split
  · exact Or.inl rfl
  · exact Or.inr rfl
  · rename_i m q hunder
    by_cases hruns : runs (t.stop i ps).srvs m.server q = true
    · have hbefore : runs t.srvs m.server q = true := by
        simp only [runs, beq_iff_eq] at hruns ⊢
        exact (svcs_stop hruns).2
      exact Or.inr (by rw [if_pos hruns, if_pos hbefore])
    · exact Or.inl (if_neg hruns)

theorem Ok.stop (hok : Ok t) {i : Fin n} {p : Nat} (hstatus : (t.srvs i).status = .deleted p)
    (ps : Persister n C D) : Ok (t.stop i ps) where
  svcs := by
    intro j q hq
    obtain ⟨hji, hq⟩ := svcs_stop hq
    obtain ⟨peer, hpeer, hme, hinc⟩ := hok.svcs j q hq
    exact ⟨peer, hpeer, hme, by simpa [Testbed.stop, Testbed.setServer, hji] using hinc⟩
  registered := by
    intro j q hq
    have hrunning := hok.registered j q hq
    have hji : j ≠ i := by
      rintro rfl
      simp [hstatus] at hrunning
    simpa [Testbed.stop, Testbed.setServer, hji] using hrunning
  ends := hok.ends
  calls := fun call hcall => (hok.calls call hcall).mono (.of_peers rfl)

/-- The next incarnation starts from the copy of the persister. -/
theorem Sim.stopped {i : Fin n} {p : Nat} {ps : Persister n C D} {net : List (Rpc n C D)}
    (hok : Ok t) (hstatus : (t.srvs i).status = .deleted p)
    (hproc : ∀ j, j ≠ i → s.proc j = t.process j)
    (hinc : (s.proc i).incarnation = (t.srvs i).incarnation)
    (hnet : (pending (t.stop i ps)).Subperm net) : Sim (t.stop i ps) (s.restart i ps net) := by
  refine ⟨hok.stop hstatus ps, fun j => ?_, hnet⟩
  by_cases hji : j = i
  · subst hji
    simp [Cluster.restart, Cluster.set, Testbed.process, Testbed.stop, Testbed.setServer, Status.svcs,
      Server.boot, hinc]
  · rw [Cluster.restart, Cluster.set]
    simp [hproc j hji, Testbed.process, Testbed.stop, Testbed.setServer, hji]

/-! ## Steps of the testbed -/

/-- What running the code of a peer can be. -/
inductive Works (t : Testbed n C D) :
    Work n C D → Testbed n C D → List (Request n C D) → Prop where
  | run {p : Nat} {e : Event n C D} {peer : Peer n C D} {proc : Process n C D}
      {msgs : List (Rpc n C D)} (hpeer : t.peers[p]? = some peer)
      (hturn : turn peer.me peer.proc e = some (proc, msgs)) :
      Works t (.run p e) (t.setPeer p proc) (msgs.map (Request.mk p))
  | handle {c q : Nat} {call : TestCall n C D} {peer : Peer n C D} {rf : Raft n C D}
      {reply : Payload n C D} (hcall : t.rpcs.calls[c]? = some call)
      (hrunning : call.handler = .running q) (hpeer : t.peers[q]? = some peer)
      (hserve : serve peer.proc.rf call.args.rpc.payload = some (rf, reply)) :
      Works t (.handle c) ((t.setCall c { call with handler := .finished q reply }).setPeer q
        { peer.proc with rf := rf }) []
  | fail {c : Nat} {call : TestCall n C D} (hcall : t.rpcs.calls[c]? = some call)
      (hstage : call.stage = .replying none) :
      Works t (.ret c) (t.setCall c { call with stage := .returned none }) []
  | receive {c : Nat} {call : TestCall n C D} {peer : Peer n C D} {reply : Payload n C D}
      (hcall : t.rpcs.calls[c]? = some call) (hstage : call.stage = .replying (some reply))
      (hpeer : t.peers[call.args.sender]? = some peer) :
      Works t (.ret c) ((t.setCall c { call with stage := .returned (some reply) }).setPeer
        call.args.sender (receive peer.proc call.args.rpc.server reply)) []

theorem works {w : Work n C D} {reqs : List (Request n C D)} (h : t.work w = some (t', reqs)) :
    Works t w t' reqs := by
  cases w with
  | run p e =>
    simp only [Testbed.work] at h
    split at h
    · contradiction
    · rename_i peer hpeer
      obtain ⟨⟨proc, msgs⟩, hturn, heq⟩ := Option.map_eq_some_iff.mp h
      obtain ⟨rfl, rfl⟩ := Prod.mk.inj heq
      exact .run hpeer hturn
  | handle c =>
    simp only [Testbed.work] at h
    split at h
    · contradiction
    · rename_i call hcall
      split at h
      · rename_i q hrunning
        split at h
        · contradiction
        · rename_i peer hpeer
          split at h
          · contradiction
          · rename_i rf reply hserve
            obtain ⟨rpcs, hstep, heq⟩ := Option.map_eq_some_iff.mp h
            obtain ⟨rfl, rfl⟩ := Prod.mk.inj heq
            obtain ⟨call₁, call', hcall₁, hmoves, rfl⟩ := Rpcs.stepCall_cases hstep
            obtain rfl := Option.some.inj (hcall.symm.trans hcall₁)
            cases hmoves with
            | handle server _ hrunning' =>
              obtain rfl := Handler.running.inj (hrunning.symm.trans hrunning')
              exact .handle hcall hrunning hpeer hserve
      · contradiction
  | ret c =>
    simp only [Testbed.work] at h
    split at h
    · contradiction
    · rename_i call hcall
      split at h
      · rename_i hstage _
        obtain ⟨rpcs, hstep, heq⟩ := Option.map_eq_some_iff.mp h
        obtain ⟨rfl, rfl⟩ := Prod.mk.inj heq
        obtain ⟨call₁, call', hcall₁, hmoves, rfl⟩ := Rpcs.stepCall_cases hstep
        obtain rfl := Option.some.inj (hcall.symm.trans hcall₁)
        cases hmoves with
        | «return» reply hstage' =>
          obtain rfl := Stage.replying.inj (hstage.symm.trans hstage')
          exact .fail hcall hstage
      · rename_i reply peer hstage hpeer
        obtain ⟨rpcs, hstep, heq⟩ := Option.map_eq_some_iff.mp h
        obtain ⟨rfl, rfl⟩ := Prod.mk.inj heq
        obtain ⟨call₁, call', hcall₁, hmoves, rfl⟩ := Rpcs.stepCall_cases hstep
        obtain rfl := Option.some.inj (hcall.symm.trans hcall₁)
        cases hmoves with
        | «return» reply' hstage' =>
          obtain rfl := Stage.replying.inj (hstage.symm.trans hstage')
          exact .receive hcall hstage hpeer
      · contradiction

/-- Only the peer that works changes. -/
theorem Works.frame {w : Work n C D} {reqs : List (Request n C D)} (h : Works t w t' reqs) :
    t'.srvs = t.srvs ∧ ∀ q, t.worker w ≠ some q → t'.peers[q]? = t.peers[q]? := by
  have hset : ∀ {u : Testbed n C D} {p q : Nat} {proc : Process n C D}, u.peers = t.peers → p ≠ q →
      (u.setPeer p proc).peers[q]? = t.peers[q]? := by
    intro u p q proc hu hpq
    rw [getElem?_setPeer, hu]
    cases t.peers[q]? <;> simp [hpq]
  cases h with
  | run hpeer hturn =>
    refine ⟨rfl, fun q hq => hset rfl ?_⟩
    rintro rfl
    exact hq rfl
  | handle hcall hrunning hpeer hserve =>
    refine ⟨rfl, fun q hq => hset rfl ?_⟩
    rintro rfl
    simp [Testbed.worker, hcall, hrunning] at hq
  | fail hcall hstage => exact ⟨rfl, fun q _ => rfl⟩
  | receive hcall hstage hpeer =>
    refine ⟨rfl, fun q hq => hset rfl ?_⟩
    rintro rfl
    simp [Testbed.worker, hcall] at hq

/-- The processes of the other servers stay. -/
theorem Works.process {w : Work n C D} {reqs : List (Request n C D)} (h : Works t w t' reqs) {j : Fin n}
    (hj : (t.srvs j).status.svcs ≠ t.worker w) : t'.process j = t.process j := by
  obtain ⟨hsrvs, hothers⟩ := h.frame
  unfold Testbed.process
  rw [hsrvs]
  cases hsvcs : (t.srvs j).status.svcs with
  | none => rfl
  | some q =>
    have hq := hothers q fun hw => hj (hsvcs.trans hw.symm)
    simp only [hq]

/-- A call has failed. -/
theorem Sim.fail (h : Sim t s) {c : Nat} {call : TestCall n C D}
    (hcall : t.rpcs.calls[c]? = some call) (hstage : call.stage = .replying none) :
    Sim (t.setCall c { call with stage := .returned none }) s := by
  refine h.setCall hcall (.return none hstage) (by simp) ?_
  cases hh : call.handler <;> simp [message, underWay, hh, hstage]

/-- A peer that was shut down sends nothing. -/
theorem Works.silent {w : Work n C D} {reqs : List (Request n C D)} (h : Works t w t' reqs)
    (hquiet : t.quiet (.work w) = true) (hwork : t.work w = some (t', reqs))
    (hdead : ∀ i p, (t.srvs i).status.svcs = some p → t.worker w ≠ some p) : reqs = [] := by
  cases h with
  | run hpeer hturn =>
    rename_i p e peer proc msgs
    have hnot : t.isLive p = false := by
      by_contra hlive
      simp only [Testbed.isLive, hpeer, Bool.not_eq_false, beq_iff_eq] at hlive
      exact hdead _ p hlive rfl
    simp only [Testbed.quiet, hnot, hwork, Bool.false_or, List.isEmpty_iff] at hquiet
    exact hquiet
  | _ => rfl

/-- The code of a peer that was shut down runs. -/
theorem Sim.worksDead {w : Work n C D} {reqs : List (Request n C D)} (h : Sim t s)
    (hworks : Works t w t' reqs)
    (hdead : ∀ i p, (t.srvs i).status.svcs = some p → t.worker w ≠ some p) : Sim t' s := by
  cases hworks with
  | run hpeer hturn =>
    rename_i p e peer proc msgs
    -- where every process is this peer, the event is one of the cluster
    obtain ⟨-, -, hinc, -⟩ := exec_turn (s := ⟨fun _ => peer.proc, []⟩) hturn
    exact h.dead hpeer hinc fun i hi => hdead i p hi rfl
  | handle hcall hrunning hpeer hserve =>
    rename_i c q call peer rf reply
    have hq : ∀ i, (t.srvs i).status.svcs ≠ some q :=
      fun i hi => hdead i q hi (by simp [Testbed.worker, hcall, hrunning])
    refine Sim.dead (h.setCall hcall (.handle q reply hrunning) ?_ (Or.inl ?_)) hpeer rfl hq
    · intro reply' heq
      obtain rfl := Op.handle.inj heq
      exact serve_isReply hserve
    · cases hs : call.stage <;> simp [message, underWay, runs, hq]
  | fail hcall hstage => exact h.fail hcall hstage
  | receive hcall hstage hpeer =>
    rename_i c call peer reply
    have hp : ∀ i, (t.srvs i).status.svcs ≠ some call.args.sender :=
      fun i hi => hdead i _ hi (by simp [Testbed.worker, hcall])
    refine Sim.dead (h.setCall hcall (.return (some reply) hstage) (by simp) (Or.inl ?_)) hpeer ?_ hp
    · have hgone : call.handler = .gone := by
        simpa [hstage, Call.Fits] using (h.ok.calls call (List.mem_of_getElem? hcall)).fits
      simp [message, underWay, hgone]
    · cases reply <;> rfl

theorem send_nil (t : Testbed n C D) : t.send [] = t := by
  simp [Testbed.send]

/-- What is under way without the call with number `c` and the server `i`. -/
theorem pending_stop {c : Nat} {call' : TestCall n C D} {i : Fin n} {ps : Persister n C D}
    {net : List (Rpc n C D)} {u : Testbed n C D} (hc : c < t.rpcs.calls.length)
    (hcalls : u.rpcs.calls = t.rpcs.calls.set c call') (hsrvs : u.srvs = t.srvs)
    (hnone : message (t.stop i ps).srvs call' = none)
    (hrest : ((t.rpcs.calls.eraseIdx c).filterMap (message t.srvs)).Subperm net) :
    (pending (u.stop i ps)).Subperm net := by
  have hstop : (u.stop i ps).srvs = (t.stop i ps).srvs := by
    simp [Testbed.stop, Testbed.setServer, hsrvs]
  have hpending : pending (u.stop i ps) =
      (t.rpcs.calls.set c call').filterMap (message (t.stop i ps).srvs) := by
    rw [← hcalls, ← hstop]
    rfl
  rw [hpending]
  have hafter := filterMap_set_perm (x := call') (message (t.stop i ps).srvs) hc
  rw [hnone] at hafter
  exact (hafter.subperm.trans (filterMap_sublist fun x _ => message_stop x).subperm).trans hrest

/-- The code of the peer of a server runs: an event of the cluster, unless a call has only failed. -/
theorem Sim.worksLive {w : Work n C D} {reqs : List (Request n C D)} {i : Fin n} {p : Nat}
    (h : Sim t s) (hworks : Works t w t' reqs) (hallowed : w.Allowed svc t)
    (hworker : t.worker w = some p) (hsvcs : (t.srvs i).status.svcs = some p) :
    (∃ e s', e.Allowed svc s ∧ s.exec e = some s' ∧ Sim (t'.send reqs) s' ∧
      ∀ ps, (pending (t'.stop i ps)).Subperm (s.taken e)) ∨
    (t'.peers = t.peers ∧ reqs = [] ∧ Sim t' s) := by
  obtain ⟨peer₀, hpeer₀, hme, -⟩ := h.ok.svcs i p hsvcs
  cases hworks with
  | run hpeer hturn =>
    rename_i p' e peer proc msgs
    obtain rfl : p' = p := by simpa [Testbed.worker] using hworker
    obtain rfl := Option.some.inj (hpeer₀.symm.trans hpeer)
    subst hme
    obtain ⟨s', hexec, htaken, hsim⟩ := h.run hpeer hsvcs hturn
    have hproc : s.proc peer₀.me = peer₀.proc := (h.proc _).trans (process_live hsvcs hpeer)
    refine Or.inl ⟨e, s', ?_, hexec, hsim, fun ps => ?_⟩
    · cases e with
      | snapshot me index data =>
        obtain rfl : me = peer₀.me := by
          by_contra hne
          simp [turn, isOf, hne] at hturn
        show Produced svc (s.proc peer₀.me) index data
        rw [hproc]
        exact hallowed peer₀ hpeer
      | _ => trivial
    · rw [htaken]
      exact (filterMap_sublist fun x _ => message_stop x).subperm.trans h.net
  | handle hcall hrunning hpeer hserve =>
    rename_i c q call peer rf reply
    obtain rfl : q = p := by simpa [Testbed.worker, hcall, hrunning] using hworker
    have hlt := (List.getElem?_eq_some_iff.mp hcall).1
    obtain ⟨peer₁, hpeer₁, hme₁⟩ :=
      (h.ok.calls call (List.mem_of_getElem? hcall)).handler q (by simp [hrunning, serverOf])
    obtain rfl := Option.some.inj (hpeer₀.symm.trans hpeer₁)
    have hserver : call.args.rpc.server = i := hme₁.symm.trans hme
    subst hserver
    obtain ⟨k, s', hexec, hrest, hsim⟩ := h.handle hcall hrunning hpeer hsvcs hserve
    refine Or.inl ⟨.handle k, s', trivial, hexec, by rwa [send_nil], fun ps => ?_⟩
    refine pending_stop hlt rfl rfl ?_ hrest
    cases call.stage <;>
      simp [message, underWay, runs, Testbed.stop, Testbed.setServer, Status.svcs]
  | fail hcall hstage => exact Or.inr ⟨rfl, rfl, h.fail hcall hstage⟩
  | receive hcall hstage hpeer =>
    rename_i c call peer reply
    obtain rfl : call.args.sender = p := by simpa [Testbed.worker, hcall] using hworker
    have hlt := (List.getElem?_eq_some_iff.mp hcall).1
    obtain rfl := Option.some.inj (hpeer₀.symm.trans hpeer)
    subst hme
    obtain ⟨k, s', hexec, hrest, hsim⟩ := h.receive hcall hstage hpeer hsvcs
    refine Or.inl ⟨.handle k, s', trivial, hexec, by rwa [send_nil], fun ps => ?_⟩
    refine pending_stop hlt rfl rfl ?_ hrest
    have hgone : call.handler = .gone := by
      simpa [hstage, Call.Fits] using (h.ok.calls call (List.mem_of_getElem? hcall)).fits
    simp [message, underWay, hgone]

/-- The new ends are connected to the servers of their names. -/
theorem makeServer_ends {net net' : Network (Nat × Fin n) (Fin n) Nat} {p : Nat}
    (h : Testbed.makeServer net p = some net') :
    net'.servers = net.servers ∧
      ∀ q j, net'.connections (q, j) = if q = p then some j else net.connections (q, j) := by
  have hloop : ∀ (l : List (Fin n)) {net : Network (Nat × Fin n) (Fin n) Nat},
      l.foldlM (fun rn j => (rn.makeEnd (p, j)).map (·.connect (p, j) j)) net = some net' →
      net'.servers = net.servers ∧ ∀ q j, net'.connections (q, j) =
        if q = p ∧ j ∈ l then some j else net.connections (q, j) := by
    intro l
    induction l with
    | nil =>
      intro net h
      obtain rfl := Option.some.inj h
      simp
    | cons x l ih =>
      intro net h
      rw [List.foldlM_cons] at h
      obtain ⟨rn, hrn, hrest⟩ := Option.bind_eq_some_iff.mp h
      obtain ⟨rn', hmade, rfl⟩ := Option.map_eq_some_iff.mp hrn
      obtain ⟨-, heq⟩ := Option.ite_none_left_eq_some.mp hmade
      obtain rfl := Option.some.inj heq
      obtain ⟨hservers, hends⟩ := ih hrest
      refine ⟨hservers, fun q j => ?_⟩
      rw [hends q j]
      simp only [Network.connect, Function.update_apply, Prod.mk.injEq, List.mem_cons]
      by_cases hq : q = p <;> by_cases hj : j = x <;> simp [hq, hj]
  obtain ⟨hservers, hends⟩ := hloop (List.finRange n) h
  exact ⟨hservers, by simpa using hends⟩

theorem message_congr {srvs srvs' : Fin n → Server n C D}
    (h : ∀ j, (srvs' j).status.svcs = (srvs j).status.svcs) : message srvs' = message srvs := by
  have hruns : runs srvs' = runs srvs := by
    funext j q
    simp only [runs, h]
  funext call
  unfold message
  rw [hruns]

/-- A message depends on a peer that was made. -/
theorem CallOk.underWay {call : TestCall n C D} {m : Rpc n C D} {q : Nat} (h : CallOk t call)
    (hunder : underWay call = some (m, some q)) : q < t.peers.length := by
  have hroute := h.route
  have hhandler := h.handler
  have hlt : ∀ {j : Fin n}, Serves t q j → q < t.peers.length := by
    rintro j ⟨peer, hpeer, -⟩
    exact (List.getElem?_eq_some_iff.mp hpeer).1
  unfold Tester1.underWay at hunder
  split at hunder <;> simp only [Option.some.injEq, Prod.mk.injEq, reduceCtorEq, and_false] at hunder
  · rename_i route hh hs
    obtain ⟨-, rfl⟩ := hunder
    exact hlt (hroute route (by simp [hs, routeOf])).2
  · rename_i q' hh
    obtain ⟨-, rfl⟩ := hunder
    exact hlt (hhandler q' (by simp [hh, serverOf]))
  · rename_i q' reply route hh hs
    obtain ⟨-, rfl⟩ := hunder
    exact hlt (hhandler q' (by simp [hh, serverOf]))
  · rename_i route reply hh hs
    obtain ⟨-, rfl⟩ := hunder
    exact hlt (hroute route (by simp [hs, routeOf])).2

/-- The state in which a peer was made for a server. -/
def started (t : Testbed n C D) (i : Fin n) (net : Network (Nat × Fin n) (Fin n) Nat) :
    Testbed n C D :=
  let peer : Peer n C D := ⟨i, (t.srvs i).boot i⟩
  { t with rpcs := { t.rpcs with net := net }, peers := t.peers ++ [peer] }.setServer i
    { t.srvs i with status := .starting t.peers.length }

theorem Ok.started (hok : Ok t) {i : Fin n} {net : Network (Nat × Fin n) (Fin n) Nat}
    (hstatus : (t.srvs i).status = .down)
    (hnet : Testbed.makeServer t.rpcs.net t.peers.length = some net) : Ok (started t i net) := by
  obtain ⟨hservers, hends⟩ := makeServer_ends hnet
  have hgrows : Grows t (Tester1.started t i net) := by
    intro q peer hq
    refine ⟨peer, ?_, rfl, rfl⟩
    show (t.peers ++ _)[q]? = some peer
    rw [List.getElem?_append_left (List.getElem?_eq_some_iff.mp hq).1]
    exact hq
  constructor
  · intro j q hq
    by_cases hji : j = i
    · subst hji
      obtain rfl : t.peers.length = q := by
        simpa [Tester1.started, Testbed.setServer, Status.svcs] using hq
      refine ⟨⟨j, (t.srvs j).boot j⟩, ?_, rfl, ?_⟩
      · show (t.peers ++ _)[t.peers.length]? = _
        simp
      · simp [Tester1.started, Testbed.setServer, Server.boot, Process.boot]
    · have hsvcs : (t.srvs j).status.svcs = some q := by
        simpa [Tester1.started, Testbed.setServer, hji] using hq
      obtain ⟨peer, hpeer, hme, hinc⟩ := hok.svcs j q hsvcs
      obtain ⟨peer', hpeer', hme', hinc'⟩ := hgrows q peer hpeer
      refine ⟨peer', hpeer', hme'.trans hme, ?_⟩
      simpa [Tester1.started, Testbed.setServer, hji] using hinc'.trans hinc
  · intro j q hq
    have hrunning := hok.registered j q (hservers ▸ hq)
    have hji : j ≠ i := by
      rintro rfl
      simp [hstatus] at hrunning
    simpa [Tester1.started, Testbed.setServer, hji] using hrunning
  · intro p hp j
    have hp' : p < t.peers.length + 1 := by simpa [Tester1.started, Testbed.setServer] using hp
    show net.connections (p, j) = some j
    rw [hends]
    split
    · rfl
    · exact hok.ends p (by omega) j
  · exact fun call hcall => (hok.calls call hcall).mono hgrows

/-- A server is started: its peer is the one the cluster has for it already. -/
theorem Sim.started (h : Sim t s) {i : Fin n} {net : Network (Nat × Fin n) (Fin n) Nat}
    (hstatus : (t.srvs i).status = .down)
    (hnet : Testbed.makeServer t.rpcs.net t.peers.length = some net) : Sim (started t i net) s := by
  refine ⟨h.ok.started hstatus hnet, fun j => ?_, ?_⟩
  · rw [h.proc j]
    by_cases hji : j = i
    · subst hji
      simp [Testbed.process, Tester1.started, Testbed.setServer, hstatus, Status.svcs]
    · simp only [Testbed.process, Tester1.started, Testbed.setServer, Function.update_of_ne hji]
      cases hsvcs : (t.srvs j).status.svcs with
      | none => rfl
      | some q =>
        obtain ⟨peer, hpeer, -⟩ := h.ok.svcs j q hsvcs
        simp [List.getElem?_append_left (List.getElem?_eq_some_iff.mp hpeer).1]
  · have hsame : pending (Tester1.started t i net) = pending t := by
      refine List.filterMap_congr fun call hcall => ?_
      unfold message
      split
      · rfl
      · rfl
      · rename_i m q hunder
        have hlt := (h.ok.calls call hcall).underWay hunder
        by_cases hmi : m.server = i
        · simp [runs, Tester1.started, Testbed.setServer, hmi, hstatus, Status.svcs, hlt.ne']
        · simp [runs, Tester1.started, Testbed.setServer, hmi]
    rw [hsame]
    exact h.net

/-- The tester is further with a server, whose peer stays. -/
theorem Sim.setServer (h : Sim t s) {i : Fin n} {status : Status}
    {net : Network (Nat × Fin n) (Fin n) Nat} (hsvcs : status.svcs = (t.srvs i).status.svcs)
    (hends : net.connections = t.rpcs.net.connections)
    (hservers : ∀ j q, net.servers j = some q →
      (if j = i then status else (t.srvs j).status) = .running q) :
    Sim (({ t with rpcs := { t.rpcs with net := net } } : Testbed n C D).setServer i
      { t.srvs i with status := status }) s := by
  have hsame : ∀ j, ((Function.update t.srvs i { t.srvs i with status := status }) j).status.svcs =
      (t.srvs j).status.svcs := by
    intro j
    by_cases hji : j = i
    · subst hji
      simp [hsvcs]
    · simp [hji]
  have hinc : ∀ j, ((Function.update t.srvs i { t.srvs i with status := status }) j).incarnation =
        (t.srvs j).incarnation ∧
      ((Function.update t.srvs i { t.srvs i with status := status }) j).boot j =
        (t.srvs j).boot j := by
    intro j
    by_cases hji : j = i
    · subst hji
      simp [Server.boot]
    · simp [hji]
  refine ⟨⟨?_, ?_, ?_, ?_⟩, ?_, ?_⟩
  · intro j q hq
    simp only [Testbed.setServer] at hq ⊢
    rw [hsame j] at hq
    rw [(hinc j).1]
    exact h.ok.svcs j q hq
  · intro j q hq
    have hrunning := hservers j q hq
    by_cases hji : j = i
    · subst hji
      simpa [Testbed.setServer] using hrunning
    · simpa [Testbed.setServer, hji] using hrunning
  · intro p hp j
    show net.connections (p, j) = some j
    rw [hends]
    exact h.ok.ends p hp j
  · exact fun call hcall => (h.ok.calls call hcall).mono (.of_peers rfl)
  · intro j
    rw [h.proc j]
    simp only [Testbed.process, Testbed.setServer, hsame j, (hinc j).2]
  · have hpending : pending (({ t with rpcs := { t.rpcs with net := net } } : Testbed n C D).setServer i
        { t.srvs i with status := status }) = pending t := by
      simp only [pending, Testbed.setServer, message_congr hsame]
    rw [hpending]
    exact h.net

theorem knob_keeps {net net' : Network (Nat × Fin n) (Fin n) Nat} {a : Admin (Nat × Fin n) (Fin n) Nat}
    (hknob : isKnob a = true) (h : net.admin a = some net') :
    net'.servers = net.servers ∧ net'.connections = net.connections := by
  cases a <;> simp only [isKnob, Bool.false_eq_true] at hknob <;>
    simp only [Network.admin, Option.ite_none_left_eq_some, Option.ite_none_right_eq_some,
      Option.some.injEq] at h
  · obtain ⟨-, rfl⟩ := h
    exact ⟨rfl, rfl⟩
  · obtain ⟨-, rfl⟩ := h
    exact ⟨rfl, rfl⟩
  all_goals
    subst h
    exact ⟨rfl, rfl⟩

/-- What the persister of a server's peer holds. -/
theorem Sim.persisted (h : Sim t s) {i : Fin n} {p : Nat} (hsvcs : (t.srvs i).status.svcs = some p) :
    t.persisted p = (s.proc i).rf.persister ∧ (s.proc i).incarnation = (t.srvs i).incarnation := by
  obtain ⟨peer, hpeer, -, hinc⟩ := h.ok.svcs i p hsvcs
  rw [h.proc i, process_live hsvcs hpeer]
  exact ⟨by simp [Testbed.persisted, hpeer], hinc⟩

/-- A server is shut down: a crash of the peer. -/
theorem Sim.shutdown (h : Sim t s) {i : Fin n} {p : Nat} (hstatus : (t.srvs i).status = .deleted p) :
    ∃ ntr s', (Raft1.system n svc).Run s ntr s' ∧ Sim (t.stop i (t.persisted p)) s' := by
  obtain ⟨hps, hinc⟩ := h.persisted (i := i) (p := p) (by rw [hstatus]; rfl)
  refine ⟨[(s, .crash i)], _, .single ⟨trivial, rfl⟩, ?_⟩
  rw [← hps]
  refine Sim.stopped h.ok hstatus (fun j _ => h.proc j) hinc ?_
  exact (filterMap_sublist fun x _ => message_stop x).subperm.trans h.net

theorem persisted_stop {ps : Persister n C D} {k : Nat} (h : ps.saves.length + k ≤ ps.saves.length) :
    (⟨ps.saves.drop k⟩ : Persister n C D) = ps := by
  obtain rfl : k = 0 := by omega
  rfl

/-- A server is shut down while its peer works: a crash inside the event. -/
theorem Sim.shutdownIn (h : Sim t s) {i : Fin n} {p k : Nat} {w : Work n C D}
    {reqs : List (Request n C D)} (hworks : Works t w t' reqs) (hallowed : w.Allowed svc t)
    (hstatus : (t.srvs i).status = .deleted p) (hworker : t.worker w = some p)
    (hlen : (t.persisted p).saves.length + k ≤ (t'.persisted p).saves.length) :
    ∃ ntr s', (Raft1.system n svc).Run s ntr s' ∧
      Sim (t'.stop i ⟨(t'.persisted p).saves.drop k⟩) s' := by
  have hsvcs : (t.srvs i).status.svcs = some p := by rw [hstatus]; rfl
  obtain ⟨hsrvs, hothers⟩ := hworks.frame
  have hstatus' : (t'.srvs i).status = .deleted p := by rw [hsrvs]; exact hstatus
  obtain ⟨hps, hinc⟩ := h.persisted hsvcs
  rcases h.worksLive hworks hallowed hworker hsvcs with ⟨e, s', he, hexec, hsim, hnet⟩ | ⟨hpeers, rfl, hsim⟩
  · -- the event is made, but for the newest `k` saves
    have hps' : t'.persisted p = (s'.proc i).rf.persister :=
      (hsim.persisted (i := i) (p := p) (by rw [← hsvcs, ← hsrvs]; rfl)).1
    rw [hps, hps'] at hlen
    rw [hps']
    refine ⟨[(s, .crashIn i e k)],
      s.restart i ⟨(s'.proc i).rf.persister.saves.drop k⟩ (s.taken e), .single ⟨he, ?_⟩, ?_⟩
    · simp only [Cluster.step, hexec]
      exact if_pos hlen
    · refine Sim.stopped hsim.ok.of_send hstatus' (fun j hji => ?_) (by rw [hsrvs]; exact hinc) (hnet _)
      rw [h.proc j, hworks.process fun hj => hji (h.ok.svcs_unique (hj.trans hworker) hsvcs)]
  · have hsame : t'.persisted p = t.persisted p := by simp [Testbed.persisted, hpeers]
    rw [hsame] at hlen ⊢
    rw [persisted_stop hlen, ← hsame]
    exact hsim.shutdown hstatus'

/-- Every step of the testbed is one of the cluster, or none. -/
theorem Sim.step (h : Sim t s) {a : Action n C D} (hquiet : t.quiet a = true)
    (hallowed : a.Allowed svc t) (hstep : t.step a = some t') :
    ∃ ntr s', (Raft1.system n svc).Run s ntr s' ∧ Sim t' s' := by
  cases a with
  | net a =>
    obtain ⟨hknob, hmap⟩ := Option.ite_none_right_eq_some.mp hstep
    obtain ⟨net, hnet, rfl⟩ := Option.map_eq_some_iff.mp hmap
    refine ⟨[], s, .nil, ?_, h.proc, h.net⟩
    obtain ⟨hservers, hends⟩ := knob_keeps hknob hnet
    exact h.ok.follow (.of_peers rfl) rfl hservers hends rfl fun call hcall =>
      (h.ok.calls call hcall).mono (.of_peers rfl)
  | startServer i =>
    simp only [Testbed.step] at hstep
    split at hstep
    · rename_i hstatus
      obtain ⟨net, hnet, rfl⟩ := Option.map_eq_some_iff.mp hstep
      exact ⟨[], s, .nil, h.started hstatus hnet⟩
    · contradiction
  | addServer i =>
    simp only [Testbed.step] at hstep
    split at hstep
    · rename_i p hstatus
      obtain rfl := Option.some.inj hstep
      refine ⟨[], s, .nil, h.setServer (by rw [hstatus]; rfl) rfl ?_⟩
      intro j q hq
      simp only [Network.addServer, Function.update_apply] at hq
      split at hq
      · rename_i hji
        rw [if_pos hji, Option.some.inj hq]
      · rename_i hji
        rw [if_neg hji]
        exact h.ok.registered j q hq
    · contradiction
  | deleteServer i =>
    simp only [Testbed.step] at hstep
    split at hstep
    · rename_i p hstatus
      obtain rfl := Option.some.inj hstep
      refine ⟨[], s, .nil, h.setServer (by rw [hstatus]; rfl) rfl ?_⟩
      intro j q hq
      simp only [Network.deleteServer, Function.update_apply] at hq
      split at hq
      · contradiction
      · rename_i hji
        rw [if_neg hji]
        exact h.ok.registered j q hq
    · contradiction
  | shutdownServer i =>
    simp only [Testbed.step] at hstep
    split at hstep
    · rename_i p hstatus
      obtain rfl := Option.some.inj hstep
      exact h.shutdown hstatus
    · contradiction
  | shutdownIn i w k =>
    simp only [Testbed.step] at hstep
    split at hstep
    · rename_i p hstatus
      split at hstep
      · rename_i hworker
        split at hstep
        · contradiction
        · rename_i u reqs hwork
          obtain ⟨hlen, heq⟩ := Option.ite_none_right_eq_some.mp hstep
          obtain rfl := Option.some.inj heq
          exact h.shutdownIn (works hwork) hallowed hstatus hworker hlen
      · contradiction
    · contradiction
  | work w =>
    obtain ⟨⟨u, reqs⟩, hwork, rfl⟩ := Option.map_eq_some_iff.mp hstep
    have hworks := works hwork
    by_cases hlive : ∃ i p, (t.srvs i).status.svcs = some p ∧ t.worker w = some p
    · obtain ⟨i, p, hsvcs, hworker⟩ := hlive
      rcases h.worksLive hworks hallowed hworker hsvcs with ⟨e, s', he, hexec, hsim, -⟩ | ⟨-, rfl, hsim⟩
      · exact ⟨[(s, .event e)], s', .single ⟨he, hexec⟩, hsim⟩
      · exact ⟨[], s, .nil, by rwa [send_nil]⟩
    · have hdead : ∀ i p, (t.srvs i).status.svcs = some p → t.worker w ≠ some p :=
        fun i p hi hp => hlive ⟨i, p, hi, hp⟩
      obtain rfl := hworks.silent hquiet hwork hdead
      exact ⟨[], s, .nil, by rw [send_nil]; exact h.worksDead hworks hdead⟩
  | op c o =>
    obtain ⟨ho, hmap⟩ := Option.ite_none_right_eq_some.mp hstep
    obtain ⟨rpcs, hmoved, rfl⟩ := Option.map_eq_some_iff.mp hmap
    obtain ⟨call, call', hcall, hmoves, rfl⟩ := Rpcs.stepCall_cases hmoved
    have hcallOk := h.ok.calls call (List.mem_of_getElem? hcall)
    refine ⟨[], s, .nil, h.setCall hcall hmoves ?_ (message_moves h.ok hcallOk hmoves ho)⟩
    rintro reply rfl
    simp [isTransport] at ho

theorem Sim.initial : Sim (.initial n C D) (Cluster.initial n C D) where
  ok := by
    refine ⟨?_, ?_, ?_, ?_⟩
    · intro i p hp
      simp [Testbed.initial, Status.svcs] at hp
    · intro i q hq
      simp [Testbed.initial, Rpcs.initial, Labrpc.makeNetwork] at hq
    · intro p hp
      simp [Testbed.initial] at hp
    · intro call hcall
      simp [Testbed.initial, Rpcs.initial] at hcall
  proc := fun _ => rfl
  net := List.nil_subperm

/-- Every run of the tester's servers, with the network of labrpc in between, is a run of the cluster:
the states it visits are matched, in order, by states with the same processes. -/
theorem testbed_refines {tr : List (Testbed n C D × Action n C D)}
    (h : (testbed n svc).Run (.initial n C D) tr t) (hquiet : ∀ x ∈ tr, x.1.quiet x.2 = true) :
    ∃ (ntr : List (Cluster n C D × Raft1.Action n C D)) (s : Cluster n C D) (f : Nat → Nat),
      Raft1.Run svc ntr s ∧ (∀ i, s.proc i = t.process i) ∧ Monotone f ∧
      ∀ k u, (visited tr t)[k]? = some u →
        ∃ v, (visited ntr s)[f k]? = some v ∧ ∀ i, v.proc i = u.process i := by
  obtain ⟨ntr, s, f, hrun, hsim, -, htracks⟩ :=
    h.simulated (N := Raft1.system n svc) (I := Sim) (R := fun _ _ _ => True) Sim.initial
      (by
        intro u x w b hx hsim hstep
        obtain ⟨ntr, b', hrun, hsim'⟩ := hsim.step (hquiet _ hx) hstep.1 hstep.2
        exact ⟨ntr, b', hrun, hsim', trivial⟩)
  refine ⟨ntr, s, f, hrun, hsim.proc, htracks.mono, fun k u hu => ?_⟩
  obtain ⟨v, hv, hsim'⟩ := htracks.states k u hu
  exact ⟨v, hv, hsim'.proc⟩

/-! ## Two servers and a restart

Server `a` is elected through the network, with the vote of `b`. Then `b` is shut down while a second
request of `a` is on its way to it, and started again; the request runs on the peer that was shut down,
and its call returns false. -/

section Sample

abbrev SampleAction := Action 2 Nat (List (Option Nat))

def sampleStart : Testbed 2 Nat (List (Option Nat)) := .initial 2 Nat (List (Option Nat))

def starting (a b : Fin 2) : List SampleAction :=
  [.startServer a, .addServer a, .startServer b, .addServer b, .net (.enable (0, b) true)]

/-- Call `c` from its send to the goroutine of the handler. -/
def forwarding (c : Nat) : List SampleAction := [.op c .accept, .op c .read, .op c .dispatch]

def answering (c : Nat) : List SampleAction :=
  [.work (.handle c), .op c .answer, .op c (.finish false), .work (.ret c)]

def sampleElecting (a : Fin 2) : List SampleAction :=
  .work (.run 0 (.electionTimeout a)) :: forwarding 0 ++ answering 0

def restarting (a b : Fin 2) : List SampleAction :=
  .work (.run 0 (.send a b)) :: forwarding 1 ++
    [.deleteServer b, .shutdownServer b, .startServer b, .addServer b] ++ answering 1

def sampleActions (a b : Fin 2) : List SampleAction :=
  starting a b ++ sampleElecting a ++ restarting a b

def sampleTrace (a b : Fin 2) : List (Testbed 2 Nat (List (Option Nat)) × SampleAction) :=
  traceOf Testbed.step sampleStart (sampleActions a b)

def sampleEnd (a b : Fin 2) : Testbed 2 Nat (List (Option Nat)) :=
  after Testbed.step sampleStart (sampleActions a b)

/-- Whether the action hands over a snapshot. -/
def Action.isSnapshot : Action n C D → Bool
  | .work (.run _ (.snapshot _ _ _)) => true
  | .shutdownIn _ (.run _ (.snapshot _ _ _)) _ => true
  | _ => false

theorem Work.allowed_of_not_snapshot {w : Work n C D}
    (h : (Action.work w).isSnapshot = false) : w.Allowed svc t := by
  cases w with
  | run p e =>
    cases e with
    | snapshot me index data => simp [Action.isSnapshot] at h
    | _ => trivial
  | _ => trivial

theorem Action.allowed_of_not_snapshot {a : Action n C D} (h : a.isSnapshot = false) :
    a.Allowed svc t := by
  cases a with
  | work w => exact Work.allowed_of_not_snapshot h
  | shutdownIn i w k =>
    cases w with
    | run p e =>
      cases e with
      | snapshot me index data => simp [Action.isSnapshot] at h
      | _ => trivial
    | _ => trivial
  | _ => trivial

theorem run_of_enabled {as : List (Action n C D)}
    (h : enabled Testbed.step (fun a => !a.isSnapshot) t as = true) :
    (testbed n svc).Run t (traceOf Testbed.step t as) (after Testbed.step t as) := by
  refine Lts.run_of_enabled ?_ h
  intro u a w hok hstep
  exact ⟨Action.allowed_of_not_snapshot (by simpa using hok), hstep⟩

/-- The run of the sample is one of the cluster in which `a` leads and `b` is in its second
incarnation. -/
theorem testbed_refines_restarting :
    ∃ (ntr : List (Cluster 2 Nat (List (Option Nat)) × Raft1.SampleAction))
      (s : Cluster 2 Nat (List (Option Nat))), Raft1.Run Raft1.logService ntr s ∧
        (s.proc 0).rf.state = .leader ∧ (s.proc 1).incarnation = 1 := by
  have hrun : (testbed 2 Raft1.logService).Run (.initial 2 Nat (List (Option Nat))) (sampleTrace 0 1)
      (sampleEnd 0 1) :=
    run_of_enabled (by decide +kernel)
  obtain ⟨ntr, s, f, hs, hproc, -⟩ := testbed_refines hrun (by decide +kernel)
  refine ⟨ntr, s, hs, ?_, ?_⟩
  · rw [hproc 0]
    decide +kernel
  · rw [hproc 1]
    decide +kernel

end Sample

end DistSys.Tester1
