import DistSys.Lib.Messages
import DistSys.Tester1.Group

/- The messages of the cluster in the calls of the testbed.

   A call stands for the request until its handler has run, and then for the reply. It is lost with
   the peer on which it depends, from the moment the network has found that peer until it has looked
   for it a second time (`underWay`). `Ok` is what holds in every state: a server that the network
   finds runs the newest peer that was made for it, and every call is in the name of the peer that
   made it. -/
namespace DistSys.Tester1

open Lib
open Raft1 (Raft Process Payload Rpc Event Cluster)
open Labrpc (Network Call Op Stage Handler Route)

variable {n : Nat} {C D : Type} {t t' : Testbed n C D}
  {s : Cluster n C D}

/-! ## The code of a peer and the events of the cluster -/

def isReply : Payload n C D → Bool
  | .voteRep _ _ => true
  | .appendRep _ _ => true
  | .snapRep _ _ => true
  | _ => false

/-- An event of `me` in the cluster does what it does alone; what it sends is in the name of `me`, which
stays the incarnation it is. -/
theorem exec_turn {me : Fin n} {e : Event n C D} {p : Process n C D} {msgs : List (Rpc n C D)}
    (h : turn me (s.proc me) e = some (p, msgs)) :
    s.exec e = some (s.set me p (msgs ++ s.net)) ∧ s.taken e = s.net ∧
      p.incarnation = (s.proc me).incarnation ∧
      ∀ m ∈ msgs, m.caller = me ∧ m.incarnation = (s.proc me).incarnation := by
  unfold turn at h
  split at h
  · rename_i hof
    obtain ⟨t, ht, heq⟩ := Option.map_eq_some_iff.mp h
    obtain ⟨rfl, rfl⟩ := Prod.mk.inj heq
    cases e with
    | electionTimeout i =>
      obtain rfl : i = me := by simpa [isOf] using hof
      obtain rfl := Option.some.inj ht
      simp [Cluster.exec, Cluster.set, Cluster.taken, Cluster.broadcast]
    | start i command =>
      obtain rfl : i = me := by simpa [isOf] using hof
      obtain rfl := Option.some.inj ht
      simp [Cluster.exec, Cluster.set, Cluster.taken]
    | send i peer =>
      obtain rfl : i = me := by simpa [isOf] using hof
      simp only [Cluster.exec] at ht ⊢
      split at ht
      · contradiction
      · rename_i hne
        rw [if_neg hne]
        split at ht
        · contradiction
        all_goals
          obtain rfl := Option.some.inj ht
          simp [Cluster.set, Cluster.taken]
    | snapshot i index data =>
      obtain rfl : i = me := by simpa [isOf] using hof
      obtain rfl := Option.some.inj ht
      simp [Cluster.exec, Cluster.set, Cluster.taken]
    | applier i =>
      obtain rfl : i = me := by simpa [isOf] using hof
      simp only [Cluster.exec] at ht ⊢
      split at ht
      · contradiction
      · obtain rfl := Option.some.inj ht
        simp [Cluster.set, Cluster.taken]
    | deliver i =>
      obtain rfl : i = me := by simpa [isOf] using hof
      simp only [Cluster.exec] at ht ⊢
      split at ht
      · contradiction
      · obtain rfl := Option.some.inj ht
        simp [Cluster.set, Cluster.taken]
    | handle k => simp [isOf] at hof
    | lose k => simp [isOf] at hof
  · contradiction

theorem handle_serve {m : Rpc n C D} {rf : Raft n C D} {reply : Payload n C D}
    {rest : List (Rpc n C D)} (h : serve (s.proc m.server).rf m.payload = some (rf, reply)) :
    s.handle m rest =
      s.set m.server { s.proc m.server with rf := rf } ({ m with payload := reply } :: rest) := by
  unfold serve at h
  split at h <;> simp_all [Cluster.handle, Cluster.handleRequest]

theorem serve_isReply {rf rf' : Raft n C D} {request reply : Payload n C D}
    (h : serve rf request = some (rf', reply)) : isReply reply = true := by
  unfold serve at h
  split at h
  · obtain ⟨-, rfl⟩ := Prod.mk.inj (Option.some.inj h)
    rfl
  · obtain ⟨-, rfl⟩ := Prod.mk.inj (Option.some.inj h)
    rfl
  · obtain ⟨-, rfl⟩ := Prod.mk.inj (Option.some.inj h)
    rfl
  · contradiction

theorem handle_receive {m : Rpc n C D} {reply : Payload n C D} {rest : List (Rpc n C D)}
    (hreply : isReply reply = true) (hinc : m.incarnation = (s.proc m.caller).incarnation) :
    s.handle { m with payload := reply } rest =
      s.set m.caller (receive (s.proc m.caller) m.server reply) rest := by
  cases reply <;> simp_all [isReply, Cluster.handle, Cluster.handleReply, receive]

/-! ## What is under way -/

/-- The peer runs for the server. -/
def runs (srvs : Fin n → Server n C D) (j : Fin n) (q : Nat) : Bool :=
  (srvs j).status.svcs == some q

abbrev TestCall (n : Nat) (C D : Type) :=
  Call (Nat × Fin n) (Fin n) Nat (Request n C D) (Payload n C D)

/-- The message of the cluster that a call stands for: its request until it is executed, then the
reply. The second component is the peer on which it depends. It is none before the network has
looked for the server, and again once it has looked for the second time. -/
def underWay (call : TestCall n C D) : Option (Rpc n C D × Option Nat) :=
  let rpc := call.args.rpc
  match call.handler, call.stage with
  | .unborn, .offered => some (rpc, none)
  | .unborn, .accepted => some (rpc, none)
  | .unborn, .forwarding route => some (rpc, some route.server)
  | .running q, _ => some (rpc, some q)
  | .finished q reply, .waiting _ => some ({ rpc with payload := reply }, some q)
  | .gone, .answered route reply => some ({ rpc with payload := reply }, some route.server)
  | .gone, .replying (some reply) => some ({ rpc with payload := reply }, none)
  | _, _ => none

/-- It is lost when that peer is shut down. -/
def message (srvs : Fin n → Server n C D) (call : TestCall n C D) : Option (Rpc n C D) :=
  match underWay call with
  | none => none
  | some (m, none) => some m
  | some (m, some q) => if runs srvs m.server q then some m else none

def pending (t : Testbed n C D) : List (Rpc n C D) := t.rpcs.calls.filterMap (message t.srvs)

/-! ## What holds of every call -/

/-- The server that `processReq` found, as long as the reply may still come from it. -/
def routeOf : Stage (Fin n) Nat (Payload n C D) → Option (Route (Fin n) Nat)
  | .forwarding route => some route
  | .waiting route => some route
  | .answered route _ => some route
  | _ => none

/-- The peer on which the handler runs or has run. -/
def serverOf : Handler Nat (Payload n C D) → Option Nat
  | .running q => some q
  | .finished q _ => some q
  | _ => none

/-- The reply is on its way back. -/
def Holds (call : TestCall n C D) (reply : Payload n C D) : Prop :=
  (∃ q, call.handler = .finished q reply) ∨ (∃ route, call.stage = .answered route reply) ∨
    call.stage = .replying (some reply)

/-- The peer was made for the server. -/
def Serves (t : Testbed n C D) (q : Nat) (j : Fin n) : Prop :=
  ∃ peer, t.peers[q]? = some peer ∧ peer.me = j

structure CallOk (t : Testbed n C D) (call : TestCall n C D) : Prop where
  fits : Call.Fits call.handler call.stage
  sender : ∃ peer, t.peers[call.args.sender]? = some peer ∧ call.args.rpc.caller = peer.me ∧
    call.args.rpc.incarnation = peer.proc.incarnation
  endname : call.endname = (call.args.sender, call.args.rpc.server)
  route : ∀ route, routeOf call.stage = some route →
    route.servername = call.args.rpc.server ∧ Serves t route.server call.args.rpc.server
  handler : ∀ q, serverOf call.handler = some q → Serves t q call.args.rpc.server
  reply : ∀ reply, Holds call reply → isReply reply = true

structure Ok (t : Testbed n C D) : Prop where
  /-- The peer of a server is one that was made for it, and the newest. -/
  svcs : ∀ i p, (t.srvs i).status.svcs = some p →
    ∃ peer, t.peers[p]? = some peer ∧ peer.me = i ∧ peer.proc.incarnation = (t.srvs i).incarnation
  /-- A server that the network finds is running. -/
  registered : ∀ i q, t.rpcs.net.servers i = some q → (t.srvs i).status = .running q
  ends : ∀ p < t.peers.length, ∀ j, t.rpcs.net.connections (p, j) = some j
  calls : ∀ call ∈ t.rpcs.calls, CallOk t call

/-- No peer is lost or becomes another one. -/
def Grows (t t' : Testbed n C D) : Prop :=
  ∀ (p : Nat) (peer : Peer n C D), t.peers[p]? = some peer →
    ∃ peer', t'.peers[p]? = some peer' ∧ peer'.me = peer.me ∧
      peer'.proc.incarnation = peer.proc.incarnation

theorem Grows.of_peers (h : t'.peers = t.peers) : Grows t t' :=
  fun _ peer hp => ⟨peer, h ▸ hp, rfl, rfl⟩

theorem Serves.mono {q : Nat} {j : Fin n} (h : Serves t q j) (hg : Grows t t') : Serves t' q j := by
  obtain ⟨peer, hpeer, hme⟩ := h
  obtain ⟨peer', hpeer', hme', -⟩ := hg q peer hpeer
  exact ⟨peer', hpeer', hme'.trans hme⟩

theorem CallOk.mono {call : TestCall n C D} (h : CallOk t call) (hg : Grows t t') :
    CallOk t' call where
  fits := h.fits
  sender := by
    obtain ⟨peer, hpeer, hcaller, hinc⟩ := h.sender
    obtain ⟨peer', hpeer', hme, hinc'⟩ := hg _ peer hpeer
    exact ⟨peer', hpeer', hcaller.trans hme.symm, hinc.trans hinc'.symm⟩
  endname := h.endname
  route := fun route hroute => ⟨(h.route route hroute).1, (h.route route hroute).2.mono hg⟩
  handler := fun q hq => (h.handler q hq).mono hg
  reply := h.reply

/-- A step of the network for a call keeps what holds of it. -/
theorem CallOk.moves {call call' : TestCall n C D} {o : Op (Payload n C D)} (h : CallOk t call)
    (hok : Ok t) (hmoves : call.Moves t.rpcs.net o call')
    (hreply : ∀ reply, o = .handle reply → isReply reply = true) : CallOk t call' := by
  have hfits := hmoves.fits h.fits
  have hroute := h.route
  have hhandler := h.handler
  have hheld := h.reply
  cases hmoves with
  | read hstage =>
    obtain ⟨peer, hpeer, -⟩ := h.sender
    have hends := hok.ends _ (List.getElem?_eq_some_iff.mp hpeer).1 call.args.rpc.server
    rw [← h.endname] at hends
    rcases Call.readStage_cases (R := Payload n C D) t.rpcs.net call.endname with
      hread | ⟨route, hread, -, hconnected, hserver⟩
    · refine ⟨hfits, h.sender, h.endname, by simp [hread, routeOf], hhandler, ?_⟩
      rintro reply (hr | ⟨route, hr⟩ | hr)
      · exact hheld reply (Or.inl hr)
      · simp [hread] at hr
      · simp [hread] at hr
    · obtain hname := Option.some.inj (hconnected.symm.trans hends)
      obtain ⟨peer', hpeer', hme, -⟩ := hok.svcs _ route.server (by
        rw [hok.registered _ _ hserver]
        rfl)
      refine ⟨hfits, h.sender, h.endname, ?_, hhandler, ?_⟩
      · intro route' hr
        obtain rfl : route = route' := by simpa [hread, routeOf] using hr
        exact ⟨hname, peer', hpeer', hme.trans hname⟩
      · rintro reply (hr | ⟨route, hr⟩ | hr)
        · exact hheld reply (Or.inl hr)
        · simp [hread] at hr
        · simp [hread] at hr
  | finish route reply lost hstage =>
    have hcases := Call.finishStage_cases route reply
      (t.rpcs.net.isServerDead call.endname route.servername route.server) lost
    refine ⟨hfits, h.sender, h.endname, ?_, hhandler, ?_⟩
    · intro route' hr
      rcases hcases with hfinish | ⟨hfinish, -⟩ <;> simp [hfinish, routeOf] at hr
    · rintro reply' (hr | ⟨route', hr⟩ | hr)
      · exact hheld reply' (Or.inl hr)
      · rcases hcases with hfinish | ⟨hfinish, -⟩ <;> simp [hfinish] at hr
      · rcases hcases with hfinish | ⟨hfinish, -⟩ <;> simp [hfinish] at hr
        exact hheld reply' (Or.inr (Or.inl ⟨route, hr ▸ hstage⟩))
  | handle server reply hrunning =>
    refine ⟨hfits, h.sender, h.endname, hroute, ?_, ?_⟩
    · intro q hq
      exact hhandler q (by simpa [serverOf, hrunning] using hq)
    · rintro reply' (⟨q, hq⟩ | hr)
      · obtain ⟨-, rfl⟩ := Handler.finished.inj hq
        exact hreply _ rfl
      · exact hheld reply' (Or.inr hr)
  | answer route server reply hstage hfinished =>
    refine ⟨hfits, h.sender, h.endname, ?_, by simp [serverOf], ?_⟩
    · intro route' hr
      exact hroute route' (by simpa [hstage, routeOf] using hr)
    · rintro reply' (⟨q, hq⟩ | ⟨route', hr⟩ | hr)
      · simp at hq
      · obtain ⟨-, rfl⟩ := Stage.answered.inj hr
        exact hheld _ (Or.inl ⟨server, hfinished⟩)
      · simp at hr
  | dispatch route hstage =>
    have hserves := hroute route (by simp [hstage, routeOf])
    refine ⟨hfits, h.sender, h.endname, ?_, ?_, ?_⟩
    · intro route' hr
      obtain rfl : route = route' := by simpa [routeOf] using hr
      exact hserves
    · intro q hq
      obtain rfl : route.server = q := by simpa [serverOf] using hq
      exact hserves.2
    · rintro reply (⟨q, hr⟩ | ⟨route', hr⟩ | hr) <;> simp at hr
  | drain server reply hstage hfinished =>
    refine ⟨hfits, h.sender, h.endname, hroute, by simp [serverOf], ?_⟩
    rintro reply' (⟨q, hr⟩ | hr)
    · simp at hr
    · exact hheld reply' (Or.inr hr)
  | «return» reply hstage =>
    refine ⟨hfits, h.sender, h.endname, by simp [routeOf], hhandler, ?_⟩
    rintro reply' (hr | ⟨route', hr⟩ | hr)
    · exact hheld reply' (Or.inl hr)
    · simp at hr
    · simp at hr
  | _ =>
    refine ⟨hfits, h.sender, h.endname, by simp [routeOf], hhandler, ?_⟩
    rintro reply (hr | ⟨route', hr⟩ | hr)
    · exact hheld reply (Or.inl hr)
    · simp at hr
    · simp at hr

/-! ## Processes -/

theorem process_live {i : Fin n} {p : Nat} {peer : Peer n C D}
    (hsvcs : (t.srvs i).status.svcs = some p) (hpeer : t.peers[p]? = some peer) :
    t.process i = peer.proc := by
  simp [Testbed.process, hsvcs, hpeer]

theorem getElem?_setPeer (t : Testbed n C D) (p q : Nat) (proc : Process n C D) :
    (t.setPeer p proc).peers[q]? =
      (t.peers[q]?).map fun peer => if p = q then { peer with proc := proc } else peer := by
  by_cases hpq : p = q <;> simp [Testbed.setPeer, hpq]

theorem Grows.setPeer {p : Nat} {peer : Peer n C D} {proc : Process n C D}
    (hpeer : t.peers[p]? = some peer) (hinc : proc.incarnation = peer.proc.incarnation) :
    Grows t (t.setPeer p proc) := by
  intro q peer' hq
  rw [getElem?_setPeer, hq]
  by_cases hpq : p = q
  · subst hpq
    obtain rfl := Option.some.inj (hpeer.symm.trans hq)
    exact ⟨{ peer with proc := proc }, by simp, rfl, hinc⟩
  · exact ⟨peer', by simp [hpq], rfl, rfl⟩

/-- The peers run on other servers when one changes. -/
theorem process_setPeer {p : Nat} {peer : Peer n C D} {proc : Process n C D}
    (hpeer : t.peers[p]? = some peer) (i : Fin n) :
    (t.setPeer p proc).process i =
      if (t.srvs i).status.svcs = some p then proc else t.process i := by
  unfold Testbed.process
  have hsrvs : (t.setPeer p proc).srvs = t.srvs := rfl
  rw [hsrvs]
  cases hsvcs : (t.srvs i).status.svcs with
  | none => simp
  | some q =>
    simp only [getElem?_setPeer, Option.some.injEq]
    by_cases hpq : p = q
    · subst hpq
      simp [hpeer]
    · cases hq : t.peers[q]? <;> simp [hpq, Ne.symm hpq]

/-! ## The messages of the calls -/

/-- A transport step leaves the message of a call where it is, or loses it. -/
theorem message_moves {call call' : TestCall n C D} {o : Op (Payload n C D)} (hok : Ok t)
    (h : CallOk t call) (hmoves : call.Moves t.rpcs.net o call') (ho : isTransport o = true) :
    message t.srvs call' = none ∨ message t.srvs call' = message t.srvs call := by
  have hfits := h.fits
  -- a server that the network finds in place is one whose peer runs
  have hruns : ∀ route : Route (Fin n) Nat, route.servername = call.args.rpc.server →
      t.rpcs.net.servers route.servername = some route.server →
      runs t.srvs call.args.rpc.server route.server = true := by
    intro route hname hserver
    have hrunning := hok.registered _ _ hserver
    rw [hname] at hrunning
    simp [runs, hrunning, Status.svcs]
  cases hmoves with
  | accept hstage =>
    simp only [hstage, Call.Fits] at hfits
    simp [message, underWay, hfits, hstage]
  | read hstage =>
    simp only [hstage, Call.Fits] at hfits
    obtain ⟨peer, hpeer, -⟩ := h.sender
    have hends := hok.ends _ (List.getElem?_eq_some_iff.mp hpeer).1 call.args.rpc.server
    rw [← h.endname] at hends
    rcases Call.readStage_cases (R := Payload n C D) t.rpcs.net call.endname with
      hread | ⟨route, hread, -, hconnected, hserver⟩
    · simp [message, underWay, hfits, hread]
    · have hname := Option.some.inj (hconnected.symm.trans hends)
      simp [message, underWay, hfits, hread, hstage, hruns route hname hserver]
  | dispatch route hstage =>
    simp only [hstage, Call.Fits] at hfits
    simp [message, underWay, hfits, hstage]
  | answer route server reply hstage hfinished =>
    obtain rfl : server = route.server := by simpa [hstage, hfinished, Call.Fits] using hfits
    simp [message, underWay, hstage, hfinished]
  | finish route reply lost hstage =>
    simp only [hstage, Call.Fits] at hfits
    rcases Call.finishStage_cases route reply
      (t.rpcs.net.isServerDead call.endname route.servername route.server) lost with
      hfinish | ⟨hfinish, halive⟩
    · simp [message, underWay, hfits, hfinish]
    · simp only [Network.isServerDead, Bool.or_eq_false_iff, bne_eq_false_iff_eq] at halive
      have hname := (h.route route (by simp [hstage, routeOf])).1
      simp [message, underWay, hfits, hfinish, hstage, hruns route hname halive.2]
  | handle => simp [isTransport] at ho
  | «return» => simp [isTransport] at ho
  | destroyed hstage =>
    simp only [hstage, Call.Fits] at hfits
    simp [message, underWay, hfits]
  | timeout hstage =>
    simp only [hstage, Call.Fits] at hfits
    simp [message, underWay, hfits]
  | drop route hstage =>
    simp only [hstage, Call.Fits] at hfits
    simp [message, underWay, hfits]
  | giveUp route hstage =>
    cases hh : call.handler <;> simp [message, underWay, hh]
  | fail route lost hstage =>
    cases hh : call.handler <;> simp [message, underWay, hh]
  | drain server reply hstage hfinished =>
    left
    cases hs : call.stage <;> simp_all [message, underWay, Call.Fits]

/-! ## The invariant step by step -/

/-- The peers go on, the servers stay. -/
theorem Ok.follow (hok : Ok t) (hgrows : Grows t t') (hsrvs : t'.srvs = t.srvs)
    (hservers : t'.rpcs.net.servers = t.rpcs.net.servers)
    (hends : t'.rpcs.net.connections = t.rpcs.net.connections)
    (hlen : t'.peers.length = t.peers.length) (hcalls : ∀ call ∈ t'.rpcs.calls, CallOk t' call) :
    Ok t' where
  svcs := by
    intro i p hp
    rw [hsrvs] at hp ⊢
    obtain ⟨peer, hpeer, hme, hinc⟩ := hok.svcs i p hp
    obtain ⟨peer', hpeer', hme', hinc'⟩ := hgrows p peer hpeer
    exact ⟨peer', hpeer', hme'.trans hme, hinc'.trans hinc⟩
  registered := by
    intro i q hq
    rw [hsrvs]
    exact hok.registered i q (hservers ▸ hq)
  ends := by
    intro p hp j
    rw [hends]
    exact hok.ends p (hlen ▸ hp) j
  calls := hcalls

theorem Ok.setPeer (hok : Ok t) {p : Nat} {peer : Peer n C D} {proc : Process n C D}
    (hpeer : t.peers[p]? = some peer) (hinc : proc.incarnation = peer.proc.incarnation) :
    Ok (t.setPeer p proc) := by
  have hgrows := Grows.setPeer hpeer hinc
  refine hok.follow hgrows rfl rfl rfl (by simp [Testbed.setPeer]) ?_
  exact fun call hcall => (hok.calls call hcall).mono hgrows

/-- The state after a step of the call with number `c`. -/
def Testbed.setCall (t : Testbed n C D) (c : Nat) (call' : TestCall n C D) : Testbed n C D :=
  { t with rpcs := { t.rpcs with calls := t.rpcs.calls.set c call' } }

theorem Ok.setCall (hok : Ok t) {c : Nat} {call call' : TestCall n C D} {o : Op (Payload n C D)}
    (hcall : t.rpcs.calls[c]? = some call) (hmoves : call.Moves t.rpcs.net o call')
    (hreply : ∀ reply, o = .handle reply → isReply reply = true) : Ok (t.setCall c call') := by
  have hgrows : Grows t (t.setCall c call') := .of_peers rfl
  refine hok.follow hgrows rfl rfl rfl rfl fun x hx => CallOk.mono ?_ hgrows
  rcases List.mem_or_eq_of_mem_set hx with hx | rfl
  · exact hok.calls x hx
  · exact (hok.calls call (List.mem_of_getElem? hcall)).moves hok hmoves hreply

theorem Ok.send (hok : Ok t) {p : Nat} {peer : Peer n C D} {msgs : List (Rpc n C D)}
    (hpeer : t.peers[p]? = some peer)
    (hmsgs : ∀ m ∈ msgs, m.caller = peer.me ∧ m.incarnation = peer.proc.incarnation) :
    Ok (t.send (msgs.map (Request.mk p))) := by
  have hgrows : Grows t (t.send (msgs.map (Request.mk p))) := .of_peers rfl
  refine hok.follow hgrows rfl rfl rfl rfl fun call hcall => CallOk.mono ?_ hgrows
  rcases List.mem_append.mp hcall with hcall | hcall
  · exact hok.calls call hcall
  · obtain ⟨r, hr, rfl⟩ := List.mem_map.mp hcall
    obtain ⟨m, hm, rfl⟩ := List.mem_map.mp hr
    refine ⟨rfl, ⟨peer, hpeer, hmsgs m hm⟩, rfl, by simp [Call.make, routeOf],
      by simp [Call.make, serverOf], ?_⟩
    rintro reply (⟨q, hq⟩ | ⟨route, hq⟩ | hq) <;> simp [Call.make] at hq

theorem Ok.of_send {reqs : List (Request n C D)} (hok : Ok (t.send reqs)) : Ok t :=
  hok.follow (.of_peers rfl) rfl rfl rfl rfl fun call hcall =>
    (hok.calls call (List.mem_append_left _ hcall)).mono (.of_peers rfl)

/-- Requests that are sent are under way. -/
theorem pending_send (t : Testbed n C D) (p : Nat) (msgs : List (Rpc n C D)) :
    pending (t.send (msgs.map (Request.mk p))) = pending t ++ msgs := by
  simp only [pending, Testbed.send, List.filterMap_append, List.map_map, List.filterMap_map]
  congr 1
  induction msgs with
  | nil => rfl
  | cons m msgs ih => simp [message, underWay, Call.make]

end DistSys.Tester1
