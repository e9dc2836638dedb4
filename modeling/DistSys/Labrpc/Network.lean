import DistSys.Lib.Transition

/- The simulated network of labrpc/labrpc.go.

   A `ClientEnd` sends every request into one channel; a goroutine of the network takes it out and
   starts `processReq` for it. That goroutine looks up the server behind the end, may drop the
   request, has the handler run in a goroutine of its own, and waits for it to return or for the
   server to be deleted. Then it looks at the server again, may drop the reply, and answers the
   `Call`. Whatever is done under `rn.mu`, or passed over a channel, is one step.

   A server is known by its address (`S`): a server that is deleted and started again under its name
   is a new object, and a request that was on its way to the old one still runs there. What a handler
   does is left to the program above; here it returns any reply, at any time or never.

   The random numbers of the source are choices: the request and the reply of an unreliable
   network may be dropped or not, and every delay may take any time. -/
namespace DistSys.Labrpc

open Lib

variable {E N S A R : Type}

/-! ## The network -/

/-- `ends` says which end names were made and not deleted. A missing key of the other maps reads as
`false` or `nil`. -/
structure Network (E N S : Type) where
  reliable : Bool
  longDelays : Bool
  longReordering : Bool
  ends : E → Bool
  enabled : E → Bool
  servers : N → Option S
  connections : E → Option N
  /-- The channel `done` is closed. -/
  done : Bool
  /-- The goroutine that takes the requests from the channel still runs. -/
  listening : Bool

def makeNetwork : Network E N S where
  reliable := true
  longDelays := false
  longReordering := false
  ends := fun _ => false
  enabled := fun _ => false
  servers := fun _ => none
  connections := fun _ => none
  done := false
  listening := true

/-- What `processReq` reads first. -/
structure EndnameInfo (N S : Type) where
  enabled : Bool
  servername : Option N
  server : Option S
  reliable : Bool
  longreordering : Bool

/-- What the tester does to the network. -/
inductive Admin (E N S : Type) where
  | cleanup
  | stopListening
  | reliable (yes : Bool)
  | longReordering (yes : Bool)
  | longDelays (yes : Bool)
  | makeEnd (endname : E)
  | deleteEnd (endname : E)
  | addServer (servername : N) (rs : S)
  | deleteServer (servername : N)
  | connect (endname : E) (servername : N)
  | enable (endname : E) (enabled : Bool)

namespace Network

variable [DecidableEq E] [DecidableEq N]

/-- `none` for an end that exists: `log.Fatalf`. -/
def makeEnd (rn : Network E N S) (endname : E) : Option (Network E N S) :=
  if rn.ends endname then none
  else some { rn with
    ends := Function.update rn.ends endname true
    enabled := Function.update rn.enabled endname false
    connections := Function.update rn.connections endname none }

def deleteEnd (rn : Network E N S) (endname : E) : Option (Network E N S) :=
  if !rn.ends endname then none
  else some { rn with
    ends := Function.update rn.ends endname false
    enabled := Function.update rn.enabled endname false
    connections := Function.update rn.connections endname none }

def addServer (rn : Network E N S) (servername : N) (rs : S) : Network E N S :=
  { rn with servers := Function.update rn.servers servername (some rs) }

def deleteServer (rn : Network E N S) (servername : N) : Network E N S :=
  { rn with servers := Function.update rn.servers servername none }

def connect (rn : Network E N S) (endname : E) (servername : N) : Network E N S :=
  { rn with connections := Function.update rn.connections endname (some servername) }

def enable (rn : Network E N S) (endname : E) (enabled : Bool) : Network E N S :=
  { rn with enabled := Function.update rn.enabled endname enabled }

omit [DecidableEq E] [DecidableEq N] in
def readEndnameInfo (rn : Network E N S) (endname : E) : EndnameInfo N S where
  enabled := rn.enabled endname
  servername := rn.connections endname
  server := (rn.connections endname).bind rn.servers
  reliable := rn.reliable
  longreordering := rn.longReordering

omit [DecidableEq E] [DecidableEq N] in
def isServerDead [DecidableEq S] (rn : Network E N S) (endname : E) (servername : N) (server : S) :
    Bool :=
  rn.enabled endname == false || rn.servers servername != some server

def admin (rn : Network E N S) : Admin E N S → Option (Network E N S)
  | .cleanup => if rn.done then none else some { rn with done := true }
  | .stopListening => if rn.done then some { rn with listening := false } else none
  | .reliable yes => some { rn with reliable := yes }
  | .longReordering yes => some { rn with longReordering := yes }
  | .longDelays yes => some { rn with longDelays := yes }
  | .makeEnd endname => rn.makeEnd endname
  | .deleteEnd endname => rn.deleteEnd endname
  | .addServer servername rs => some (rn.addServer servername rs)
  | .deleteServer servername => some (rn.deleteServer servername)
  | .connect endname servername => some (rn.connect endname servername)
  | .enable endname enabled => some (rn.enable endname enabled)

end Network

/-! ## One call -/

/-- The server that `processReq` found behind the end, and how the network was then. -/
structure Route (N S : Type) where
  servername : N
  server : S
  reliable : Bool
  longreordering : Bool
  deriving DecidableEq

/-- Where a `Call` and the `processReq` for it are. -/
inductive Stage (N S R : Type) where
  /-- `Call` is about to send the request on `e.ch`. -/
  | offered
  /-- `processReq` has the request. -/
  | accepted
  /-- There is no server behind the end; a timer runs. -/
  | unreachable
  /-- There is one; the request is delayed. -/
  | forwarding (route : Route N S)
  /-- The handler has its goroutine; the loop waits for it, and looks at the server from time to time. -/
  | waiting (route : Route N S)
  /-- The loop ended with `replyOK`. -/
  | answered (route : Route N S) (reply : R)
  /-- The loop ended with `serverDead`. -/
  | abandoned (route : Route N S)
  /-- A `replyMsg` is on its way to `req.replyCh`; `none` is `replyMsg{false, nil}`. -/
  | replying (reply : Option R)
  /-- `Call` has returned, true with a reply. -/
  | returned (reply : Option R)
  deriving DecidableEq

/-- The goroutine that runs `server.dispatch(req)`. -/
inductive Handler (S R : Type) where
  | unborn
  | running (server : S)
  /-- The handler has returned; its reply is offered on `ech`. -/
  | finished (server : S) (reply : R)
  /-- The reply was taken from `ech`. -/
  | gone
  deriving DecidableEq

structure Call (E N S A R : Type) where
  endname : E
  args : A
  stage : Stage N S R
  handler : Handler S R
  deriving DecidableEq

/-- The steps of one call. -/
inductive Op (R : Type) where
  /-- The network takes the request. -/
  | accept
  /-- The network has been destroyed. -/
  | destroyed
  /-- `readEndnameInfo`. -/
  | read
  /-- The timer of a request without a server fires. -/
  | timeout
  /-- The request is dropped. -/
  | drop
  /-- The handler gets its goroutine. -/
  | dispatch
  /-- The handler runs and returns. -/
  | handle (reply : R)
  /-- The loop takes the reply. -/
  | answer
  /-- The loop finds the server dead. -/
  | giveUp
  /-- The reply is drained after that. -/
  | drain
  /-- The second look at the server, and the reply sent on; `lost`: it is dropped. -/
  | finish (lost : Bool)
  /-- `Call` returns. -/
  | return
  deriving DecidableEq

namespace Call

/-- `Call` up to the send. -/
def make (endname : E) (args : A) : Call E N S A R where
  endname := endname
  args := args
  stage := .offered
  handler := .unborn

/-- After `readEndnameInfo`. -/
def readStage (info : EndnameInfo N S) : Stage N S R :=
  match info.enabled, info.servername, info.server with
  | true, some servername, some server =>
    .forwarding ⟨servername, server, info.reliable, info.longreordering⟩
  | _, _, _ => .unreachable

/-- The end of `processReq`: `replyOK` as an option, and whether the reply is to be dropped. The delay
of `longreordering` is the time the reply stays on its way. -/
def finishStage (route : Route N S) (reply : Option R) (serverDead lost : Bool) : Stage N S R :=
  match reply with
  | none => .replying none
  | some reply =>
    if serverDead then .replying none
    else if !route.reliable && lost then .replying none
    else .replying (some reply)

/-- The request is forwarded to the server behind the end, or there is none. -/
theorem readStage_cases (rn : Network E N S) (endname : E) :
    readStage (rn.readEndnameInfo endname) = (.unreachable : Stage N S R) ∨
      ∃ route, readStage (rn.readEndnameInfo endname) = (.forwarding route : Stage N S R) ∧
        rn.enabled endname = true ∧ rn.connections endname = some route.servername ∧
        rn.servers route.servername = some route.server := by
  simp only [readStage, Network.readEndnameInfo]
  split
  · rename_i servername server henabled hconnected hserver
    rw [hconnected, Option.bind_some] at hserver
    exact Or.inr ⟨_, rfl, henabled, hconnected, hserver⟩
  · exact Or.inl rfl

/-- The reply is sent on only if the server is still there. -/
theorem finishStage_cases (route : Route N S) (reply : R) (serverDead lost : Bool) :
    finishStage route (some reply) serverDead lost = .replying none ∨
      finishStage route (some reply) serverDead lost = .replying (some reply) ∧ serverDead = false := by
  cases serverDead with
  | true => exact Or.inl rfl
  | false =>
    simp only [finishStage, Bool.false_eq_true, if_false]
    split
    · exact Or.inl rfl
    · exact Or.inr ⟨rfl, trivial⟩

/-- One step of a call; `none` when it is not enabled. -/
def step [DecidableEq S] (rn : Network E N S) (c : Call E N S A R) :
    Op R → Option (Call E N S A R)
  | .accept =>
    match c.stage with
    | .offered => if rn.listening then some { c with stage := .accepted } else none
    | _ => none
  | .destroyed =>
    match c.stage with
    | .offered => if rn.done then some { c with stage := .returned none } else none
    | _ => none
  | .read =>
    match c.stage with
    | .accepted => some { c with stage := readStage (rn.readEndnameInfo c.endname) }
    | _ => none
  | .timeout =>
    match c.stage with
    | .unreachable => some { c with stage := .replying none }
    | _ => none
  | .drop =>
    match c.stage with
    | .forwarding route => if route.reliable then none else some { c with stage := .replying none }
    | _ => none
  | .dispatch =>
    match c.stage with
    | .forwarding route => some { c with stage := .waiting route, handler := .running route.server }
    | _ => none
  | .handle reply =>
    match c.handler with
    | .running server => some { c with handler := .finished server reply }
    | _ => none
  | .answer =>
    match c.stage, c.handler with
    | .waiting route, .finished _ reply =>
      some { c with stage := .answered route reply, handler := .gone }
    | _, _ => none
  | .giveUp =>
    match c.stage with
    | .waiting route =>
      if rn.isServerDead c.endname route.servername route.server then
        some { c with stage := .abandoned route }
      else none
    | _ => none
  | .drain =>
    match c.stage, c.handler with
    | .waiting _, _ => none
    | _, .finished _ _ => some { c with handler := .gone }
    | _, _ => none
  | .finish lost =>
    match c.stage with
    | .answered route reply => some { c with
        stage := finishStage route (some reply)
          (rn.isServerDead c.endname route.servername route.server) lost }
    | .abandoned route => some { c with
        stage := finishStage route none
          (rn.isServerDead c.endname route.servername route.server) lost }
    | _ => none
  | .return =>
    match c.stage with
    | .replying reply => some { c with stage := .returned reply }
    | _ => none

/-- What a step of a call can be: what it needs, and the call after it. -/
inductive Moves [DecidableEq S] (rn : Network E N S) (c : Call E N S A R) :
    Op R → Call E N S A R → Prop where
  | accept (hstage : c.stage = .offered) (hlistening : rn.listening = true) :
      Moves rn c .accept { c with stage := .accepted }
  | destroyed (hstage : c.stage = .offered) (hdone : rn.done = true) :
      Moves rn c .destroyed { c with stage := .returned none }
  | read (hstage : c.stage = .accepted) :
      Moves rn c .read { c with stage := readStage (rn.readEndnameInfo c.endname) }
  | timeout (hstage : c.stage = .unreachable) :
      Moves rn c .timeout { c with stage := .replying none }
  | drop (route : Route N S) (hstage : c.stage = .forwarding route)
      (hunreliable : route.reliable = false) : Moves rn c .drop { c with stage := .replying none }
  | dispatch (route : Route N S) (hstage : c.stage = .forwarding route) :
      Moves rn c .dispatch { c with stage := .waiting route, handler := .running route.server }
  | handle (server : S) (reply : R) (hhandler : c.handler = .running server) :
      Moves rn c (.handle reply) { c with handler := .finished server reply }
  | answer (route : Route N S) (server : S) (reply : R) (hstage : c.stage = .waiting route)
      (hhandler : c.handler = .finished server reply) :
      Moves rn c .answer { c with stage := .answered route reply, handler := .gone }
  | giveUp (route : Route N S) (hstage : c.stage = .waiting route)
      (hdead : rn.isServerDead c.endname route.servername route.server = true) :
      Moves rn c .giveUp { c with stage := .abandoned route }
  | drain (server : S) (reply : R) (hstage : ∀ route, c.stage ≠ .waiting route)
      (hhandler : c.handler = .finished server reply) : Moves rn c .drain { c with handler := .gone }
  | finish (route : Route N S) (reply : R) (lost : Bool) (hstage : c.stage = .answered route reply) :
      Moves rn c (.finish lost) { c with
        stage := finishStage route (some reply)
          (rn.isServerDead c.endname route.servername route.server) lost }
  | fail (route : Route N S) (lost : Bool) (hstage : c.stage = .abandoned route) :
      Moves rn c (.finish lost) { c with stage := .replying none }
  | return (reply : Option R) (hstage : c.stage = .replying reply) :
      Moves rn c .return { c with stage := .returned reply }

theorem moves [DecidableEq S] {rn : Network E N S} {c c' : Call E N S A R} {o : Op R}
    (h : c.step rn o = some c') : Moves rn c o c' := by
  cases o with
  | accept =>
    simp only [step] at h
    split at h
    · obtain ⟨hlistening, heq⟩ := Option.ite_none_right_eq_some.mp h
      obtain rfl := Option.some.inj heq
      exact .accept ‹_› hlistening
    · contradiction
  | destroyed =>
    simp only [step] at h
    split at h
    · obtain ⟨hdone, heq⟩ := Option.ite_none_right_eq_some.mp h
      obtain rfl := Option.some.inj heq
      exact .destroyed ‹_› hdone
    · contradiction
  | read =>
    simp only [step] at h
    split at h
    · obtain rfl := Option.some.inj h
      exact .read ‹_›
    · contradiction
  | timeout =>
    simp only [step] at h
    split at h
    · obtain rfl := Option.some.inj h
      exact .timeout ‹_›
    · contradiction
  | drop =>
    simp only [step] at h
    split at h
    · obtain ⟨hreliable, heq⟩ := Option.ite_none_left_eq_some.mp h
      obtain rfl := Option.some.inj heq
      exact .drop _ ‹_› (by simpa using hreliable)
    · contradiction
  | dispatch =>
    simp only [step] at h
    split at h
    · obtain rfl := Option.some.inj h
      exact .dispatch _ ‹_›
    · contradiction
  | handle reply =>
    simp only [step] at h
    split at h
    · obtain rfl := Option.some.inj h
      exact .handle _ reply ‹_›
    · contradiction
  | answer =>
    simp only [step] at h
    split at h
    · rename_i hstage hhandler
      obtain rfl := Option.some.inj h
      exact .answer _ _ _ hstage hhandler
    · contradiction
  | giveUp =>
    simp only [step] at h
    split at h
    · obtain ⟨hdead, heq⟩ := Option.ite_none_right_eq_some.mp h
      obtain rfl := Option.some.inj heq
      exact .giveUp _ ‹_› hdead
    · contradiction
  | drain =>
    simp only [step] at h
    split at h
    · contradiction
    · rename_i hhandler hstage
      obtain rfl := Option.some.inj h
      exact .drain _ _ hstage hhandler
    · contradiction
  | finish lost =>
    simp only [step] at h
    split at h
    · obtain rfl := Option.some.inj h
      exact .finish _ _ lost ‹_›
    · obtain rfl := Option.some.inj h
      exact .fail _ lost ‹_›
    · contradiction
  | «return» =>
    simp only [step] at h
    split at h
    · obtain rfl := Option.some.inj h
      exact .return _ ‹_›
    · contradiction

/-- The handlers that go with a stage. -/
def Fits (handler : Handler S R) : Stage N S R → Prop
  | .offered => handler = .unborn
  | .accepted => handler = .unborn
  | .unreachable => handler = .unborn
  | .forwarding _ => handler = .unborn
  | .waiting route =>
    handler = .running route.server ∨ ∃ reply, handler = .finished route.server reply
  | .answered _ _ => handler = .gone
  | .abandoned _ => True
  | .replying reply => reply.isSome → handler = .gone
  | .returned reply => reply.isSome → handler = .gone

/-- The steps of a call keep stage and handler together. -/
theorem Moves.fits [DecidableEq S] {rn : Network E N S} {c c' : Call E N S A R} {o : Op R}
    (h : Moves rn c o c') (hfits : Fits c.handler c.stage) : Fits c'.handler c'.stage := by
  cases h with
  | accept hstage => simpa [hstage, Fits] using hfits
  | read hstage =>
    have hunborn : c.handler = .unborn := by simpa [hstage, Fits] using hfits
    rcases readStage_cases (R := R) rn c.endname with hread | ⟨route, hread, -⟩ <;> rw [hread] <;>
      exact hunborn
  | handle server reply hhandler =>
    cases hs : c.stage with
    | waiting route =>
      have hserver : route.server = server := by
        simpa [hs, hhandler, Fits, eq_comm] using hfits
      exact Or.inr ⟨reply, by rw [hserver]⟩
    | _ => simp_all [Fits]
  | answer => simp [Fits]
  | drain server reply hstage hhandler =>
    cases hs : c.stage with
    | waiting route => exact absurd hs (hstage route)
    | _ => simp_all [Fits]
  | finish route reply lost hstage =>
    have hgone : c.handler = .gone := by simpa [hstage, Fits] using hfits
    rcases finishStage_cases route reply (rn.isServerDead c.endname route.servername route.server)
      lost with hfinish | ⟨hfinish, -⟩ <;> simp [hfinish, Fits, hgone]
  | «return» reply hstage => simpa [hstage, Fits] using hfits
  | _ => simp_all [Fits]

end Call

/-! ## All calls -/

/-- The network and the calls made so far, oldest first; a call is known by its number. -/
structure Rpcs (E N S A R : Type) where
  net : Network E N S
  calls : List (Call E N S A R)

inductive Label (E N S A R : Type) where
  | admin (a : Admin E N S)
  | call (endname : E) (args : A)
  | op (c : Nat) (o : Op R)

namespace Rpcs

variable [DecidableEq E] [DecidableEq N] [DecidableEq S]

def initial : Rpcs E N S A R := ⟨makeNetwork, []⟩

/-- A step of the call with number `c`. -/
def stepCall (s : Rpcs E N S A R) (c : Nat) (o : Op R) : Option (Rpcs E N S A R) :=
  match s.calls[c]? with
  | none => none
  | some call => (call.step s.net o).map fun call' => { s with calls := s.calls.set c call' }

omit [DecidableEq E] [DecidableEq N] in
theorem stepCall_cases {s t : Rpcs E N S A R} {c : Nat} {o : Op R} (h : s.stepCall c o = some t) :
    ∃ call call', s.calls[c]? = some call ∧ call.Moves s.net o call' ∧
      t = { s with calls := s.calls.set c call' } := by
  unfold stepCall at h
  split at h
  · contradiction
  · rename_i call hcall
    obtain ⟨call', hstep, rfl⟩ := Option.map_eq_some_iff.mp h
    exact ⟨call, call', hcall, Call.moves hstep, rfl⟩

def step (s : Rpcs E N S A R) : Label E N S A R → Option (Rpcs E N S A R)
  | .admin a => (s.net.admin a).map fun net => { s with net := net }
  | .call endname args => some { s with calls := s.calls ++ [Call.make endname args] }
  | .op c o => s.stepCall c o

end Rpcs

/-- The network with any program above it. -/
def system (E N S A R : Type) [DecidableEq E] [DecidableEq N] [DecidableEq S] :
    Lts (Rpcs E N S A R) (Label E N S A R) where
  init := fun s => s = Rpcs.initial
  step := fun s a t => s.step a = some t

/-! ## A run to read the statements on

The end `1` leads to the server named `0`, which is the one at address `10` when the call is made. It
runs the handler and the call returns (`returning`); or it is deleted first. -/

section Sample

abbrev SampleLabel := Label Nat Nat Nat Nat Nat

def sampleStart : Rpcs Nat Nat Nat Nat Nat := .initial

def connecting : List SampleLabel :=
  [.admin (.makeEnd 1), .admin (.connect 1 0), .admin (.addServer 0 10), .admin (.enable 1 true)]

/-- Up to the moment when the handler has its goroutine. -/
def calling : List SampleLabel := [.call 1 5, .op 0 .accept, .op 0 .read, .op 0 .dispatch]

def returning : List SampleLabel :=
  [.op 0 (.handle 6), .op 0 .answer, .op 0 (.finish false), .op 0 .return]

def sampleTrace (as : List SampleLabel) : List (Rpcs Nat Nat Nat Nat Nat × SampleLabel) :=
  traceOf Rpcs.step sampleStart as

def sampleAt (as : List SampleLabel) : Rpcs Nat Nat Nat Nat Nat := after Rpcs.step sampleStart as

theorem sample_run (as : List SampleLabel)
    (h : enabled Rpcs.step (fun _ => true) sampleStart as = true) :
    (system Nat Nat Nat Nat Nat).Run .initial (sampleTrace as) (sampleAt as) :=
  Lts.run_of_steps (fun _ _ _ hstep => hstep) h

end Sample

end DistSys.Labrpc
