import DistSys.Kvraft1.Requests
import DistSys.Kvraft1.ServerStep
import DistSys.Raft1.Incarnation

/- Every run of the whole service is, in its calls and returns, a run of the store over one agreed
   log.

   The relation (`Sim`) puts together what the layers have: the servers and their peers are in order
   (`Rsm.Deployed.Inv`), the peers are a safe Raft (`Rsm.Abstracts`), the store stands behind the
   servers (`Backs`), and the requests are where they should be (`Requests`). A step of the service
   is matched by at most one step of the store; what the peers have agreed on by it is then committed
   there (`settle`).

   The commands that leaders put into their logs are in the order of the calls of each client, since
   `Start` is called for the client's last one. So the agreed log is, and the store over it is
   linearizable. -/
namespace DistSys.Kvraft1

open Lib
open Rsm.Deployed (Codec indexService)

variable {n : Nat} {D : Type}

/-- The commands of a client are in the order of its calls. -/
def InCalls (x y : Option (Rsm.Op n Command)) : Prop :=
  ∀ op ∈ x, ∀ op' ∈ y, op.req.2.clientId = op'.req.2.clientId → op.req.2.call ≤ op'.req.2.call

structure Sim (codec : Codec (Option SnapshotData) D) (s : Service n D)
    (g : Raft1.Ghost n (Rsm.Op n Command) D) (c : Agreement n D) (b : State) : Prop where
  inv : Rsm.Deployed.Inv codec s.servers
  marked : Raft1.Marked s.servers.raft
  abstracts : Rsm.Abstracts (indexService (Rsm.Op n Command) codec) g s.servers.raft c
  ordered : g.core.Ordered InCalls
  backs : Backs codec c b s.servers.server
  requests : Requests s c
  front : SameFront s.front b

/-- The store can follow the service to `s`, with these calls and returns on the way. -/
def Simulated (codec : Codec (Option SnapshotData) D) (s : Service n D) (b : State)
    (events : List (Event (Int64 × Nat) Kvsrv1.Op Kvsrv1.Reply)) : Prop :=
  ∃ g c b', Reaches n b b' events ∧ Sim codec s g c b'

section Sim

variable {codec : Codec (Option SnapshotData) D} {s s' : Service n D}
  {g : Raft1.Ghost n (Rsm.Op n Command) D} {c c' : Agreement n D} {b b' : State}

theorem Simulated.after {es : List (Event (Int64 × Nat) Kvsrv1.Op Kvsrv1.Reply)}
    (h : Simulated codec s b' es) (hreach : Reaches n b b' []) : Simulated codec s b es := by
  obtain ⟨g, c, b'', hreach', hsim⟩ := h
  exact ⟨g, c, b'', hreach.trans hreach', hsim⟩

/-- The safe Raft has done its part of a step, and the store too: what the peers have agreed on is
committed. A command that was started by the step comes after those of the same client. -/
theorem settle (hinv : Rsm.Deployed.Inv codec s.servers) (hmarked : Raft1.Marked s.servers.raft)
    (hmatch : Rsm.Matches (indexService (Rsm.Op n Command) codec) g c s.servers.raft [])
    (hordered : g.core.Ordered InCalls)
    (hnew : ∀ x ∈ c.started, g.core.Put x.server (x.index - 1) x.term x.command ∨
      ∀ y ∈ c.started, InCalls y.command x.command)
    (hbacks : Backs codec c b s.servers.server) (hrequests : Requests s c)
    (hfront : SameFront s.front b) : Simulated codec s b [] := by
  obtain ⟨g', tr, c', hle, hrun, hseen, habs⟩ := hmatch
  have hrpcs : OfRpcs b.sent c := by
    rw [hfront.2.1]
    exact hrequests.rpcs
  obtain ⟨b', hreach, hbacks', hfront', hstarted⟩ := hbacks.follow hrpcs hrun hseen
  refine ⟨g', c', b', hreach, hinv, hmarked, habs, ?_, hbacks', ?_, ?_⟩
  · refine hordered.ext hle.1 habs.coupled.inv ?_
    intro k j T a hput hold k' i T' a' hlt hput'
    have hmem : ∀ {k : Fin n} {j T : Nat} {a : Option (Rsm.Op n Command)}, g'.core.Put k j T a →
        (⟨k, j + 1, T, a⟩ : Rsm.Started n (Option (Rsm.Op n Command))) ∈ c.started := by
      intro k j T a hput
      rw [← hstarted]
      exact (habs.started _).mpr ⟨Nat.succ_pos j, hput⟩
    rcases hnew _ (hmem hput) with hput | hafter
    · exact absurd hput hold
    · exact hafter _ (hmem hput')
  · exact hrequests.follow rfl rfl hstarted fun _ => Or.inl ⟨rfl, .of_calls rfl⟩
  · exact ⟨hfront'.1.trans hfront.1, hfront'.2.1.trans hfront.2.1, hfront'.2.2.trans hfront.2.2⟩

theorem Sim.old (h : Sim codec s g c b) {x : Rsm.Started n (Option (Rsm.Op n Command))}
    (hx : x ∈ c.started) : g.core.Put x.server (x.index - 1) x.term x.command :=
  ((h.abstracts.started x).mp hx).2

/-- The store is where the service is, and Raft was not called. -/
theorem Sim.still (h : Sim codec s g c b) (hinv : Rsm.Deployed.Inv codec s'.servers)
    (hraft : s'.servers.raft = s.servers.raft) (hbacks : Backs codec c b' s'.servers.server)
    (hrequests : Requests s' c) (hfront : SameFront s'.front b') : Sim codec s' g c b' where
  inv := hinv
  marked := by
    rw [hraft]
    exact h.marked
  abstracts := by
    rw [hraft]
    exact h.abstracts
  ordered := h.ordered
  backs := hbacks
  requests := hrequests
  front := hfront

/-- The RPCs of the servers are those of the store. -/
theorem Sim.rpcs (h : Sim codec s g c b) : OfRpcs b.sent c := by
  rw [h.front.2.1]
  exact h.requests.rpcs

/-! ## The clerks and the network -/

theorem Backs.sameBack {server : Fin n → Rsm.Deployed.Server n kvMachine D}
    (h : Backs codec c b server) (hback : SameBack b b') : Backs codec c b' server := by
  obtain ⟨hlog, hreplicas, hsnapshots, hresults⟩ := hback
  have hkept : ∀ x ∈ b.snapshots, x ∈ b'.snapshots := fun x hx => by rwa [hsnapshots]
  refine h.grow ⟨?_, h.agreed, fun i bytes hmem => (h.taken i bytes hmem).mono hkept, h.saved⟩ ?_
  · rw [hlog]
    exact h.log
  · intro j
    exact { Grows.refl j c b with
      replica := congrFun hreplicas j
      snapshots := hkept
      results := fun _ _ _ _ _ => congrFun hresults _ }

/-- A step of the clerks and the network. -/
theorem Sim.frontStep (h : Sim codec s g c b) {a : Action} (ha : a.isFront = true) {front : State}
    (hstep : s.front.step n a = some front) :
    Simulated codec (s.setFront front) b (event (s.front, a)).toList := by
  obtain ⟨b', hb', hfront, hback, hevent⟩ := step_front ha hstep h.front
  rw [← hevent]
  refine ⟨g, c, b', .step hb', h.still h.inv rfl (h.backs.sameBack hback) ?_ hfront⟩
  exact h.requests.setFront (sent_extends hstep)

/-- A handler calls `Submit`. -/
theorem Sim.submit (h : Sim codec s g c b) {attempt : Nat} {req : Request} {r : Fin n}
    {servers : Servers n D} (hsent : s.sent[attempt]? = some req) (hserver : req.server = r)
    (hnone : s.handlers attempt = none)
    (hact : s.servers.act codec (.call r (.submit (attempt, req))) = some servers) :
    Simulated codec { s with
      servers := servers
      handlers := Function.update s.handlers attempt
        (some ((s.servers.raft.proc r).incarnation, (s.servers.server r).rsm.calls.length)) } b [] := by
  have hinv := h.inv.act hact
  obtain ⟨rsm, hrsm, rfl⟩ := Rsm.Deployed.act_call hact
  have hview := Rsm.Deployed.view_callStep hrsm
  have hok := (h.backs.server r).ok.callStep hrsm
  obtain ⟨-, hrsm⟩ := Option.ite_none_right_eq_some.mp hrsm
  obtain rfl := Option.some.inj hrsm
  refine ⟨g, c, b, .refl n b, h.still hinv rfl ?_ (h.requests.submit hsent hserver hnone) h.front⟩
  exact h.backs.update h.backs.toLogged ((h.backs.server r).same_view hview hok)
    fun j _ => .refl j c b

/-- A call of `Submit` that returned OK has the result that the store computed for it. -/
theorem Sim.result (h : Sim codec s g c b) {place : Nat} {r : Fin n}
    {call : Rsm.Call n Command RaftReplyMsg}
    (hcall : (s.servers.server r).rsm.calls[place]? = some call) {v : Option RaftReplyMsg}
    (hanswer : call.answer = some (.ok, v)) :
    ∃ result, v = some result ∧ b.results call.req.1 = some result := by
  have hok := (h.backs.server r).ok.calls place call hcall
  obtain ⟨p, index, term, hown, hcomputed⟩ := hok.outcome v (hok.answer v hanswer)
  rw [← (hok.own p index term hown).2.1]
  exact hcomputed.result

/-- The handler returns what `Submit` returned. -/
theorem Sim.answer (h : Sim codec s g c b) {attempt place : Nat} {req : Request} {r : Fin n}
    (hsent : s.sent[attempt]? = some req) (hserver : req.server = r)
    (hhandler : s.handlers attempt = some ((s.servers.raft.proc r).incarnation, place))
    (hnone : s.replies attempt = none) {answer : Kvsrv1.Err × Option RaftReplyMsg}
    (hanswer : (s.servers.server r).rsm.calls[place]?.bind Rsm.Call.answer = some answer) :
    Simulated codec { s with
      replies := Function.update s.replies attempt
        (some (handlerReply req.op (Service.submitted answer))) } b [] := by
  obtain ⟨call, hcall, hanswer⟩ := Option.bind_eq_some_iff.mp hanswer
  -- the call that the handler waits for is its own
  obtain ⟨req', hreq', hplaced⟩ := h.requests.handlers attempt _ place hhandler
  rw [hsent] at hreq'
  obtain rfl := Option.some.inj hreq'
  obtain ⟨call', hcall', hattempt⟩ := (hplaced r hserver).2 rfl
  rw [hcall] at hcall'
  obtain rfl := Option.some.inj hcall'
  have hbsent : b.sent[attempt]? = some req := by
    rw [h.front.2.1]
    exact hsent
  have hbnone : b.replies attempt = none := by
    rw [h.front.2.2]
    exact hnone
  have hreplied : ∀ {a : Action} {submitted : Submitted}, Service.submitted answer = submitted →
      b.step n a = some (b.setReply attempt (handlerReply req.op submitted)) →
      event (b, a) = none → Simulated codec { s with
        replies := Function.update s.replies attempt
          (some (handlerReply req.op (Service.submitted answer))) } b [] := by
    rintro a submitted rfl hstep hevent
    refine ⟨g, c, _, .silent hstep hevent, h.still h.inv rfl (h.backs.sameBack ⟨rfl, rfl, rfl, rfl⟩) ?_ ?_⟩
    · exact h.requests.follow rfl rfl rfl fun _ => Or.inl ⟨rfl, .of_calls rfl⟩
    · refine ⟨h.front.1, h.front.2.1, ?_⟩
      simp only [State.setReply, h.front.2.2]
      rfl
  obtain ⟨err, v⟩ := answer
  rcases (h.requests.calls r place call hcall).plain.2 err v hanswer with rfl | rfl
  · obtain ⟨result, rfl, hresult⟩ := h.result hcall hanswer
    rw [hattempt] at hresult
    refine hreplied (a := .succeed attempt) rfl ?_ rfl
    simp only [State.step, hbsent, hresult, hbnone]
    rfl
  · refine hreplied (a := .refuse attempt) rfl ?_ rfl
    simp only [State.step, hbsent, hbnone]
    rfl

/-! ## Raft -/

/-- Raft is called, and no command was started. -/
theorem Sim.called (h : Sim codec s g c b) {raft : Raft1.Cluster n (Rsm.Op n Command) D}
    {server : Fin n → Rsm.Deployed.Server n kvMachine D}
    (hinv : Rsm.Deployed.Inv codec { s.servers with raft := raft, server := server })
    (hmarked : Raft1.Marked raft)
    (hmatch : Rsm.Matches (indexService (Rsm.Op n Command) codec) g c' raft [])
    (hstarted : c'.started = c.started) (hreach : Reaches n b b' []) (hfront : SameFront b b')
    (hbacks : Backs codec c' b' server)
    (hlives : ∀ r, Lives s { s with servers := { s.servers with raft := raft, server := server } } r) :
    Simulated codec { s with servers := { s.servers with raft := raft, server := server } } b [] := by
  have hrequests : Requests { s with servers := { s.servers with raft := raft, server := server } } c' :=
    h.requests.follow rfl rfl hstarted hlives
  refine Simulated.after (settle hinv hmarked hmatch h.ordered ?_ hbacks hrequests ?_) hreach
  · intro x hx
    rw [hstarted] at hx
    exact Or.inl (h.old hx)
  · exact ⟨hfront.1.trans h.front.1, hfront.2.1.trans h.front.2.1, hfront.2.2.trans h.front.2.2⟩

/-- Something happens inside Raft. -/
theorem Sim.silent (h : Sim codec s g c b) {e : Raft1.Event n (Rsm.Op n Command) D}
    {raft : Raft1.Cluster n (Rsm.Op n Command) D} (hraft : s.servers.raft.exec e = some raft)
    (hinv : Rsm.Deployed.Inv codec { s.servers with raft := raft })
    (hmatch : Rsm.Matches (indexService (Rsm.Op n Command) codec) g c raft []) :
    Simulated codec { s with servers := { s.servers with raft := raft } } b [] :=
  h.called hinv (h.marked.exec h.abstracts.coupled hraft) hmatch rfl (.refl n b) ⟨rfl, rfl, rfl⟩ h.backs
    fun r => Or.inl ⟨Raft1.exec_life hraft r, .of_calls rfl⟩

/-- The calls of a service in which the replica of one server goes on. -/
theorem lives_update {r : Fin n} {sv : Rsm.Deployed.Server n kvMachine D}
    {raft : Raft1.Cluster n (Rsm.Op n Command) D} {e : Raft1.Event n (Rsm.Op n Command) D}
    (hraft : s.servers.raft.exec e = some raft) (hfollows : (s.servers.server r).rsm.Follows sv.rsm)
    (j : Fin n) : Lives s { s with servers := { s.servers with
      raft := raft
      server := Function.update s.servers.server r sv } } j := by
  refine Or.inl ⟨Raft1.exec_life hraft j, ?_⟩
  refine (Function.forall_update_iff s.servers.server
    fun j sv => (s.servers.server j).rsm.Follows sv.rsm).mpr ⟨hfollows, fun j _ => ?_⟩ j
  exact .of_calls rfl

theorem Sim.receive (h : Sim codec s g c b) {r : Fin n}
    {raft : Raft1.Cluster n (Rsm.Op n Command) D} (hreading : (s.servers.server r).reading = true)
    (hraft : s.servers.raft.exec (.deliver r) = some raft)
    (hinv : Rsm.Deployed.Inv codec { s.servers with
      raft := raft
      server := s.servers.answer (.receive r) }) :
    Simulated codec { s with servers := { s.servers with
      raft := raft
      server := s.servers.answer (.receive r) } } b [] := by
  cases hm : (s.servers.raft.proc r).sending with
  | none => simp [Raft1.Cluster.exec, hm] at hraft
  | some msg =>
    obtain ⟨hstep, hmatch⟩ := h.abstracts.deliver hraft hm
    have hanswer : s.servers.answer (.receive r) = Function.update s.servers.server r
        { s.servers.server r with received := some msg } := by
      simp only [Rsm.Deployed.State.answer, Rsm.Deployed.State.answered, hm]
    rw [hanswer] at hinv ⊢
    refine h.called hinv (h.marked.exec h.abstracts.coupled hraft) hmatch rfl (.refl n b) ⟨rfl, rfl, rfl⟩ ?_
      (lives_update hraft (.of_calls rfl))
    exact h.backs.update (h.backs.toLogged.advance r _)
      ((h.backs.server r).receive hreading (h.marked r msg hm) hstep) fun j hj => .advance hj _

theorem Sim.snapshot (h : Sim codec s g c b) {r : Fin n} {args : Nat × D}
    {raft : Raft1.Cluster n (Rsm.Op n Command) D}
    (hargs : (s.servers.server r).encoded = some args)
    (hraft : s.servers.raft.exec (.snapshot r args.1 args.2) = some raft)
    (hallowed : Raft1.Produced (indexService (Rsm.Op n Command) codec) (s.servers.raft.proc r)
      args.1 args.2)
    (hinv : Rsm.Deployed.Inv codec { s.servers with
      raft := raft
      server := s.servers.answer (.snapshot r) }) :
    Simulated codec { s with servers := { s.servers with
      raft := raft
      server := s.servers.answer (.snapshot r) } } b [] := by
  refine h.called hinv (h.marked.exec h.abstracts.coupled hraft) (h.abstracts.snapshot hraft hallowed) ?_
    (.refl n b) ⟨rfl, rfl, rfl⟩ (h.backs.handOver hargs) (lives_update hraft (.of_calls rfl))
  unfold Rsm.SafeRaft.snapshot
  split
  · rfl
  · rfl

/-- A command that is started for the last call of its client comes after those before. -/
theorem Sim.last (h : Sim codec s g c b) (hcounted : Counted b) {op : Rsm.Op n Command}
    (hcurrent : op.req.2.call = (s.clerks op.req.2.clientId).calls)
    {y : Rsm.Started n (Option (Rsm.Op n Command))} (hy : y ∈ c.started) :
    InCalls y.command (some op) := by
  intro op₁ hop₁ op₂ hop₂ hclient
  obtain rfl := Option.some.inj hop₂
  obtain ⟨op', hop', hsent, -⟩ := h.rpcs.sent y hy
  obtain rfl : op' = op₁ := Option.some.inj (hop'.symm.trans hop₁)
  have hle := (hcounted.sent _ (List.mem_of_getElem? hsent)).2
  rw [hclient, show b.clerks = s.clerks from h.front.1] at hle
  rw [hcurrent]
  exact hle

/-- `Start` on the leader. -/
theorem Sim.started (h : Sim codec s g c b) (hcounted : Counted b) {r : Fin n} {place : Nat}
    {op : Rsm.Op n Command} {raft : Raft1.Cluster n (Rsm.Op n Command) D}
    {rsm : Rsm.RSM n kvMachine} {index term : Nat}
    (hstage : (s.servers.server r).rsm.stage place = some (.numbered op))
    (hcurrent : op.req.2.call = (s.clerks op.req.2.clientId).calls)
    (hstart : ((s.servers.raft.proc r).rf.start (some op)).2 = some (index, term))
    (hrsm : (s.servers.server r).rsm.doSubmitStarted place (some (index, term)) = some rsm)
    (hraft : s.servers.raft.exec (.start r (some op)) = some raft)
    (hinv : Rsm.Deployed.Inv codec { s.servers with
      raft := raft
      server := Function.update s.servers.server r { s.servers.server r with rsm := rsm } }) :
    Simulated codec { s with servers := { s.servers with
      raft := raft
      server := Function.update s.servers.server r { s.servers.server r with rsm := rsm } } } b [] := by
  obtain ⟨c₁, hc₁, hmatch⟩ := h.abstracts.start hraft hstart
  have hlogged := h.backs.toLogged.start hc₁
  obtain rfl := Rsm.SafeRaft.start_eq hc₁
  obtain ⟨hfollows, hgone⟩ := Rsm.RSM.Follows.doSubmitStarted hrsm
  obtain ⟨call, hcall, hnumbered⟩ := Option.map_eq_some_iff.mp hstage
  have hr := h.backs.server r
  have hreq := ((hr.ok.calls place call hcall).numbered op hnumbered).2
  have hheld := h.requests.calls r place call hcall
  have hnew : ∀ x ∈ c.started, ∀ op', x.command = some op' → op'.req.1 ≠ op.req.1 := by
    rw [hreq]
    exact hheld.early (by rw [hnumbered]; rfl)
  have hgrows : ∀ j, Grows j c { c with started := ⟨r, index, term, some op⟩ :: c.started } b b :=
    fun j => { Grows.refl j c b with started := fun _ hx => List.mem_cons_of_mem _ hx }
  refine settle hinv (h.marked.exec h.abstracts.coupled hraft) hmatch h.ordered ?_ ?_ ?_ h.front
  · refine List.forall_mem_cons.mpr ⟨Or.inr ?_, fun x hx => Or.inl (h.old hx)⟩
    refine List.forall_mem_cons.mpr ⟨?_, fun y hy => h.last hcounted hcurrent hy⟩
    intro op₁ hop₁ op₂ hop₂ _
    obtain rfl := Option.some.inj hop₁
    obtain rfl := Option.some.inj hop₂
    exact le_rfl
  · refine h.backs.update hlogged ?_ fun j _ => hgrows j
    refine (hr.mono (hgrows r)).same_view (Rsm.RSM.view_doSubmitStarted hrsm) ?_
    refine (hr.mono (hgrows r)).ok.doSubmitStarted ?_ hrsm
    intro op' index' term' hstage' heq
    rw [hstage] at hstage'
    obtain rfl : op = op' := by simpa using hstage'
    obtain ⟨rfl, rfl⟩ := Prod.mk.inj (Option.some.inj heq)
    exact List.mem_cons_self
  · have hkept : Requests { s with servers := { s.servers with
        raft := raft
        server := Function.update s.servers.server r { s.servers.server r with rsm := rsm } } } c :=
      h.requests.follow rfl rfl rfl (lives_update hraft hfollows)
    obtain ⟨call', hcall', hfollow⟩ := hfollows.kept hcall
    have hplaced : (Function.update s.servers.server r
        { s.servers.server r with rsm := rsm } r).rsm.calls[place]? = some call' := by
      simpa using hcall'
    refine hkept.started hplaced ?_ ?_ hnew
    · exact hgone _ (by rw [Rsm.RSM.stage, hcall']; rfl)
    · rw [hfollow.req, hreq]

/-- `Start` elsewhere. -/
theorem Sim.refused (h : Sim codec s g c b) {r : Fin n} {place : Nat}
    {op : Rsm.Op n Command} {raft : Raft1.Cluster n (Rsm.Op n Command) D}
    {rsm : Rsm.RSM n kvMachine} (hstart : ((s.servers.raft.proc r).rf.start (some op)).2 = none)
    (hrsm : (s.servers.server r).rsm.doSubmitStarted place none = some rsm)
    (hraft : s.servers.raft.exec (.start r (some op)) = some raft)
    (hinv : Rsm.Deployed.Inv codec { s.servers with
      raft := raft
      server := Function.update s.servers.server r { s.servers.server r with rsm := rsm } }) :
    Simulated codec { s with servers := { s.servers with
      raft := raft
      server := Function.update s.servers.server r { s.servers.server r with rsm := rsm } } } b [] := by
  have hr := h.backs.server r
  refine h.called hinv (h.marked.exec h.abstracts.coupled hraft) (h.abstracts.start_refused hraft hstart)
    rfl (.refl n b) ⟨rfl, rfl, rfl⟩ ?_ (lives_update hraft (Rsm.RSM.Follows.doSubmitStarted hrsm).1)
  refine h.backs.update h.backs.toLogged ?_ fun j _ => .refl j c b
  refine hr.same_view (Rsm.RSM.view_doSubmitStarted hrsm) (hr.ok.doSubmitStarted ?_ hrsm)
  intro _ _ _ _ heq
  contradiction

/-- A step of Raft, or a call of it by a server. -/
theorem Sim.raft (h : Sim codec s g c b) (hcounted : Counted b) {a : Rsm.Deployed.RaftStep n}
    {servers : Servers n D} (hact : s.servers.act codec (.raft a) = some servers)
    (hprompt : s.Prompt (.server (.raft a))) :
    Simulated codec { s with servers := servers } b [] := by
  have hinv := h.inv.act hact
  obtain ⟨e, he, hact⟩ := Option.bind_eq_some_iff.mp hact
  obtain ⟨raft, hraft, rfl⟩ := Option.map_eq_some_iff.mp hact
  obtain ⟨hallowed, -⟩ := h.inv.event he
  have hinside : s.servers.answer a = s.servers.server → e.isSnapshot = false →
      e.isDeliver = false → (∀ k i T x, ¬ s.servers.raft.Starts k i T x e) →
      Simulated codec { s with servers := { s.servers with
        raft := raft
        server := s.servers.answer a } } b [] := by
    intro hanswer hs hd hno
    rw [hanswer] at hinv ⊢
    exact h.silent hraft hinv (h.abstracts.silent hraft hallowed hs hd hno)
  cases a with
  | start r place =>
    simp only [Rsm.Deployed.State.event] at he
    split at he
    · rename_i op hstage
      obtain rfl := Option.some.inj he
      have hcurrent := hprompt (r, place) rfl op (by rw [hstage]; rfl)
      obtain ⟨rsm, hrsm⟩ : ∃ rsm, (s.servers.server r).rsm.doSubmitStarted place
          ((s.servers.raft.proc r).rf.start (some op)).2 = some rsm := by
        unfold Rsm.RSM.doSubmitStarted
        rw [hstage]
        cases ((s.servers.raft.proc r).rf.start (some op)).2 with
        | none => exact ⟨_, rfl⟩
        | some x => exact ⟨_, rfl⟩
      have hanswer : s.servers.answer (.start r place) = Function.update s.servers.server r
          { s.servers.server r with rsm := rsm } := by
        simp only [Rsm.Deployed.State.answer, Rsm.Deployed.State.answered, hstage, hrsm,
          Option.map_some]
      rw [hanswer] at hinv ⊢
      cases hstart : ((s.servers.raft.proc r).rf.start (some op)).2 with
      | none =>
        rw [hstart] at hrsm
        exact h.refused hstart hrsm hraft hinv
      | some x =>
        rw [hstart] at hrsm
        exact h.started hcounted hstage hcurrent hstart hrsm hraft hinv
    · contradiction
  | receive r =>
    obtain ⟨hreading, he⟩ := Option.ite_none_right_eq_some.mp he
    obtain rfl := Option.some.inj he
    exact h.receive hreading hraft hinv
  | snapshot r =>
    obtain ⟨args, hargs, rfl⟩ := Option.map_eq_some_iff.mp he
    exact h.snapshot hargs hraft hallowed hinv
  | electionTimeout me =>
    obtain rfl := Option.some.inj he
    exact hinside rfl rfl rfl fun _ _ _ _ hs => hs
  | send me peer =>
    obtain rfl := Option.some.inj he
    exact hinside rfl rfl rfl fun _ _ _ _ hs => hs
  | handle k =>
    obtain rfl := Option.some.inj he
    exact hinside rfl rfl rfl fun _ _ _ _ hs => hs
  | lose k =>
    obtain rfl := Option.some.inj he
    exact hinside rfl rfl rfl fun _ _ _ _ hs => hs
  | applier me =>
    obtain rfl := Option.some.inj he
    exact hinside rfl rfl rfl fun _ _ _ _ hs => hs

/-! ## Crashes -/

/-- A server starts again on what its peer has saved. -/
theorem Sim.reboot (h : Sim codec s g c b) {r : Fin n} {ps : Raft1.Persister n (Rsm.Op n Command) D}
    {net : List (Raft1.Rpc n (Rsm.Op n Command) D)}
    (hinv : Rsm.Deployed.Inv codec (s.servers.reboot r (s.servers.raft.restart r ps net)))
    (hmatch : Rsm.Matches (indexService (Rsm.Op n Command) codec) g (c.restart r)
      (s.servers.raft.restart r ps net) []) :
    Simulated codec { s with servers := s.servers.reboot r (s.servers.raft.restart r ps net) } b [] := by
  have hstep : b.step n (.restart r) = some (b.setReplica r ⟨.empty, 0⟩) := rfl
  refine h.called hinv (h.marked.restart r ps net) hmatch rfl (.silent hstep rfl) ⟨rfl, rfl, rfl⟩
    (h.backs.boot r _) fun j => ?_
  by_cases hj : j = r
  · subst hj
    refine Or.inr ⟨?_, ?_⟩
    · rw [Rsm.restart_self]
      exact Nat.lt_succ_self _
    · simp only [Function.update_self]
      rfl
  · refine Or.inl ⟨?_, ?_⟩
    · rw [show (s.servers.raft.restart r ps net).proc j = s.servers.raft.proc j from
        Function.update_of_ne hj _ _]
    · simp only [Function.update_of_ne hj]
      exact .of_calls rfl

theorem Sim.crash (h : Sim codec s g c b) {r : Fin n} {servers : Servers n D}
    (hact : s.servers.act codec (.crash r) = some servers) :
    Simulated codec { s with servers := servers } b [] := by
  have hinv := h.inv.act hact
  simp only [Rsm.Deployed.State.act, Option.map_eq_some_iff] at hact
  obtain ⟨raft, hraft, rfl⟩ := hact
  obtain rfl := Option.some.inj hraft
  exact h.reboot hinv (h.abstracts.crash (List.Sublist.refl _))

/-- A server that takes in the answer of Raft is the one that the event is at. -/
theorem answered_actor {a : Rsm.Deployed.RaftStep n} {e : Raft1.Event n (Rsm.Op n Command) D}
    {servers : Servers n D} (he : servers.event a = some e) {r : Fin n}
    {sv : Rsm.Deployed.Server n kvMachine D} (ha : servers.answered a = some (r, sv)) :
    servers.raft.actor e = some r ∧ sv.rsm.maxraftstate = (servers.server r).rsm.maxraftstate := by
  cases a with
  | start r' place =>
    simp only [Rsm.Deployed.State.event] at he
    simp only [Rsm.Deployed.State.answered] at ha
    split at he
    · rename_i op hstage
      obtain rfl := Option.some.inj he
      rw [hstage] at ha
      obtain ⟨rsm, hrsm, heq⟩ := Option.map_eq_some_iff.mp ha
      obtain ⟨rfl, rfl⟩ := Prod.mk.inj heq
      exact ⟨rfl, congrArg Rsm.View.maxraftstate (Rsm.RSM.view_doSubmitStarted hrsm)⟩
    · contradiction
  | receive r' =>
    obtain ⟨-, he⟩ := Option.ite_none_right_eq_some.mp he
    obtain rfl := Option.some.inj he
    obtain ⟨rfl, rfl⟩ := Prod.mk.inj (Option.some.inj ha)
    exact ⟨rfl, rfl⟩
  | snapshot r' =>
    obtain ⟨args, -, rfl⟩ := Option.map_eq_some_iff.mp he
    obtain ⟨rfl, rfl⟩ := Prod.mk.inj (Option.some.inj ha)
    exact ⟨rfl, rfl⟩
  | _ => contradiction

/-- What server `r` has got from a call of Raft is gone when it starts again. -/
theorem reboot_answer {a : Rsm.Deployed.RaftStep n} {e : Raft1.Event n (Rsm.Op n Command) D}
    {servers : Servers n D} (he : servers.event a = some e) {r : Fin n}
    (hactor : servers.raft.actor e = some r) (u raft : Raft1.Cluster n (Rsm.Op n Command) D) :
    Rsm.Deployed.State.reboot { servers with raft := u, server := servers.answer a } r raft =
      servers.reboot r raft := by
  cases ha : servers.answered a with
  | none =>
    have hanswer : servers.answer a = servers.server := by rw [Rsm.Deployed.State.answer, ha]
    rw [hanswer]
    rfl
  | some x =>
    obtain ⟨r', sv⟩ := x
    obtain ⟨hat, hlimit⟩ := answered_actor he ha
    obtain rfl := Option.some.inj (hat.symm.trans hactor)
    have hanswer : servers.answer a = Function.update servers.server r' sv := by
      rw [Rsm.Deployed.State.answer, ha]
    simp only [Rsm.Deployed.State.reboot, Rsm.Deployed.State.setServer, hanswer,
      Function.update_self, Function.update_idem, hlimit]

/-- A crash inside a step of Raft: the step is lost, or it was made before the crash. -/
theorem Sim.crashIn (h : Sim codec s g c b) (hcounted : Counted b) {r : Fin n} {k : Nat}
    {a : Rsm.Deployed.RaftStep n} {servers : Servers n D}
    (hact : s.servers.act codec (.crashIn r a k) = some servers)
    (hprompt : s.Prompt (.server (.crashIn r a k))) :
    Simulated codec { s with servers := servers } b [] := by
  have hinv := h.inv.act hact
  obtain ⟨e, he, hact⟩ := Option.bind_eq_some_iff.mp hact
  obtain ⟨raft, hraft, rfl⟩ := Option.map_eq_some_iff.mp hact
  obtain ⟨hallowed, -⟩ := h.inv.event he
  rcases h.abstracts.crashIn hraft hallowed with ⟨⟨hmatch, -⟩, -⟩ | ⟨⟨u, hu, hactor, -, rfl⟩, -⟩
  · obtain ⟨ps, net, rfl⟩ : ∃ ps net, raft = s.servers.raft.restart r ps net := by
      simp only [Raft1.Cluster.step] at hraft
      split at hraft
      · contradiction
      · obtain ⟨-, hraft⟩ := Option.ite_none_right_eq_some.mp hraft
        exact ⟨_, _, (Option.some.inj hraft).symm⟩
    exact h.reboot hinv hmatch
  · have hdone : s.servers.act codec (.raft a) =
        some { s.servers with raft := u, server := s.servers.answer a } := by
      simp only [Rsm.Deployed.State.act, he, Option.bind_some, hu, Option.map_some]
    have hprompt' : s.Prompt (.server (.raft a)) := by
      cases a with
      | start r' place => exact hprompt
      | _ => exact fun _ hx => by contradiction
    obtain ⟨g', c', b', hreach, hsim⟩ := h.raft hcounted hdone hprompt'
    rw [← reboot_answer he hactor u] at hinv ⊢
    exact Simulated.after (hsim.reboot hinv (hsim.abstracts.crash (Rsm.taken_sublist_exec hu))) hreach

/-! ## The servers -/

/-- One server goes on by itself. -/
theorem Sim.setServer (h : Sim codec s g c b) {r : Fin n} {sv : Rsm.Deployed.Server n kvMachine D}
    (hinv : Rsm.Deployed.Inv codec (s.servers.setServer r sv))
    (hfollows : (s.servers.server r).rsm.Follows sv.rsm) (hreach : Reaches n b b' [])
    (hfront : SameFront b b') (hbacks : Backs codec c b' (Function.update s.servers.server r sv)) :
    Simulated codec { s with servers := s.servers.setServer r sv } b [] := by
  refine ⟨g, c, b', hreach, h.still hinv rfl hbacks (h.requests.setServer hfollows) ?_⟩
  exact ⟨hfront.1.trans h.front.1, hfront.2.1.trans h.front.2.1, hfront.2.2.trans h.front.2.2⟩

theorem Sim.callStep (h : Sim codec s g c b) {r : Fin n} {a : Rsm.Deployed.CallStep Command}
    {servers : Servers n D} (hact : s.servers.act codec (.call r a) = some servers)
    (hsubmit : ∀ req, a ≠ .submit req) : Simulated codec { s with servers := servers } b [] := by
  have hinv := h.inv.act hact
  obtain ⟨rsm, hrsm, rfl⟩ := Rsm.Deployed.act_call hact
  have hr := h.backs.server r
  refine h.setServer hinv (Rsm.RSM.Follows.callStep hrsm hsubmit) (.refl n b) ⟨rfl, rfl, rfl⟩ ?_
  exact h.backs.update h.backs.toLogged
    (hr.same_view (Rsm.Deployed.view_callStep hrsm) (hr.ok.callStep hrsm)) fun j _ => .refl j c b

theorem Sim.handleMsg (h : Sim codec s g c b) {r : Fin n} {large : Bool} {servers : Servers n D}
    (hact : s.servers.act codec (.handleMsg r large) = some servers)
    (hrec : s.Recognized (.server (.handleMsg r large))) :
    Simulated codec { s with servers := servers } b [] := by
  have hinv := h.inv.act hact
  simp only [Rsm.Deployed.State.act] at hact
  split at hact
  · contradiction
  · rename_i msg hmsg
    split at hact
    · obtain rfl := Option.some.inj hact
      refine h.setServer hinv (.of_calls rfl) (.refl n b) ⟨rfl, rfl, rfl⟩ ?_
      exact h.backs.update h.backs.toLogged (h.backs.server r).dropped fun j _ => .refl j c b
    · obtain ⟨rsm, hreader, -⟩ := (h.inv.server r).reader hmsg large
      rw [hreader] at hact
      obtain rfl := Option.some.inj hact
      obtain ⟨b', hreach, hfront, hbacks⟩ := h.backs.reader h.rpcs hmsg (hrec r rfl msg hmsg) hreader
      exact h.setServer hinv (Rsm.RSM.Follows.reader hreader) hreach hfront hbacks

theorem Sim.createSnapshot (h : Sim codec s g c b) {r : Fin n} {servers : Servers n D}
    (hact : s.servers.act codec (.createSnapshot r) = some servers)
    (hdone : (KVServer.snapshot 11 (s.servers.server r).rsm.sm).isSome) :
    Simulated codec { s with servers := servers } b [] := by
  have hinv := h.inv.act hact
  simp only [Rsm.Deployed.State.act] at hact
  split at hact
  · contradiction
  · rename_i index hindex
    obtain rfl := Option.some.inj hact
    obtain ⟨b', hreach, hfront, hbacks⟩ := h.backs.createSnapshot index hdone
    exact h.setServer hinv (.of_calls rfl) hreach hfront hbacks

theorem Sim.snapshotKilled (h : Sim codec s g c b) {r : Fin n} {servers : Servers n D}
    (hact : s.servers.act codec (.snapshotKilled r) = some servers) :
    Simulated codec { s with servers := servers } b [] := by
  have hinv := h.inv.act hact
  obtain ⟨-, hact⟩ := Option.ite_none_right_eq_some.mp hact
  obtain rfl := Option.some.inj hact
  refine h.setServer hinv (.of_calls rfl) (.refl n b) ⟨rfl, rfl, rfl⟩ ?_
  exact h.backs.update h.backs.toLogged (h.backs.server r).handedOver fun j _ => .refl j c b

theorem Sim.readSnapshot (h : Sim codec s g c b) {r : Fin n} {servers : Servers n D}
    (hact : s.servers.act codec (.readSnapshot r) = some servers) :
    Simulated codec { s with servers := servers } b [] := by
  have hinv := h.inv.act hact
  have hok := h.inv.server r
  simp only [Rsm.Deployed.State.act] at hact
  obtain ⟨hmade, hact⟩ := Option.ite_none_left_eq_some.mp hact
  obtain rfl := Option.some.inj hact
  have hmade : (s.servers.server r).rsm.made = false := by simpa using hmade
  have hnone : (s.servers.server r).received = none := by
    refine Option.eq_none_iff_forall_ne_some.mpr fun msg hmsg => ?_
    exact absurd ((hok.received msg hmsg).1.symm.trans hmade) (by simp)
  have hsaved : (s.servers.raft.proc r).rf.persister.readSnapshot = (c.saved r).map Prod.snd := by
    rw [h.abstracts.saved r, Rsm.savedBy, Option.map_map]
    exact Option.map_id'.symm
  obtain ⟨g', hg'⟩ := h.inv.raft
  obtain ⟨rsm, hread, -, -, -⟩ := hok.readSnapshot hmade (hg'.snapFor r)
  rw [hread] at hinv ⊢
  rw [hsaved] at hread
  obtain ⟨b', hreach, hfront, hbacks⟩ :=
    h.backs.readSnapshot hmade (hok.fresh hmade).1 hnone hok.limit.le hread
  exact h.setServer hinv (Rsm.RSM.Follows.makes hread) hreach hfront hbacks

end Sim

end DistSys.Kvraft1
