import DistSys.Kvraft1.Refinement

/- The whole service is linearizable: clerks, handlers, rsm and raft1 together, over a network that
   loses and delays, with servers that crash between any two saves and start again.

   Every step of the service is followed by the store over one agreed log (`Sim.step`), so every run
   has the calls and returns of a run there (`service_refines`). The log of that run is in the order
   of the calls of each client, and the numbers of fewer than 2^63 calls do not wrap around. -/
namespace DistSys.Kvraft1

open Lib
open Rsm.Deployed (Codec)

variable {n : Nat} {D : Type} {codec : Codec (Option SnapshotData) D} {s t : Service n D}
  {g : Raft1.Ghost n (Rsm.Op n Command) D} {c : Agreement n D} {b : State}

theorem target_eq {req : Request} {r : Fin n} (h : Service.target n req = some r) : req.server = r := by
  unfold Service.target at h
  split at h
  · exact congrArg Fin.val (Option.some.inj h)
  · contradiction

/-- A step of the servers. -/
theorem Sim.serverStep (h : Sim codec s g c b) (hcounted : Counted b)
    {a : Rsm.Deployed.Action n Command} {servers : Servers n D}
    (hact : s.servers.act codec a = some servers) (halone : Service.runsAlone s.servers a = true)
    (hrec : s.Recognized (.server a)) (hprompt : s.Prompt (.server a)) :
    Simulated codec { s with servers := servers } b [] := by
  cases a with
  | raft a => exact h.raft hcounted hact hprompt
  | call r a =>
    refine h.callStep hact ?_
    rintro req rfl
    contradiction
  | handleMsg r large => exact h.handleMsg hact hrec
  | createSnapshot r => exact h.createSnapshot hact halone
  | snapshotKilled r => exact h.snapshotKilled hact
  | crash r => exact h.crash hact
  | crashIn r a k => exact h.crashIn hcounted hact hprompt
  | readSnapshot r => exact h.readSnapshot hact

/-- Every step of the service. -/
theorem Sim.step (h : Sim codec s g c b) (hcounted : Counted b) {a : Service.Action n}
    (hstep : s.step codec a = some t) (hrec : s.Recognized a) (hprompt : s.Prompt a) :
    Simulated codec t b (Service.event (s, a)).toList := by
  cases a with
  | call clientId op =>
    obtain ⟨front, hfront, rfl⟩ := Option.map_eq_some_iff.mp hstep
    exact h.frontStep rfl hfront
  | deliver clientId =>
    obtain ⟨front, hfront, rfl⟩ := Option.map_eq_some_iff.mp hstep
    exact h.frontStep rfl hfront
  | fail clientId =>
    obtain ⟨front, hfront, rfl⟩ := Option.map_eq_some_iff.mp hstep
    exact h.frontStep rfl hfront
  | refuse attempt =>
    obtain ⟨-, hstep⟩ := Option.ite_none_right_eq_some.mp hstep
    obtain ⟨front, hfront, rfl⟩ := Option.map_eq_some_iff.mp hstep
    exact h.frontStep rfl hfront
  | submit attempt =>
    simp only [Service.step] at hstep
    split at hstep
    · rename_i req hsent hnone hreply
      obtain ⟨r, hr, hstep⟩ := Option.bind_eq_some_iff.mp hstep
      obtain ⟨servers, hservers, rfl⟩ := Option.map_eq_some_iff.mp hstep
      obtain ⟨-, hact⟩ := Option.ite_none_left_eq_some.mp hservers
      exact h.submit hsent (target_eq hr) hnone hact
    · contradiction
  | answer attempt =>
    simp only [Service.step] at hstep
    split at hstep
    · rename_i req life place hsent hhandler hnone
      obtain ⟨r, hr, hstep⟩ := Option.bind_eq_some_iff.mp hstep
      obtain ⟨hlife, hstep⟩ := Option.ite_none_right_eq_some.mp hstep
      obtain ⟨answer, hanswer, rfl⟩ := Option.map_eq_some_iff.mp hstep
      rw [← hlife] at hhandler
      exact h.answer hsent (target_eq hr) hhandler hnone hanswer
    · contradiction
  | server a =>
    obtain ⟨halone, hstep⟩ := Option.ite_none_right_eq_some.mp hstep
    obtain ⟨servers, hservers, rfl⟩ := Option.map_eq_some_iff.mp hstep
    obtain ⟨-, hact⟩ := Option.ite_none_left_eq_some.mp hservers
    exact h.serverStep hcounted hact halone hrec hprompt

theorem Sim.initial {maxraftstate : Fin n → Int} (hlimit : ∀ r, 0 < maxraftstate r) :
    Sim codec (.initial n D maxraftstate) (Raft1.Ghost.initial n (Rsm.Op n Command) D fun _ _ => False)
      (Rsm.SafeRaft.initial n (Option (Rsm.Op n Command)) D) .initial where
  inv := .initial hlimit
  marked := fun _ _ hmsg => by contradiction
  abstracts := Rsm.abstracts_initial
  ordered := fun T => by
    simp [Raft1.Ghost.initial, Repl.initial]
  backs := by
    refine ⟨⟨rfl, fun i e he => ?_, fun i bytes hmem => by contradiction, fun r x hx => by contradiction⟩,
      fun r => ⟨rfl, .newRSM r _, fun _ => le_rfl, fun hmade => by contradiction,
        fun _ _ hmsg => by contradiction, fun _ hmsg => by contradiction,
        fun _ hargs => by contradiction⟩⟩
    simp [Rsm.SafeRaft.initial] at he
  requests := by
    refine ⟨⟨fun x hx => by contradiction, fun x hx => by contradiction⟩,
      fun x hx => by contradiction, fun r place call hcall => ?_, fun a life place hh => by contradiction⟩
    simp [Service.initial, Rsm.Deployed.State.initial, Rsm.Deployed.Server.boot, Rsm.RSM.newRSM] at hcall
  front := ⟨rfl, rfl, rfl⟩

/-- The calls and returns of a run of the service are those of a run of the store. -/
theorem service_refines {maxraftstate : Fin n → Int} (hlimit : ∀ r, 0 < maxraftstate r)
    {tr : List (Service n D × Service.Action n)}
    (h : (service n codec maxraftstate).Run (.initial n D maxraftstate) tr s)
    (hrec : ∀ x ∈ tr, x.1.Recognized x.2) (hprompt : ∀ x ∈ tr, x.1.Prompt x.2) :
    Simulated codec s .initial (Service.history tr) := by
  induction h with
  | nil => exact ⟨_, _, _, .refl n _, .initial hlimit⟩
  | @snoc tr u w a hrun hstep ih =>
    obtain ⟨g, c, b, hreach, hsim⟩ := ih (fun x hx => hrec x (List.mem_append_left _ hx))
      fun x hx => hprompt x (List.mem_append_left _ hx)
    have hcounted : Counted b := by
      obtain ⟨ctr, hctr, -⟩ := hreach
      exact .run hctr
    have hlast : (u, a) ∈ tr ++ [(u, a)] := List.mem_append_right _ (List.mem_singleton_self _)
    obtain ⟨g', c', b', hreach', hsim'⟩ :=
      hsim.step hcounted hstep (hrec _ hlast) (hprompt _ hlast)
    have hhistory : Service.history (tr ++ [(u, a)]) =
        Service.history tr ++ (Service.event (u, a)).toList := by
      rw [Service.history, List.filterMap_append]
      cases he : Service.event (u, a) with
      | none => simp [Service.history, he]
      | some e => simp [Service.history, he]
    rw [hhistory]
    exact ⟨g', c', b', hreach.trans hreach', hsim'⟩

/-- The calls of a client are in order in the log. -/
theorem Sim.log_inCalls (h : Sim codec s g c b) :
    b.log.Pairwise fun x y => x.2.clientId = y.2.clientId → x.2.call ≤ y.2.call := by
  obtain ⟨p, hagreed, hp⟩ := h.abstracts.agreed
  have hlog : b.log.map some = p.map fun entry => entry.cmd.map Rsm.Op.req := by
    rw [h.backs.log, hp, List.map_map]
    rfl
  have hcalls : (p.map fun entry => entry.cmd.map Rsm.Op.req).Pairwise fun x y : Option Command =>
      ∀ req ∈ x, ∀ req' ∈ y, req.2.clientId = req'.2.clientId → req.2.call ≤ req'.2.call := by
    refine List.pairwise_map.mpr ((hagreed.ordered h.ordered).imp ?_)
    intro x y hxy req hreq req' hreq'
    obtain ⟨op, hop, rfl⟩ := Option.map_eq_some_iff.mp hreq
    obtain ⟨op', hop', rfl⟩ := Option.map_eq_some_iff.mp hreq'
    exact hxy op hop op' hop'
  rw [← hlog] at hcalls
  exact (List.pairwise_map.mp hcalls).imp fun hxy => hxy _ rfl _ rfl

/-- The log that the servers agree on is in order, as long as no client makes 2^63 calls. -/
theorem Sim.inOrder (h : Sim codec s g c b) (hcounted : Counted b)
    (hfew : ∀ clientId, (s.clerks clientId).calls < 2 ^ 63) : InOrder b.log := by
  have hsent : ∀ entry ∈ b.log, entry.2.seqNum = Int64.ofNat entry.2.call ∧
      entry.2.call < 2 ^ 63 := by
    intro entry hentry
    obtain ⟨i, hi⟩ := List.mem_iff_getElem?.mp hentry
    obtain ⟨term, op, hat, rfl⟩ := h.backs.agreed_at hi
    obtain ⟨x, hx, -, -, hop⟩ := h.backs.agreed i _ hat
    obtain ⟨op', hop', hreq, -⟩ := h.rpcs.sent x hx
    obtain rfl : op' = op := Option.some.inj (hop'.symm.trans hop)
    obtain ⟨hseq, hle⟩ := hcounted.sent _ (List.mem_of_getElem? hreq)
    rw [show b.clerks = s.clerks from h.front.1] at hle
    exact ⟨hseq, hle.trans_lt (hfew _)⟩
  refine h.log_inCalls.imp_of_mem ?_
  intro x y hx hy hxy hclient
  obtain ⟨hxseq, hxlt⟩ := hsent x hx
  obtain ⟨hyseq, hylt⟩ := hsent y hy
  rw [hxseq, hyseq, Int64.le_iff_toInt_le, toInt_ofNat hxlt, toInt_ofNat hylt]
  exact Int.ofNat_le.mpr (hxy hclient)

/-- The whole service is linearizable with respect to the model of kvtest1. -/
theorem service_linearizable {maxraftstate : Fin n → Int} (hlimit : ∀ r, 0 < maxraftstate r)
    {tr : List (Service n D × Service.Action n)}
    (h : (service n codec maxraftstate).Run (.initial n D maxraftstate) tr s)
    (hrec : ∀ x ∈ tr, x.1.Recognized x.2) (hprompt : ∀ x ∈ tr, x.1.Prompt x.2)
    (hfew : ∀ clientId, (s.clerks clientId).calls < 2 ^ 63) :
    Linearizable (Service.history tr) Kvtest1.Legal := by
  obtain ⟨g, c, b, ⟨ctr, hrun, hhistory⟩, hsim⟩ := service_refines hlimit h hrec hprompt
  rw [← hhistory]
  exact kvraft_linearizable hrun (hsim.inOrder (.run hrun) hfew)

/-! ## A run of three servers

A client stores a value through server `r`, which takes a snapshot of it and crashes. The server
starts again from that snapshot, is elected once more, and the client reads the value. -/

section Sample

theorem step_calls_succ {u v : State} {a : Action} (hstep : u.step n a = some v) (clientId : Int64) :
    (v.clerks clientId).calls ≤ (u.clerks clientId).calls + 1 := by
  rcases step_clerks hstep with ⟨hclerks, -⟩ | ⟨d, call, rfl⟩ | ⟨d, clerk, call, rfl, hsends⟩
  · rw [hclerks]
    exact Nat.le_succ _
  · by_cases hd : clientId = d
    · subst hd
      simp [State.finish, State.setClerk]
    · simp [State.finish, State.setClerk, hd]
  · by_cases hd : clientId = d
    · subst hd
      simp only [State.send, State.setClerk, Function.update_self]
      rcases hsends with ⟨hcalls, -⟩ | ⟨rfl, -⟩
      · exact hcalls.le
      · exact Nat.le_succ _
    · simp [State.send, State.setClerk, hd]

/-- A client makes at most one call in a step. -/
theorem Service.step_calls_succ {a : Service.Action n} (hstep : s.step codec a = some t)
    (clientId : Int64) : (t.clerks clientId).calls ≤ (s.clerks clientId).calls + 1 := by
  have hfront : ∀ {x : Kvraft1.Action} {front : State}, s.front.step n x = some front →
      ((s.setFront front).clerks clientId).calls ≤ (s.clerks clientId).calls + 1 :=
    fun hstep => Kvraft1.step_calls_succ hstep clientId
  cases a with
  | call _ _ =>
    obtain ⟨front, hclerks, rfl⟩ := Option.map_eq_some_iff.mp hstep
    exact hfront hclerks
  | deliver _ =>
    obtain ⟨front, hclerks, rfl⟩ := Option.map_eq_some_iff.mp hstep
    exact hfront hclerks
  | fail _ =>
    obtain ⟨front, hclerks, rfl⟩ := Option.map_eq_some_iff.mp hstep
    exact hfront hclerks
  | refuse _ =>
    obtain ⟨-, hstep⟩ := Option.ite_none_right_eq_some.mp hstep
    obtain ⟨front, hclerks, rfl⟩ := Option.map_eq_some_iff.mp hstep
    exact hfront hclerks
  | submit _ =>
    simp only [Service.step] at hstep
    split at hstep
    · obtain ⟨r, -, hstep⟩ := Option.bind_eq_some_iff.mp hstep
      obtain ⟨servers, -, rfl⟩ := Option.map_eq_some_iff.mp hstep
      exact Nat.le_succ _
    · contradiction
  | answer _ =>
    simp only [Service.step] at hstep
    split at hstep
    · obtain ⟨r, -, hstep⟩ := Option.bind_eq_some_iff.mp hstep
      obtain ⟨-, hstep⟩ := Option.ite_none_right_eq_some.mp hstep
      obtain ⟨answer, -, rfl⟩ := Option.map_eq_some_iff.mp hstep
      exact Nat.le_succ _
    · contradiction
  | server _ =>
    obtain ⟨-, hstep⟩ := Option.ite_none_right_eq_some.mp hstep
    obtain ⟨servers, -, rfl⟩ := Option.map_eq_some_iff.mp hstep
    exact Nat.le_succ _

theorem Service.calls_le {maxraftstate : Fin n → Int} {tr : List (Service n D × Service.Action n)}
    (h : (service n codec maxraftstate).Run (.initial n D maxraftstate) tr s) (clientId : Int64) :
    (s.clerks clientId).calls ≤ tr.length := by
  induction h with
  | nil => exact Nat.zero_le _
  | snoc _ hstep ih =>
    rw [List.length_append, List.length_singleton]
    exact (Service.step_calls_succ hstep clientId).trans (Nat.succ_le_succ ih)

def plainCodec : Codec (Option SnapshotData) (Rsm.Blob (Option SnapshotData)) where
  encode := id
  decode := some
  decode_encode := fun _ => rfl

def serviceStart : Service 3 (Rsm.Blob (Option SnapshotData)) := .initial 3 _ fun _ => 1000

/-- Server `r` makes its RSM and is elected. -/
def elected (r : Fin 3) : List (Service.Action 3) :=
  [.server (.readSnapshot r), .server (.raft (.electionTimeout r)), .server (.raft (.handle 0)),
    .server (.raft (.handle 0))]

/-- Server `r` executes the command of its first call, with server `r'`, and takes a snapshot. -/
def executed (r r' : Fin 3) (attempt : Nat) : List (Service.Action 3) :=
  [.submit attempt, .server (.call r (.number 0)), .server (.raft (.start r 0)),
    .server (.call r (.register 0)), .server (.raft (.send r r')), .server (.raft (.handle 0)),
    .server (.raft (.handle 0)), .server (.raft (.applier r)), .server (.raft (.receive r)),
    .server (.handleMsg r true), .server (.createSnapshot r), .server (.raft (.snapshot r)),
    .server (.call r (.waitDone 0)), .server (.call r (.remove 0)), .server (.call r (.submitDone 0)),
    .answer attempt]

def restarted (r r' : Fin 3) : List (Service.Action 3) :=
  elected r ++ [.call 7 (.put "k" "v" 0)] ++ executed r r' 0 ++ [.deliver 7, .server (.crash r)] ++
    elected r ++ [.call 7 (.get "k")] ++ executed r r' 1 ++ [.deliver 7]

def restartedTrace (r r' : Fin 3) :
    List (Service 3 (Rsm.Blob (Option SnapshotData)) × Service.Action 3) :=
  traceOf (Service.step plainCodec) serviceStart (restarted r r')

set_option maxRecDepth 4000 in
theorem service_linearizable_restarted :
    Service.history (restartedTrace 0 1) = [.call (7, 1) (.put "k" "v" 0), .ret (7, 1) (.put ⟨.ok⟩),
        .call (7, 2) (.get "k"), .ret (7, 2) (.get ⟨"v", 1, .ok⟩)] ∧
      Linearizable (Service.history (restartedTrace 0 1)) Kvtest1.Legal := by
  have hrun : (service 3 plainCodec fun _ => 1000).Run (.initial 3 _ fun _ => 1000)
      (restartedTrace 0 1) (after (Service.step plainCodec) serviceStart (restarted 0 1)) :=
    Lts.run_of_steps (fun _ _ _ h => h) (by decide)
  refine ⟨by decide, service_linearizable (fun _ => by decide) hrun (by decide) (by decide) ?_⟩
  intro clientId
  exact (Service.calls_le hrun clientId).trans_lt (by decide)

end Sample

end DistSys.Kvraft1
