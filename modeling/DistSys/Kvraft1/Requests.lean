import DistSys.Kvraft1.Backing

/- From the clerks to `Start`.

   The clerks and the network do the same whatever is behind them (`step_front`), and the numbers in
   their RPCs count the calls (`Counted`). An RPC reaches one handler, the handler makes one call of
   `Submit`, and that call goes to `Start` once: so a command that was started is of one RPC, and no
   other one is (`Requests`). -/
namespace DistSys.Kvraft1

open Lib

variable {n : Nat} {D : Type}

/-! ## The clerks and the network -/

/-- The steps of the clerks and the network, whatever the servers do. -/
def Action.isFront : Action → Bool
  | .call _ _ => true
  | .refuse _ => true
  | .deliver _ => true
  | .fail _ => true
  | _ => false

/-- What is behind the network is the same. -/
def SameBack (b b' : State) : Prop :=
  b'.log = b.log ∧ b'.replicas = b.replicas ∧ b'.snapshots = b.snapshots ∧ b'.results = b.results

/-- The clerks and the network go on alike in two states that agree on them. -/
theorem step_front {f f' b : State} {a : Action} (ha : a.isFront = true)
    (h : f.step n a = some f') (hfront : SameFront f b) :
    ∃ b', b.step n a = some b' ∧ SameFront f' b' ∧ SameBack b b' ∧ event (b, a) = event (f, a) := by
  obtain ⟨clerks, sent, log, replicas, snapshots, results, replies⟩ := b
  obtain ⟨rfl, rfl, rfl⟩ := hfront
  refine ⟨⟨f'.clerks, f'.sent, log, replicas, snapshots, results, f'.replies⟩, ?_, ⟨rfl, rfl, rfl⟩,
    ⟨rfl, rfl, rfl, rfl⟩, ?_⟩
  · cases a with
    | call c op =>
      obtain ⟨hidle, rfl⟩ := State.step_call h
      exact if_pos hidle
    | refuse a =>
      simp only [State.step] at h ⊢
      split at h
      · obtain rfl := Option.some.inj h
        rfl
      · contradiction
    | deliver c =>
      simp only [State.step] at h ⊢
      split at h
      · obtain ⟨reply, hreply, rfl⟩ := Option.map_eq_some_iff.mp h
        simp only [hreply, Option.map_some]
        split
        · rfl
        · rfl
      · contradiction
    | fail c =>
      obtain ⟨call, hcall, rfl⟩ := State.step_fail h
      simp only [State.step, hcall, Option.map_some]
      rfl
    | _ => contradiction
  · cases a with
    | call c op => rfl
    | deliver c => rfl
    | _ => rfl

/-- An RPC that was sent stays where it is. -/
theorem sent_extends {s t : State} {a : Action} (h : s.step n a = some t) : s.sent <+: t.sent := by
  rcases step_clerks h with ⟨-, hsent⟩ | ⟨c, call, rfl⟩ | ⟨c, clerk, call, rfl, -⟩
  · rw [hsent]
  · exact List.prefix_rfl
  · exact List.prefix_append _ _

/-- The numbers of the calls and of the RPCs. -/
structure Counted (s : State) : Prop where
  clerk : ∀ c, (s.clerks c).seqNum = Int64.ofNat (s.clerks c).calls
  current : ∀ c call, (s.clerks c).call = some call →
    call.number = (s.clerks c).calls ∧ call.seqNum = (s.clerks c).seqNum
  sent : ∀ req ∈ s.sent, req.seqNum = Int64.ofNat req.call ∧
    req.call ≤ (s.clerks req.clientId).calls

namespace Counted

variable {s t : State}

theorem initial : Counted .initial where
  clerk := fun _ => rfl
  current := fun _ _ h => by contradiction
  sent := fun _ h => by contradiction

theorem finish (h : Counted s) (c : Int64) (call : Call) : Counted (s.finish c call) where
  clerk := fun d => by
    by_cases hd : d = c
    · subst hd
      simpa [State.finish, State.setClerk] using h.clerk d
    · simpa [State.finish, State.setClerk, hd] using h.clerk d
  current := fun d call' hcall => by
    by_cases hd : d = c
    · subst hd
      simp [State.finish, State.setClerk] at hcall
    · simp only [State.finish, State.setClerk, Function.update_of_ne hd] at hcall ⊢
      exact h.current d call' hcall
  sent := fun req hreq => by
    by_cases hd : req.clientId = c
    · subst hd
      simpa [State.finish, State.setClerk] using h.sent req hreq
    · simpa [State.finish, State.setClerk, hd] using h.sent req hreq

theorem send (h : Counted s) {c : Int64} {clerk : Clerk} {call : Call}
    (hsends : Sends s c clerk call) : Counted (s.send c clerk call) := by
  have hclerk : clerk.seqNum = Int64.ofNat clerk.calls ∧ call.number = clerk.calls ∧
      call.seqNum = clerk.seqNum := by
    rcases hsends with ⟨hcalls, hseq, hnumber, hcall⟩ | ⟨rfl, old, hold, hnumber, hcall⟩
    · refine ⟨?_, hnumber, hcall⟩
      rw [hseq, hcalls, h.clerk c, Int64.ofNat_add]
      rfl
    · obtain ⟨holdn, holds⟩ := h.current c old hold
      exact ⟨h.clerk c, hnumber.trans holdn, hcall.trans holds⟩
  refine ⟨fun d => ?_, fun d call' hcall' => ?_, fun req hreq => ?_⟩
  · by_cases hd : d = c
    · subst hd
      simpa [State.send, State.setClerk] using hclerk.1
    · simpa [State.send, State.setClerk, hd] using h.clerk d
  · by_cases hd : d = c
    · subst hd
      simp only [State.send, State.setClerk, Function.update_self, Option.some.injEq] at hcall' ⊢
      subst hcall'
      exact hclerk.2
    · simp only [State.send, State.setClerk, Function.update_of_ne hd] at hcall' ⊢
      exact h.current d call' hcall'
  · rcases List.mem_append.mp hreq with hold | hnew
    · obtain ⟨hseq, hle⟩ := h.sent req hold
      refine ⟨hseq, hle.trans ?_⟩
      by_cases hd : req.clientId = c
      · rw [hd]
        simpa [State.send, State.setClerk] using hsends.calls_le
      · simp [State.send, State.setClerk, hd]
    · obtain rfl := List.mem_singleton.mp hnew
      refine ⟨?_, ?_⟩
      · show call.seqNum = Int64.ofNat call.number
        rw [hclerk.2.2, hclerk.1, hclerk.2.1]
      · simp [State.send, State.setClerk, hclerk.2.1]

theorem step (h : Counted s) {a : Action} (hstep : s.step n a = some t) : Counted t := by
  rcases step_clerks hstep with ⟨hclerks, hsent⟩ | ⟨c, call, rfl⟩ | ⟨c, clerk, call, rfl, hsends⟩
  · refine ⟨?_, ?_, ?_⟩
    · rw [hclerks]
      exact h.clerk
    · rw [hclerks]
      exact h.current
    · rw [hclerks, hsent]
      exact h.sent
  · exact h.finish c call
  · exact h.send hsends

theorem run {tr : List (State × Action)} (h : (kvraft n).Run .initial tr t) : Counted t := by
  induction h with
  | nil => exact initial
  | snoc _ hstep ih => exact ih.step hstep

end Counted

/-! ## The requests -/

/-- Where a call of `Submit` on server `r` comes from. -/
structure Held (s : Service n D) (c : Agreement n D) (r : Fin n) (place : Nat)
    (call : Rsm.Call n Command RaftReplyMsg) : Prop where
  sent : s.sent[call.req.1]? = some call.req.2
  server : call.req.2.server = r
  handler : s.handlers call.req.1 = some ((s.servers.raft.proc r).incarnation, place)
  early : call.stage.isEarly = true → ∀ x ∈ c.started, ∀ op, x.command = some op →
    op.req.1 ≠ call.req.1
  plain : call.Plain

structure Requests (s : Service n D) (c : Agreement n D) : Prop where
  rpcs : OfRpcs s.sent c
  handled : ∀ x ∈ c.started, ∀ op, x.command = some op → (s.handlers op.req.1).isSome
  calls : ∀ (r : Fin n) (place : Nat) (call : Rsm.Call n Command RaftReplyMsg),
    (s.servers.server r).rsm.calls[place]? = some call → Held s c r place call
  /-- A handler whose server has not restarted waits for its own call. -/
  handlers : ∀ attempt life place, s.handlers attempt = some (life, place) →
    ∃ req, s.sent[attempt]? = some req ∧ ∀ r : Fin n, req.server = r →
      life ≤ (s.servers.raft.proc r).incarnation ∧ (life = (s.servers.raft.proc r).incarnation →
        ∃ call, (s.servers.server r).rsm.calls[place]? = some call ∧ call.req.1 = attempt)

/-- A server goes on in its life, or has started the next one. -/
def Lives (s s' : Service n D) (r : Fin n) : Prop :=
  ((s'.servers.raft.proc r).incarnation = (s.servers.raft.proc r).incarnation ∧
      (s.servers.server r).rsm.Follows (s'.servers.server r).rsm) ∨
    ((s.servers.raft.proc r).incarnation < (s'.servers.raft.proc r).incarnation ∧
      (s'.servers.server r).rsm.calls = [])

namespace Requests

variable {s s' : Service n D} {c c' : Agreement n D}

/-- The servers go on. -/
theorem follow (h : Requests s c) (hsent : s'.sent = s.sent) (hhandlers : s'.handlers = s.handlers)
    (hstarted : c'.started = c.started) (hlives : ∀ r, Lives s s' r) : Requests s' c' where
  rpcs := by
    refine ⟨?_, ?_⟩
    · rw [hstarted, hsent]
      exact h.rpcs.sent
    · rw [hstarted]
      exact h.rpcs.once
  handled := by
    rw [hstarted, hhandlers]
    exact h.handled
  calls := fun r place call' hcall' => by
    rcases hlives r with ⟨hlife, hfollows⟩ | ⟨-, hnone⟩
    · obtain ⟨call, hcall, hfollow⟩ := hfollows.calls place call' hcall'
      have hheld := h.calls r place call hcall
      refine ⟨?_, ?_, ?_, ?_, hfollow.plain hheld.plain⟩
      · rw [hsent, hfollow.req]
        exact hheld.sent
      · rw [hfollow.req]
        exact hheld.server
      · rw [hhandlers, hfollow.req, hlife]
        exact hheld.handler
      · rw [hstarted, hfollow.req]
        exact fun hearly => hheld.early (hfollow.early hearly)
    · rw [hnone] at hcall'
      contradiction
  handlers := fun attempt life place hhandler => by
    rw [hhandlers] at hhandler
    obtain ⟨req, hreq, hplaced⟩ := h.handlers attempt life place hhandler
    refine ⟨req, by rwa [hsent], fun r hserver => ?_⟩
    obtain ⟨hle, hcall⟩ := hplaced r hserver
    rcases hlives r with ⟨hlife, hfollows⟩ | ⟨hlt, -⟩
    · rw [hlife]
      refine ⟨hle, fun heq => ?_⟩
      obtain ⟨call, hcall, hattempt⟩ := hcall heq
      obtain ⟨call', hcall', hfollow⟩ := hfollows.kept hcall
      exact ⟨call', hcall', by rw [hfollow.req, hattempt]⟩
    · refine ⟨hle.trans hlt.le, fun heq => ?_⟩
      omega

/-- The replica of one server changes. -/
theorem setServer (h : Requests s c) {r : Fin n} {sv : Rsm.Deployed.Server n kvMachine D}
    (hfollows : (s.servers.server r).rsm.Follows sv.rsm) :
    Requests { s with servers := s.servers.setServer r sv } c := by
  refine h.follow rfl rfl rfl fun j => Or.inl ⟨rfl, ?_⟩
  refine (Function.forall_update_iff s.servers.server
    fun j sv => (s.servers.server j).rsm.Follows sv.rsm).mpr ⟨hfollows, fun j _ => ?_⟩ j
  exact .of_calls rfl

/-- RPCs are sent. -/
theorem setFront (h : Requests s c) {front : State} (hsent : s.sent <+: front.sent) :
    Requests (s.setFront front) c where
  rpcs := by
    refine ⟨fun x hx => ?_, h.rpcs.once⟩
    obtain ⟨op, hop, hat, hserver⟩ := h.rpcs.sent x hx
    exact ⟨op, hop, getElem?_of_isPrefix hsent hat, hserver⟩
  handled := h.handled
  calls := fun r place call hcall => by
    have hheld := h.calls r place call hcall
    exact ⟨getElem?_of_isPrefix hsent hheld.sent, hheld.server, hheld.handler, hheld.early,
      hheld.plain⟩
  handlers := fun attempt life place hhandler => by
    obtain ⟨req, hreq, hplaced⟩ := h.handlers attempt life place hhandler
    exact ⟨req, getElem?_of_isPrefix hsent hreq, hplaced⟩

/-- No two calls are of one RPC. -/
theorem call_unique (h : Requests s c) {r r' : Fin n} {place place' : Nat}
    {call call' : Rsm.Call n Command RaftReplyMsg}
    (hcall : (s.servers.server r).rsm.calls[place]? = some call)
    (hcall' : (s.servers.server r').rsm.calls[place']? = some call')
    (heq : call'.req.1 = call.req.1) : r' = r ∧ place' = place := by
  have hheld := h.calls r place call hcall
  have hheld' := h.calls r' place' call' hcall'
  have hsent := hheld.sent
  rw [← heq, hheld'.sent] at hsent
  obtain rfl : r' = r := by
    refine Fin.ext ?_
    rw [← hheld'.server, ← hheld.server, Option.some.inj hsent]
  have hhandler := hheld.handler
  rw [← heq, hheld'.handler] at hhandler
  exact ⟨rfl, (Prod.mk.inj (Option.some.inj hhandler)).2⟩

/-- `Start` has accepted the op of a call. -/
theorem started (h : Requests s c) {r : Fin n} {place index term : Nat} {op : Rsm.Op n Command}
    {call : Rsm.Call n Command RaftReplyMsg}
    (hcall : (s.servers.server r).rsm.calls[place]? = some call) (hgone : call.stage.isEarly = false)
    (hop : op.req = call.req)
    (hnew : ∀ x ∈ c.started, ∀ op', x.command = some op' → op'.req.1 ≠ op.req.1) :
    Requests s { c with started := ⟨r, index, term, some op⟩ :: c.started } := by
  have hheld := h.calls r place call hcall
  refine ⟨⟨?_, ?_⟩, ?_, ?_, h.handlers⟩
  · refine List.forall_mem_cons.mpr ⟨⟨op, rfl, ?_, ?_⟩, h.rpcs.sent⟩
    · rw [hop]
      exact hheld.sent
    · rw [hop]
      exact hheld.server
  · refine List.forall_mem_cons.mpr ⟨List.forall_mem_cons.mpr ⟨fun _ _ _ _ _ => rfl, ?_⟩, ?_⟩
    · intro y hy op₁ op₂ hop₁ hop₂ heq
      obtain rfl := Option.some.inj hop₁
      exact absurd heq.symm (hnew y hy op₂ hop₂)
    · intro x hx
      refine List.forall_mem_cons.mpr ⟨?_, h.rpcs.once x hx⟩
      intro op₁ op₂ hop₁ hop₂ heq
      obtain rfl := Option.some.inj hop₂
      exact absurd heq (hnew x hx op₁ hop₁)
  · refine List.forall_mem_cons.mpr ⟨?_, h.handled⟩
    intro op' hop'
    obtain rfl := Option.some.inj hop'
    rw [hop, hheld.handler]
    rfl
  · -- the call itself is past `Start`, and no other one is of its RPC
    intro r' place' call' hcall'
    have hheld' := h.calls r' place' call' hcall'
    refine ⟨hheld'.sent, hheld'.server, hheld'.handler, fun hearly => ?_, hheld'.plain⟩
    refine List.forall_mem_cons.mpr ⟨?_, hheld'.early hearly⟩
    intro op' hop' heq
    obtain rfl := Option.some.inj hop'
    obtain ⟨rfl, rfl⟩ := h.call_unique hcall hcall' (by rw [← heq, hop])
    rw [hcall] at hcall'
    obtain rfl := Option.some.inj hcall'
    rw [hgone] at hearly
    contradiction

/-- A handler calls `Submit`. -/
theorem submit (h : Requests s c) {r : Fin n} {attempt : Nat} {req : Request}
    (hsent : s.sent[attempt]? = some req) (hserver : req.server = r)
    (hnone : s.handlers attempt = none) :
    Requests { s with
      servers := s.servers.setServer r { s.servers.server r with
        rsm := (s.servers.server r).rsm.submit (attempt, req) }
      handlers := Function.update s.handlers attempt
        (some ((s.servers.raft.proc r).incarnation, (s.servers.server r).rsm.calls.length)) } c := by
  obtain ⟨new, hcalls, hreq, hplain⟩ := (s.servers.server r).rsm.submit_calls (attempt, req)
  generalize hat : (s.servers.raft.proc r).incarnation = life
  generalize hlast : (s.servers.server r).rsm.calls.length = last
  have hkept : ∀ a, (s.handlers a).isSome →
      Function.update s.handlers attempt (some (life, last)) a = s.handlers a := by
    intro a ha
    refine Function.update_of_ne ?_ _ _
    rintro rfl
    rw [hnone] at ha
    contradiction
  have hgrown : ∀ j, ∃ tail, ((s.servers.setServer r { s.servers.server r with
      rsm := (s.servers.server r).rsm.submit (attempt, req) }).server j).rsm.calls =
        (s.servers.server j).rsm.calls ++ tail ∧ (tail = [] ∨ j = r ∧ tail = [new]) := by
    intro j
    by_cases hj : j = r
    · subst hj
      refine ⟨[new], ?_, Or.inr ⟨rfl, rfl⟩⟩
      simpa [Rsm.Deployed.State.setServer] using hcalls
    · refine ⟨[], ?_, Or.inl rfl⟩
      simp [Rsm.Deployed.State.setServer, hj]
  refine ⟨h.rpcs, ?_, ?_, ?_⟩
  · intro x hx op hop
    have hsome := h.handled x hx op hop
    rwa [← hkept _ hsome] at hsome
  · intro j place call hcall
    obtain ⟨tail, htail, hcase⟩ := hgrown j
    rw [htail] at hcall
    rcases Nat.lt_or_ge place (s.servers.server j).rsm.calls.length with hlt | hge
    · rw [List.getElem?_append_left hlt] at hcall
      have hheld := h.calls j place call hcall
      refine ⟨hheld.sent, hheld.server, ?_, hheld.early, hheld.plain⟩
      exact (hkept call.req.1 (by rw [hheld.handler]; rfl)).trans hheld.handler
    · rw [List.getElem?_append_right hge] at hcall
      rcases hcase with rfl | ⟨rfl, rfl⟩
      · contradiction
      · obtain ⟨hplace, -⟩ := List.getElem?_eq_some_iff.mp hcall
        obtain rfl : call = new := List.mem_singleton.mp (List.mem_of_getElem? hcall)
        obtain rfl : place = last := by
          simp only [List.length_singleton] at hplace
          omega
        refine ⟨?_, ?_, ?_, ?_, hplain⟩
        · rw [hreq]
          exact hsent
        · rw [hreq]
          exact hserver
        · rw [hreq, ← hat]
          exact Function.update_self ..
        · intro _ x hx op hop heq
          rw [hreq] at heq
          have hsome := h.handled x hx op hop
          rw [heq, hnone] at hsome
          contradiction
  · intro a life' place hhandler
    by_cases ha : a = attempt
    · subst ha
      simp only [Function.update_self, Option.some.injEq, Prod.mk.injEq] at hhandler
      obtain ⟨rfl, rfl⟩ := hhandler
      refine ⟨req, hsent, fun j hj => ?_⟩
      obtain rfl : j = r := Fin.ext (hj.symm.trans hserver)
      refine ⟨hat.ge, fun _ => ⟨new, ?_, by rw [hreq]⟩⟩
      simp only [Rsm.Deployed.State.setServer, Function.update_self]
      rw [hcalls, ← hlast]
      exact List.getElem?_concat_length
    · simp only [Function.update_of_ne ha] at hhandler
      obtain ⟨req', hreq', hplaced⟩ := h.handlers a life' place hhandler
      refine ⟨req', hreq', fun j hj => ⟨(hplaced j hj).1, fun heq => ?_⟩⟩
      obtain ⟨call, hcall, hattempt⟩ := (hplaced j hj).2 heq
      obtain ⟨tail, htail, -⟩ := hgrown j
      refine ⟨call, ?_, hattempt⟩
      rw [htail]
      exact List.getElem?_append_left (List.getElem?_eq_some_iff.mp hcall).1 ▸ hcall

end Requests

end DistSys.Kvraft1
