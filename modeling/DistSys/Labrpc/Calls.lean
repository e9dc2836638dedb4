import DistSys.Labrpc.Network

/- What a `Call` may rely on.

   For every run of the network under any program the handler runs at most once for a call. A call
   that returns true has the reply of that one execution, by the server that was behind the enabled
   end when the request was read, and after the execution the network found the end enabled and that
   server still in place (`call_executed_once`). The tester relies on the last when it replaces the
   persister of a server that it has shut down and deleted.

   A request may well run after its call has returned false: it does so when the end was disabled in
   between. -/
namespace DistSys.Labrpc

open Lib

variable {E N S A R : Type}

abbrev Trace (E N S A R : Type) := List (Rpcs E N S A R × Label E N S A R)

variable {tr : Trace E N S A R} {s t : Rpcs E N S A R} {c : Nat} {call call' : Call E N S A R}

/-! ## What a run tells about a call -/

/-- The reply with which the handler of call `c` returns in a step, if it does. -/
def execution (c : Nat) (x : Rpcs E N S A R × Label E N S A R) : Option R :=
  match x.2 with
  | .op c' (.handle reply) => if c' = c then some reply else none
  | _ => none

/-- The replies with which the handler of call `c` returned. -/
def executions (tr : Trace E N S A R) (c : Nat) : List R := tr.filterMap (execution c)

/-- In step `k` the request was read, and this server found behind the end. -/
def Routed (tr : Trace E N S A R) (c : Nat) (endname : E) (route : Route N S) (k : Nat) : Prop :=
  ∃ u, tr[k]? = some (u, .op c .read) ∧ u.net.enabled endname = true ∧
    u.net.connections endname = some route.servername ∧
    u.net.servers route.servername = some route.server

/-- In step `i` the server of the route, which was found before, executed the request. -/
def Ran (tr : Trace E N S A R) (c : Nat) (endname : E) (route : Route N S) (reply : R) (i : Nat) :
    Prop :=
  (∃ k < i, Routed tr c endname route k) ∧
    ∃ u call, tr[i]? = some (u, .op c (.handle reply)) ∧ u.calls[c]? = some call ∧
      call.handler = .running route.server

/-- After the execution the end was found enabled and the server in place. -/
def Confirmed [DecidableEq S] (tr : Trace E N S A R) (c : Nat) (endname : E) (reply : R) : Prop :=
  ∃ route i j v lost, i < j ∧ Ran tr c endname route reply i ∧
    tr[j]? = some (v, .op c (.finish lost)) ∧
    v.net.isServerDead endname route.servername route.server = false

/-- The handler's goroutine and the executions so far. -/
def HandlerTold (tr : Trace E N S A R) (c : Nat) : Handler S R → Prop
  | .unborn => executions tr c = []
  | .running _ => executions tr c = []
  | .finished _ reply => executions tr c = [reply]
  | .gone => ∃ reply, executions tr c = [reply]

/-- Where `processReq` is and what happened before. -/
def StageTold [DecidableEq S] (tr : Trace E N S A R) (c : Nat) (endname : E) (handler : Handler S R) :
    Stage N S R → Prop
  | .forwarding route => ∃ k, Routed tr c endname route k
  | .waiting route => (∃ k, Routed tr c endname route k) ∧
      ∀ server reply, handler = .finished server reply → ∃ i, Ran tr c endname route reply i
  | .answered route reply => executions tr c = [reply] ∧ ∃ i, Ran tr c endname route reply i
  | .replying reply => ∀ r, reply = some r → executions tr c = [r] ∧ Confirmed tr c endname r
  | .returned reply => ∀ r, reply = some r → executions tr c = [r] ∧ Confirmed tr c endname r
  | _ => True

structure Told [DecidableEq S] (tr : Trace E N S A R) (c : Nat) (call : Call E N S A R) : Prop where
  fits : Call.Fits call.handler call.stage
  handler : HandlerTold tr c call.handler
  stage : StageTold tr c call.endname call.handler call.stage

/-! ## The rest of the run adds to it -/

section Mono

variable {x : Rpcs E N S A R × Label E N S A R} {endname : E} {route : Route N S} {reply : R}
  {k : Nat}

theorem getElem?_snoc {y : Rpcs E N S A R × Label E N S A R} (h : tr[k]? = some y) :
    (tr ++ [x])[k]? = some y := by
  obtain ⟨hlt, -⟩ := List.getElem?_eq_some_iff.mp h
  rw [List.getElem?_append_left hlt]
  exact h

theorem executions_snoc : executions (tr ++ [x]) c = executions tr c ++ (execution c x).toList := by
  cases hx : execution c x <;> simp [executions, List.filterMap_append, hx]

theorem Routed.snoc (h : Routed tr c endname route k) : Routed (tr ++ [x]) c endname route k := by
  obtain ⟨u, hk, hrest⟩ := h
  exact ⟨u, getElem?_snoc hk, hrest⟩

theorem Ran.snoc (h : Ran tr c endname route reply k) :
    Ran (tr ++ [x]) c endname route reply k := by
  obtain ⟨⟨i, hi, hrouted⟩, u, call, hk, hcall⟩ := h
  exact ⟨⟨i, hi, hrouted.snoc⟩, u, call, getElem?_snoc hk, hcall⟩

theorem Routed.lt (h : Routed tr c endname route k) : k < tr.length := by
  obtain ⟨u, hk, -⟩ := h
  exact (List.getElem?_eq_some_iff.mp hk).1

theorem Ran.lt (h : Ran tr c endname route reply k) : k < tr.length := by
  obtain ⟨-, u, call, hk, -⟩ := h
  exact (List.getElem?_eq_some_iff.mp hk).1

theorem execution_op {o : Op R} (u : Rpcs E N S A R) (h : ∀ reply, o ≠ .handle reply) :
    execution c (u, (.op c o : Label E N S A R)) = none := by
  cases o with
  | handle reply => exact absurd rfl (h reply)
  | _ => rfl

theorem execution_none (h : ∀ o, x.2 ≠ .op c o) : execution c x = none := by
  unfold execution
  split
  · rename_i c' reply heq
    by_cases hcc : c' = c
    · subst hcc
      exact absurd heq (h _)
    · exact if_neg hcc
  · rfl

section Told

variable [DecidableEq S]

theorem Confirmed.snoc (h : Confirmed tr c endname reply) :
    Confirmed (tr ++ [x]) c endname reply := by
  obtain ⟨route, i, j, v, lost, hij, hran, hj, halive⟩ := h
  exact ⟨route, i, j, v, lost, hij, hran.snoc, getElem?_snoc hj, halive⟩

/-- A step in which the handler of the call does not return changes nothing of what is told. -/
theorem Told.snoc (h : Told tr c call) (hx : execution c x = none) : Told (tr ++ [x]) c call := by
  have hsame : executions (tr ++ [x]) c = executions tr c := by simp [executions_snoc, hx]
  refine ⟨h.fits, ?_, ?_⟩
  · have hhandler := h.handler
    generalize call.handler = handler at hhandler ⊢
    cases handler <;> simpa only [HandlerTold, hsame] using hhandler
  · have hstage := h.stage
    cases hs : call.stage with
    | forwarding route =>
      simp only [hs, StageTold] at hstage ⊢
      obtain ⟨k, hk⟩ := hstage
      exact ⟨k, hk.snoc⟩
    | waiting route =>
      simp only [hs, StageTold] at hstage ⊢
      obtain ⟨⟨k, hk⟩, hran⟩ := hstage
      refine ⟨⟨k, hk.snoc⟩, fun server reply hfinished => ?_⟩
      obtain ⟨i, hi⟩ := hran server reply hfinished
      exact ⟨i, hi.snoc⟩
    | answered route reply =>
      simp only [hs, StageTold, hsame] at hstage ⊢
      obtain ⟨hone, i, hi⟩ := hstage
      exact ⟨hone, i, hi.snoc⟩
    | replying reply =>
      simp only [hs, StageTold, hsame] at hstage ⊢
      exact fun r hr => ⟨(hstage r hr).1, (hstage r hr).2.snoc⟩
    | returned reply =>
      simp only [hs, StageTold, hsame] at hstage ⊢
      exact fun r hr => ⟨(hstage r hr).1, (hstage r hr).2.snoc⟩
    | _ => trivial

end Told

end Mono

/-! ## One step of a call -/

section Step

variable [DecidableEq S]

/-- The request is read: a server that was found is the one behind the end. -/
theorem Told.read (h : Told tr c call) (hmoves : call.Moves s.net .read call') :
    Told (tr ++ [(s, .op c .read)]) c call' := by
  have hfits := hmoves.fits h.fits
  cases hmoves with
  | read hstage =>
    refine ⟨hfits, (h.snoc (execution_op s (by simp))).handler, ?_⟩
    rcases Call.readStage_cases (R := R) s.net call.endname with hread | ⟨route, hread, hrest⟩ <;>
      simp only [hread]
    · trivial
    · exact ⟨tr.length, s, List.getElem?_concat_length, hrest⟩

/-- The handler returns. -/
theorem Told.handle {reply : R} (h : Told tr c call) (hcall : s.calls[c]? = some call)
    (hmoves : call.Moves s.net (.handle reply) call') :
    Told (tr ++ [(s, .op c (.handle reply))]) c call' := by
  have hfits := hmoves.fits h.fits
  cases hmoves with
  | handle server _ hrunning =>
    have hnone : executions tr c = [] := by simpa only [hrunning, HandlerTold] using h.handler
    have hone : executions (tr ++ [(s, (.op c (.handle reply) : Label E N S A R))]) c = [reply] := by
      simp [executions_snoc, hnone, execution]
    refine ⟨hfits, hone, ?_⟩
    cases hs : call.stage with
    | waiting route =>
      have hstage := h.stage
      simp only [hs, StageTold] at hstage
      obtain ⟨⟨k, hk⟩, -⟩ := hstage
      have hserver : call.handler = .running route.server := by
        simpa [hs, Call.Fits, hrunning] using h.fits
      refine ⟨⟨k, hk.snoc⟩, fun server' reply' hfinished => ?_⟩
      obtain ⟨-, rfl⟩ := Handler.finished.inj hfinished
      exact ⟨tr.length, ⟨k, hk.lt, hk.snoc⟩, s, call, List.getElem?_concat_length, hcall, hserver⟩
    | _ => simp_all [Call.Fits, StageTold]

/-- The second look at the server. -/
theorem Told.finish {lost : Bool} (h : Told tr c call)
    (hmoves : call.Moves s.net (.finish lost) call') :
    Told (tr ++ [(s, .op c (.finish lost))]) c call' := by
  have hfits := hmoves.fits h.fits
  have hsnoc := h.snoc (execution_op (o := .finish lost) s (by simp))
  have hhandler := hsnoc.handler
  cases hmoves with
  | fail route _ hstage => exact ⟨hfits, hhandler, by simp [StageTold]⟩
  | finish route reply _ hstage =>
    refine ⟨hfits, hhandler, ?_⟩
    have hanswered := hsnoc.stage
    simp only [hstage, StageTold] at hanswered
    have hran := h.stage
    simp only [hstage, StageTold] at hran
    obtain ⟨-, i, hi⟩ := hran
    rcases Call.finishStage_cases route reply
      (s.net.isServerDead call.endname route.servername route.server) lost with
      hfinish | ⟨hfinish, halive⟩ <;> simp only [hfinish]
    · simp [StageTold]
    · intro r hr
      obtain rfl := Option.some.inj hr
      exact ⟨hanswered.1, route, i, tr.length, s, lost, hi.lt, hi.snoc,
        List.getElem?_concat_length, halive⟩

/-- A step of a call keeps what is told about it. -/
theorem Told.step {o : Op R} (h : Told tr c call) (hcall : s.calls[c]? = some call)
    (hmoves : call.Moves s.net o call') : Told (tr ++ [(s, .op c o)]) c call' := by
  by_cases hhandle : ∃ reply, o = .handle reply
  · obtain ⟨reply, rfl⟩ := hhandle
    exact h.handle hcall hmoves
  · have hsnoc := h.snoc (execution_op s (not_exists.mp hhandle))
    have hhandler := hsnoc.handler
    have hstageTold := hsnoc.stage
    have hfits := hmoves.fits h.fits
    cases hmoves with
    | handle server reply => exact absurd ⟨reply, rfl⟩ hhandle
    | read hstage => exact h.read (.read hstage)
    | finish route reply lost hstage => exact h.finish (.finish route reply lost hstage)
    | fail route lost hstage => exact h.finish (.fail route lost hstage)
    | dispatch route hstage =>
      have hunborn : call.handler = .unborn := by simpa [hstage, Call.Fits] using h.fits
      simp only [hstage, StageTold] at hstageTold
      rw [hunborn] at hhandler
      exact ⟨hfits, hhandler, hstageTold, by simp⟩
    | answer route server reply hstage hfinished =>
      rw [hfinished] at hhandler
      simp only [hstage, StageTold] at hstageTold
      exact ⟨hfits, ⟨reply, hhandler⟩, hhandler, hstageTold.2 server reply hfinished⟩
    | drain server reply hstage hfinished =>
      rw [hfinished] at hhandler
      refine ⟨hfits, ⟨reply, hhandler⟩, ?_⟩
      cases hs : call.stage with
      | waiting route => exact absurd hs (hstage route)
      | _ => simp_all [StageTold]
    | «return» reply hstage =>
      simp only [hstage, StageTold] at hstageTold
      exact ⟨hfits, hhandler, hstageTold⟩
    | _ => exact ⟨hfits, hhandler, by simp [StageTold]⟩

end Step

/-! ## Every call of a run -/

section Run

variable [DecidableEq E] [DecidableEq N] [DecidableEq S]

/-- A step of the system leaves a call alone, makes it, or is one of its own. -/
theorem step_call {a : Label E N S A R} (h : s.step a = some t) (hc : t.calls[c]? = some call) :
    (s.calls[c]? = some call ∧ ∀ o, a ≠ .op c o) ∨
      (s.calls.length = c ∧ ∃ endname args, a = .call endname args ∧ call = .make endname args) ∨
      ∃ o old, a = .op c o ∧ s.calls[c]? = some old ∧ old.Moves s.net o call := by
  cases a with
  | admin a =>
    obtain ⟨net, -, rfl⟩ := Option.map_eq_some_iff.mp h
    exact Or.inl ⟨hc, by simp⟩
  | call endname args =>
    obtain rfl := Option.some.inj h
    by_cases hlt : c < s.calls.length
    · rw [List.getElem?_append_left hlt] at hc
      exact Or.inl ⟨hc, by simp⟩
    · obtain ⟨hle, hget⟩ := List.getElem?_eq_some_iff.mp hc
      have heq : s.calls.length = c := by
        simp only [List.length_append, List.length_singleton] at hle
        omega
      subst heq
      exact Or.inr (Or.inl ⟨rfl, endname, args, rfl, by simpa using hget.symm⟩)
  | op c' o =>
    obtain ⟨old, new, hold, hmoves, rfl⟩ := Rpcs.stepCall_cases h
    by_cases hcc : c' = c
    · subst hcc
      obtain ⟨hlt, -⟩ := List.getElem?_eq_some_iff.mp hold
      obtain rfl : new = call := by simpa [hlt] using hc
      exact Or.inr (Or.inr ⟨o, old, rfl, hold, hmoves⟩)
    · have hsame : s.calls[c]? = some call := by simpa [List.getElem?_set_ne hcc] using hc
      exact Or.inl ⟨hsame, fun o' heq => hcc (Label.op.inj heq).1⟩

theorem step_length {a : Label E N S A R} (h : s.step a = some t) :
    s.calls.length ≤ t.calls.length ∧ ∀ o, a = .op c o → c < s.calls.length := by
  cases a with
  | admin a =>
    obtain ⟨net, -, rfl⟩ := Option.map_eq_some_iff.mp h
    exact ⟨le_rfl, by simp⟩
  | call endname args =>
    obtain rfl := Option.some.inj h
    exact ⟨by simp, by simp⟩
  | op c' o =>
    obtain ⟨old, new, hold, -, rfl⟩ := Rpcs.stepCall_cases h
    refine ⟨by simp, fun o' heq => ?_⟩
    obtain ⟨rfl, -⟩ := Label.op.inj heq
    exact (List.getElem?_eq_some_iff.mp hold).1

/-- Only a call that was made takes steps. -/
theorem op_made (h : (system E N S A R).Run .initial tr s) (hc : s.calls.length ≤ c) :
    ∀ x ∈ tr, ∀ o, x.2 ≠ .op c o := by
  induction h with
  | nil => simp
  | @snoc tr u w a hrun hstep ih =>
    obtain ⟨hle, hop⟩ := step_length (c := c) hstep
    intro x hx o ho
    rcases List.mem_append.mp hx with hx | hx
    · exact ih (hle.trans hc) x hx o ho
    · obtain rfl := List.mem_singleton.mp hx
      have := hop o ho
      omega

theorem executions_unmade (h : (system E N S A R).Run .initial tr s) (hc : s.calls.length ≤ c) :
    executions tr c = [] :=
  List.filterMap_eq_nil_iff.mpr fun x hx => execution_none (op_made h hc x hx)

/-- The run tells about every call that was made. -/
theorem told (h : (system E N S A R).Run .initial tr s) (hc : s.calls[c]? = some call) :
    Told tr c call := by
  induction h generalizing call with
  | nil => simp [Rpcs.initial] at hc
  | @snoc tr u w a hrun hstep ih =>
    rcases step_call hstep hc with ⟨hold, hother⟩ | ⟨hnew, endname, args, rfl, rfl⟩ |
      ⟨o, old, rfl, hold, hmoves⟩
    · exact (ih hold).snoc (execution_none hother)
    · have hnone : executions (tr ++ [(u, (.call endname args : Label E N S A R))]) c = [] := by
        simp [executions_snoc, executions_unmade hrun hnew.le, execution]
      exact ⟨rfl, hnone, trivial⟩
    · exact (ih hold).step hold hmoves

theorem executions_length_le (h : (system E N S A R).Run .initial tr s) (c : Nat) :
    (executions tr c).length ≤ 1 := by
  by_cases hlt : c < s.calls.length
  · have hhandler := (told h (List.getElem?_eq_getElem hlt)).handler
    cases hh : (s.calls[c]).handler with
    | unborn => simp_all [HandlerTold]
    | running server => simp_all [HandlerTold]
    | finished server reply => simp_all [HandlerTold]
    | gone =>
      rw [hh] at hhandler
      obtain ⟨reply, hone⟩ := hhandler
      simp [hone]
  · simp [executions_unmade h (not_lt.mp hlt)]

theorem returned_confirmed (h : (system E N S A R).Run .initial tr s) {reply : R}
    (hc : s.calls[c]? = some call) (hreturned : call.stage = .returned (some reply)) :
    executions tr c = [reply] ∧ Confirmed tr c call.endname reply := by
  have hstage := (told h hc).stage
  rw [hreturned] at hstage
  exact hstage reply rfl

/-- The handler of a call runs at most once. If the call returns true, it has the reply of that one
execution, by the server that was behind the end when the request was read, and after the execution
the network found the end enabled and that server still there. -/
theorem call_executed_once (h : (system E N S A R).Run .initial tr s) (c : Nat) :
    (executions tr c).length ≤ 1 ∧
      ∀ call reply, s.calls[c]? = some call → call.stage = .returned (some reply) →
        executions tr c = [reply] ∧ Confirmed tr c call.endname reply :=
  ⟨executions_length_le h c, fun _ _ => returned_confirmed h⟩

/-- The call of the sample returns true with what the server at address `10` replied. -/
theorem call_executed_once_returning :
    executions (sampleTrace (connecting ++ calling ++ returning)) 0 = [6] ∧
      Confirmed (sampleTrace (connecting ++ calling ++ returning)) 0 1 6 :=
  (call_executed_once (sample_run (connecting ++ calling ++ returning) (by decide)) 0).2
    ⟨1, 5, .returned (some 6), .gone⟩ 6 (by decide) rfl

/-- A call may be executed after it has returned false: when its end is disabled, the network gives
up, and the handler still runs. -/
example : (sampleAt (connecting ++ calling ++ [.admin (.enable 1 false), .op 0 .giveUp,
    .op 0 (.finish false), .op 0 .return, .op 0 (.handle 6)])).calls =
      [⟨1, 5, .returned none, .finished 10 6⟩] := by
  decide

end Run

end DistSys.Labrpc
