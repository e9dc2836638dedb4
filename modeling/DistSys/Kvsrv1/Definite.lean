import DistSys.Kvsrv1.Linear
import Mathlib.Data.List.Nodup

/- What an error of a `Put` says about its attempts.

   The Clerk returns ErrVersion for the answer to its first request only, and no other request of
   the call was sent then. It returns ErrNoKey for the answer to any request, also while an
   earlier one is in flight, which is executed once the key is there (`late_attempt`). If no
   request of the call is in flight when ErrNoKey is returned, and none was executed after the
   one that is answered, the error is definite too (`definite`). -/
namespace DistSys.Kvsrv1

open Lib

/-! ## The requests that were sent -/

/-- The requests in flight and those executed. -/
def State.sent (s : State) : List Request := s.pending ++ s.executed.map Prod.fst

/-- A step sends an attempt of a new call, or the next one of a call in progress, or it sends
nothing. -/
theorem step_sent {s t : State} {a : Action} (h : s.step a = some t) :
    (∃ c call seqNum, t.sent.Perm (call.request c :: s.sent) ∧
      t.clerks = Function.update s.clerks c ⟨seqNum, some call⟩ ∧
      ((call = s.newCall c call.op ∧ t.calls = s.calls + 1) ∨
        (∃ old, (s.clerks c).call = some old ∧ call = old.again ∧ t.calls = s.calls))) ∨
    (t.sent.Subperm s.sent ∧ t.calls = s.calls ∧
      ∀ c call, (t.clerks c).call = some call → (s.clerks c).call = some call) := by
  have hsnoc : ∀ (req : Request) (l l' : List Request), (l ++ [req] ++ l').Perm (req :: (l ++ l')) :=
    fun req l l' => by simp
  cases a with
  | call c op =>
    obtain ⟨-, rfl⟩ := State.step_call h
    exact Or.inl ⟨c, s.newCall c op, _, hsnoc _ _ _, rfl, Or.inl ⟨rfl, rfl⟩⟩
  | execute i =>
    obtain ⟨req, hreq, rfl⟩ := State.step_execute h
    refine Or.inr ⟨List.Perm.subperm ?_, rfl, fun _ _ hcall => hcall⟩
    obtain ⟨hlt, rfl⟩ := List.getElem?_eq_some_iff.mp hreq
    have hnow : (s.execute i s.pending[i]).sent =
        s.pending.eraseIdx i ++ s.executed.map Prod.fst ++ [s.pending[i]] := by
      simp [State.sent, State.execute]
    rw [hnow]
    exact (List.perm_append_singleton _ _).trans
      ((List.getElem_cons_eraseIdx_perm hlt).append_right _)
  | drop i =>
    obtain rfl := State.step_drop h
    refine Or.inr ⟨List.Sublist.subperm ?_, rfl, fun _ _ hcall => hcall⟩
    exact (List.eraseIdx_sublist s.pending i).append (List.Sublist.refl _)
  | deliver c i =>
    obtain ⟨-, rfl⟩ := State.step_deliver h
    refine Or.inr ⟨List.Subperm.refl _, rfl, ?_⟩
    intro c' call hcall
    by_cases hc : c' = c
    · simp [State.setClerk, hc] at hcall
    · simpa [State.setClerk, hc] using hcall
  | fail c =>
    obtain ⟨call, hcall, rfl⟩ := State.step_fail h
    exact Or.inl ⟨c, call.again, _, hsnoc _ _ _, rfl, Or.inr ⟨call, hcall, rfl, rfl⟩⟩

/-- Each request was sent once, and is an attempt of its call up to the current one. -/
structure Sent (s : State) : Prop where
  nodup : s.sent.Nodup
  below : ∀ req ∈ s.sent, req.call < s.calls
  first : ∀ c call, (s.clerks c).call = some call → call.firstAttempt = true → call.attempt = 0
  current : ∀ c call, (s.clerks c).call = some call → call.id < s.calls
  attempts : ∀ c call, (s.clerks c).call = some call →
    ∀ req ∈ s.sent, req.call = call.id → req.attempt ≤ call.attempt
  distinct : ∀ c c' call call', (s.clerks c).call = some call → (s.clerks c').call = some call' →
    call.id = call'.id → c = c'

namespace Sent

variable {s t : State}

theorem initial : Sent .initial := by
  refine ⟨?_, ?_, ?_, ?_, ?_, ?_⟩ <;> simp [State.sent, State.initial]

/-- A clerk turns to an attempt that was not sent yet. -/
theorem send (h : Sent s) {c : Int64} {call : Call} {seqNum : Int64}
    (hsent : t.sent.Perm (call.request c :: s.sent))
    (hclerks : t.clerks = Function.update s.clerks c ⟨seqNum, some call⟩) (hcalls : s.calls ≤ t.calls)
    (hid : call.id < t.calls) (hfirst : call.firstAttempt = true → call.attempt = 0)
    (hnew : ∀ req ∈ s.sent, req.call = call.id → req.attempt < call.attempt)
    (hother : ∀ c' call', c' ≠ c → (s.clerks c').call = some call' → call'.id ≠ call.id) :
    Sent t := by
  have hmem : ∀ req, req ∈ t.sent ↔ req = call.request c ∨ req ∈ s.sent := by
    intro req
    rw [hsent.mem_iff, List.mem_cons]
  have hclerk : ∀ c' call', (t.clerks c').call = some call' →
      (c' = c ∧ call' = call) ∨ (c' ≠ c ∧ (s.clerks c').call = some call') := by
    intro c' call' hcall
    rw [hclerks] at hcall
    by_cases hc : c' = c
    · subst hc
      exact Or.inl ⟨rfl, by simpa using hcall.symm⟩
    · exact Or.inr ⟨hc, by simpa [hc] using hcall⟩
  refine ⟨?_, ?_, ?_, ?_, ?_, ?_⟩
  · refine hsent.nodup_iff.mpr (List.nodup_cons.mpr ⟨fun hin => ?_, h.nodup⟩)
    exact lt_irrefl _ (hnew _ hin rfl)
  · intro req hreq
    rcases (hmem req).mp hreq with rfl | hreq
    · exact hid
    · exact lt_of_lt_of_le (h.below req hreq) hcalls
  · intro c' call' hcall
    rcases hclerk c' call' hcall with ⟨-, rfl⟩ | ⟨-, hold⟩
    · exact hfirst
    · exact h.first c' call' hold
  · intro c' call' hcall
    rcases hclerk c' call' hcall with ⟨-, rfl⟩ | ⟨-, hold⟩
    · exact hid
    · exact lt_of_lt_of_le (h.current c' call' hold) hcalls
  · intro c' call' hcall req hreq hsame
    rcases hclerk c' call' hcall with ⟨rfl, rfl⟩ | ⟨hc, hold⟩
    · rcases (hmem req).mp hreq with rfl | hreq
      · exact le_rfl
      · exact (hnew req hreq hsame).le
    · rcases (hmem req).mp hreq with rfl | hreq
      · exact absurd hsame.symm (hother c' call' hc hold)
      · exact h.attempts c' call' hold req hreq hsame
  · intro c₁ c₂ call₁ call₂ h₁ h₂ hsame
    rcases hclerk c₁ call₁ h₁ with ⟨rfl, rfl⟩ | ⟨hc₁, hold₁⟩
    · rcases hclerk c₂ call₂ h₂ with ⟨rfl, -⟩ | ⟨hc₂, hold₂⟩
      · rfl
      · exact absurd hsame.symm (hother c₂ call₂ hc₂ hold₂)
    · rcases hclerk c₂ call₂ h₂ with ⟨rfl, rfl⟩ | ⟨hc₂, hold₂⟩
      · exact absurd hsame (hother c₁ call₁ hc₁ hold₁)
      · exact h.distinct c₁ c₂ call₁ call₂ hold₁ hold₂ hsame

theorem step (h : Sent s) {a : Action} (hstep : s.step a = some t) : Sent t := by
  rcases step_sent hstep with ⟨c, call, seqNum, hsent, hclerks, hcase⟩ | ⟨hsent, hcalls, hclerks⟩
  · rcases hcase with ⟨hnew, hcalls⟩ | ⟨old, hold, rfl, hcalls⟩
    · have hid : call.id = s.calls := by rw [hnew]; rfl
      have hfirst : call.attempt = 0 := by rw [hnew]; rfl
      refine h.send hsent hclerks (by omega) (by omega) (fun _ => hfirst) ?_ ?_
      · intro req hreq hsame
        have := h.below req hreq
        omega
      · intro c' call' _ hcall
        have := h.current c' call' hcall
        omega
    · refine h.send hsent hclerks hcalls.ge (hcalls ▸ h.current c old hold) (by simp [Call.again]) ?_ ?_
      · intro req hreq hsame
        exact Nat.lt_succ_of_le (h.attempts c old hold req hreq hsame)
      · intro c' call' hc hcall hsame
        exact hc (h.distinct c' c call' old hcall hold hsame)
  · obtain ⟨l, hperm, hsub⟩ := hsent
    have hmem : ∀ req ∈ t.sent, req ∈ s.sent := fun req hreq => hsub.subset (hperm.mem_iff.mpr hreq)
    exact ⟨hperm.nodup_iff.mp (h.nodup.sublist hsub),
      fun req hreq => hcalls ▸ h.below req (hmem req hreq),
      fun c call hcall => h.first c call (hclerks c call hcall),
      fun c call hcall => hcalls ▸ h.current c call (hclerks c call hcall),
      fun c call hcall req hreq => h.attempts c call (hclerks c call hcall) req (hmem req hreq),
      fun c c' call call' hcall hcall' =>
        h.distinct c c' call call' (hclerks c call hcall) (hclerks c' call' hcall')⟩

theorem of_run {tr : List (State × Action)} (h : kvsrv.Run .initial tr t) : Sent t :=
  h.invariant (fun _ _ _ hs hst => hs.step hst) initial t (by simp [visited])

end Sent

/-! ## Executions and their replies -/

section Entries

variable {tr : List (State × Action)} {t : State} (hrun : kvsrv.Run .initial tr t)
include hrun

/-- The reply to an execution stays at its place. -/
theorem ExecutedAt.entry {e d : ℕ} {u w : State} {req : Request} (h : ExecutedAt tr e u req)
    (hed : e < d) (hd : (visited tr t)[d]? = some w) :
    w.executed[u.executed.length]? = some (req, (u.server.handle req).2) := by
  obtain ⟨i, he, hreq⟩ := h
  have hkeep : ∀ (s : State) (a : Action) (s' : State),
      s.executed[u.executed.length]? = some (req, (u.server.handle req).2) → kvsrv.step s a s' →
      s'.executed[u.executed.length]? = some (req, (u.server.handle req).2) := by
    intro s a s' hs hst
    cases a with
    | call c op =>
      obtain ⟨-, rfl⟩ := State.step_call hst
      exact hs
    | execute i =>
      obtain ⟨req', -, rfl⟩ := State.step_execute hst
      have hlt := (List.getElem?_eq_some_iff.mp hs).1
      exact (List.getElem?_append_left hlt).trans hs
    | drop i =>
      obtain rfl := State.step_drop hst
      exact hs
    | deliver c i =>
      obtain ⟨-, rfl⟩ := State.step_deliver hst
      exact hs
    | fail c =>
      obtain ⟨call, -, rfl⟩ := State.step_fail hst
      exact hs
  obtain ⟨w', hw', hstep⟩ := hrun.visited_succ he
  refine hrun.kept hkeep hed hw' hd ?_
  obtain ⟨req', hreq', rfl⟩ := State.step_execute hstep
  obtain rfl := Option.some.inj (hreq.symm.trans hreq')
  simp [State.execute]

/-- A request in flight or executed belongs to a call. -/
theorem History.sent_called {req : Request} (hreq : req ∈ t.sent) :
    ∃ p, CalledAt tr p req.call req.clientId req.op req.seqNum := by
  rcases List.mem_append.mp hreq with hreq | hreq
  · exact (History.of_run hrun).pending req hreq
  · obtain ⟨⟨_, reply⟩, hmem, rfl⟩ := List.mem_map.mp hreq
    obtain ⟨i, hi⟩ := List.mem_iff_getElem?.mp hmem
    obtain ⟨e, u, he, -⟩ := (History.of_run hrun).executed i _ _ hi
    obtain ⟨p, -, hp⟩ := he.called hrun
    exact ⟨p, hp⟩

/-- While a call is at its first attempt that request is its only one. -/
theorem first_request {c : Int64} {call : Call} {req : Request}
    (hcall : (t.clerks c).call = some call) (hfirst : call.firstAttempt = true)
    (hreq : req ∈ t.sent) (hid : req.call = call.id) : req = call.request c := by
  obtain ⟨p, hp⟩ := History.sent_called hrun hreq
  obtain ⟨p', hp'⟩ := (History.of_run hrun).current c call hcall
  rw [hid] at hp
  obtain ⟨-, hclient, hop, hseq⟩ := hp.unique hrun hp'
  have hzero := (Sent.of_run hrun).first c call hcall hfirst
  have hle := (Sent.of_run hrun).attempts c call hcall req hreq hid
  have hattempt : req.attempt = call.attempt := by omega
  cases req
  simp_all [Call.request]

end Entries

/-- A call that is not in progress, with no request in flight. -/
def Over (n : ℕ) (s : State) : Prop :=
  n < s.calls ∧ (∀ c call, (s.clerks c).call = some call → call.id ≠ n) ∧
    ∀ req ∈ s.pending, req.call ≠ n

theorem Over.step {n : ℕ} {s t : State} {a : Action} (h : Over n s) (hstep : s.step a = some t) :
    Over n t := by
  obtain ⟨hlt, hcurrent, hpending⟩ := h
  cases a with
  | call c op =>
    obtain ⟨-, rfl⟩ := State.step_call hstep
    refine ⟨Nat.lt_succ_of_lt hlt, ?_, ?_⟩
    · intro c' call hcall
      by_cases hc : c' = c
      · obtain rfl : s.newCall c op = call := by simpa [State.send, State.setClerk, hc] using hcall
        exact hlt.ne'
      · exact hcurrent c' call (by simpa [State.send, State.setClerk, hc] using hcall)
    · intro req hreq
      rcases List.mem_append.mp hreq with hreq | hreq
      · exact hpending req hreq
      · obtain rfl := List.mem_singleton.mp hreq
        exact hlt.ne'
  | execute i =>
    obtain ⟨req, -, rfl⟩ := State.step_execute hstep
    exact ⟨hlt, hcurrent, fun req hreq => hpending req (List.mem_of_mem_eraseIdx hreq)⟩
  | drop i =>
    obtain rfl := State.step_drop hstep
    exact ⟨hlt, hcurrent, fun req hreq => hpending req (List.mem_of_mem_eraseIdx hreq)⟩
  | deliver c i =>
    obtain ⟨-, rfl⟩ := State.step_deliver hstep
    refine ⟨hlt, ?_, hpending⟩
    intro c' call hcall
    by_cases hc : c' = c
    · simp [State.setClerk, hc] at hcall
    · exact hcurrent c' call (by simpa [State.setClerk, hc] using hcall)
  | fail c =>
    obtain ⟨call, hold, rfl⟩ := State.step_fail hstep
    refine ⟨hlt, ?_, ?_⟩
    · intro c' call' hcall
      by_cases hc : c' = c
      · obtain rfl : call.again = call' := by simpa [State.send, State.setClerk, hc] using hcall
        exact hcurrent c call hold
      · exact hcurrent c' call' (by simpa [State.send, State.setClerk, hc] using hcall)
    · intro req hreq
      rcases List.mem_append.mp hreq with hreq | hreq
      · exact hpending req hreq
      · obtain rfl := List.mem_singleton.mp hreq
        exact hcurrent c call hold

/-- A key that is there stays there. -/
theorem step_present {s t : State} {a : Action} (h : s.step a = some t) {key : String}
    (hkey : (s.server.cache key).isSome) : (t.server.cache key).isSome := by
  rcases step_key h key with ⟨hsame, -⟩ | ⟨i, req, value, -, -, -, -, hcache⟩
  · rwa [hsame]
  · rw [hcache]
    rfl

/-! ## Definite errors -/

/-- An error is ErrVersion, or ErrNoKey with no such key. -/
theorem KVServer.handle_error {kv : KVServer} {req : Request} {err : Err}
    (h : (kv.handle req).2 = .put ⟨err⟩) (hok : err ≠ .ok) :
    err = .errVersion ∨ (err = .errNoKey ∧ kv.cache req.op.key = none) := by
  cases hop : req.op with
  | get key => simp [KVServer.handle, hop] at h
  | put key value version =>
    cases hdup : kv.dupPut ⟨key, value, version, req.clientId, req.seqNum⟩ with
    | some reply =>
      obtain rfl : reply = ⟨err⟩ := by simpa [KVServer.handle, hop, KVServer.put, hdup] using h
      exact absurd (KVServer.dupPut_ok hdup) hok
    | none =>
      rcases KVServer.put_executed hdup with ⟨-, hput⟩ | ⟨-, hput⟩
      · simp only [KVServer.handle, hop, hput, Reply.put.injEq, PutReply.mk.injEq] at h
        exact absurd h.symm hok
      · simp only [KVServer.handle, hop, hput, Reply.put.injEq, PutReply.mk.injEq] at h
        subst h
        cases hlook : kv.cache key with
        | none => exact Or.inr ⟨by simp, hlook⟩
        | some pair => exact Or.inl (by simp)

/-- An error other than ErrMaybe is the server's, and ErrVersion that for the first attempt. -/
theorem Call.result_error {call : Call} {reply : Reply} {err : Err}
    (h : call.result reply = .put ⟨err⟩) (hmaybe : err ≠ .errMaybe) :
    reply = .put ⟨err⟩ ∧ (err = .errVersion → call.firstAttempt = true) := by
  cases reply with
  | get reply => contradiction
  | put reply =>
    simp only [Call.result, Reply.put.injEq] at h
    split at h
    · obtain rfl : Err.errMaybe = err := by simpa using h
      contradiction
    · rename_i hnot
      subst h
      refine ⟨rfl, fun hver => ?_⟩
      by_contra hfirst
      exact hnot ⟨hver, by simpa using hfirst⟩

/-- If an action returns ErrNoKey for a `Put`, no request of the call is in flight and none was
executed after the one that is answered. -/
def State.answeredLast (s : State) (a : Action) : Bool :=
  match a, s.returned a with
  | .deliver _ i, some (call, .put ⟨.errNoKey⟩) =>
    s.pending.all (fun req => req.call != call.id) &&
      (s.executed.drop (i + 1)).all (fun x => x.1.call != call.id)
  | _, _ => true

section Definite

variable {tr : List (State × Action)} {t : State} (hrun : kvsrv.Run .initial tr t)
include hrun

/-- A call that returned and has no request in flight changes nothing later. -/
theorem not_changes_after {d n e : ℕ} {w : State} {a : Action} {call : Call} {reply : Reply}
    (hd : tr[d]? = some (w, a)) (hret : w.returned a = some (call, reply)) (hn : call.id = n)
    (hpending : ∀ req ∈ w.pending, req.call ≠ n) (hde : d ≤ e) : ¬ ChangesAt tr e n := by
  rintro ⟨u, req, ⟨i, he, hreq⟩, hcall, -⟩
  obtain ⟨c, j, reply', rfl, hcurrent, -, -⟩ := State.returned_eq_some hret
  have hrunw := (hrun.at_step hd).1
  obtain ⟨w', hw', hstep⟩ := hrun.visited_succ hd
  have hover : Over n w' := by
    obtain ⟨-, rfl⟩ := State.step_deliver hstep
    refine ⟨hn ▸ (Sent.of_run hrunw).current c call hcurrent, ?_, hpending⟩
    intro c' call' hcall' hid
    by_cases hc : c' = c
    · simp [State.setClerk, hc] at hcall'
    · exact hc ((Sent.of_run hrunw).distinct c' c call' call
        (by simpa [State.setClerk, hc] using hcall') hcurrent (hid.trans hn.symm))
  have hlt : d < e := by
    rcases Nat.lt_or_eq_of_le hde with hlt | rfl
    · exact hlt
    · rw [hd] at he
      simp at he
  have hkept := hrun.kept (I := Over n) (fun _ _ _ hs hst => hs.step hst) hlt hw'
    (visited_of_step he) hover
  exact hkept.2.2 req (List.mem_of_getElem? hreq) hcall

/-- An attempt of the call that was executed before the return, with its reply OK at its place. -/
theorem ChangesAt.entry {e d n : ℕ} {w : State} (h : ChangesAt tr e n) (hed : e < d)
    (hd : (visited tr t)[d]? = some w) : ∃ u req, ExecutedAt tr e u req ∧ req.call = n ∧
      u.server.writes req = true ∧ w.executed[u.executed.length]? = some (req, .put ⟨.ok⟩) := by
  obtain ⟨u, req, he, hn, hne⟩ := h
  have hwrites := KVServer.writes_iff.mpr hne
  obtain ⟨key, value, version, -, -, hhandle⟩ := KVServer.handle_writes hwrites
  have hentry := he.entry hrun hed hd
  rw [hhandle] at hentry
  exact ⟨u, req, he, hn, hwrites, hentry⟩

/-- A first attempt that is answered by an error is the only one, and it changed nothing. -/
theorem not_changes_of_first {d e : ℕ} {w : State} {c : Int64} {i : ℕ} {call : Call} {err : Err}
    (hd : tr[d]? = some (w, .deliver c i)) (hcurrent : (w.clerks c).call = some call)
    (hanswer : w.executed[i]? = some (call.request c, .put ⟨err⟩)) (hok : err ≠ .ok)
    (hfirst : call.firstAttempt = true) :
    (∀ req ∈ w.pending, req.call ≠ call.id) ∧ (e < d → ¬ ChangesAt tr e call.id) := by
  have hrunw := (hrun.at_step hd).1
  obtain ⟨-, hnodup, hdisjoint⟩ := List.nodup_append.mp (Sent.of_run hrunw).nodup
  have hanswered : call.request c ∈ w.executed.map Prod.fst :=
    List.mem_map_of_mem (List.mem_of_getElem? hanswer)
  refine ⟨?_, ?_⟩
  · intro req hreq hid
    have hsame := first_request hrunw hcurrent hfirst (List.mem_append_left _ hreq) hid
    exact hdisjoint req hreq _ hanswered hsame
  · intro hlt hchanges
    obtain ⟨u, req, -, hid, -, hentry⟩ := hchanges.entry hrun hlt (visited_of_step hd)
    have hmem := List.mem_of_getElem? hentry
    have hsame := first_request hrunw hcurrent hfirst
      (List.mem_append_right _ (List.mem_map_of_mem hmem)) hid
    have hreply := List.inj_on_of_nodup_map hnodup hmem (List.mem_of_getElem? hanswer) hsame
    simp [hok.symm] at hreply

/-- Before an attempt that is answered ErrNoKey the key was never there. -/
theorem not_changes_before_noKey {e e' : ℕ} {u' : State} {req' : Request}
    (he' : ExecutedAt tr e' u' req') (habsent : u'.server.cache req'.op.key = none) (hlt : e < e') :
    ¬ ChangesAt tr e req'.call := by
  rintro ⟨u, req, he, hcall, hne⟩
  obtain ⟨key, value, version, hop, -, hhandle⟩ :=
    KVServer.handle_writes (KVServer.writes_iff.mpr hne)
  rw [← he.same_call hrun he' hcall, hop, Op.key] at habsent
  obtain ⟨i, hi, hreq⟩ := he
  obtain ⟨i', hi', -⟩ := he'
  obtain ⟨w, hw, hstep⟩ := hrun.visited_succ hi
  have hthere : (w.server.cache key).isSome := by
    obtain ⟨req₁, hreq₁, rfl⟩ := State.step_execute hstep
    obtain rfl := Option.some.inj (hreq.symm.trans hreq₁)
    simp [State.execute, hhandle]
  have hkept := hrun.kept (I := fun s => (s.server.cache key).isSome)
    (fun _ _ _ hs hst => step_present hst hs) hlt hw (visited_of_step hi') hthere
  simp [habsent] at hkept

/-- In every run in which ErrNoKey is returned for a `Put` only as `answeredLast` says: if a `Put`
returns an error other than ErrMaybe, no attempt of it changes the store, before the return or
after it. -/
theorem definite (hlast : ∀ x ∈ tr, x.1.answeredLast x.2 = true) {d n : ℕ} {err : Err}
    (hret : ReturnsAt tr d n (.put ⟨err⟩)) (hok : err ≠ .ok) (hmaybe : err ≠ .errMaybe) (e : ℕ) :
    ¬ ChangesAt tr e n := by
  intro hchanges
  obtain ⟨w, a, call, hd, hreturned, rfl⟩ := hret
  obtain ⟨c, i, r, rfl, hcurrent, hanswer, hres⟩ := State.returned_eq_some hreturned
  obtain ⟨rfl, hfirst⟩ := Call.result_error hres.symm hmaybe
  obtain ⟨e', u', he', hidx, hhandle⟩ :=
    (History.of_run (hrun.at_step hd).1).executed i _ _ hanswer
  obtain ⟨hlt', hexec'⟩ := he'.of_take
  rcases KVServer.handle_error hhandle hok with rfl | ⟨rfl, habsent⟩
  · obtain ⟨hpending, hbefore⟩ := not_changes_of_first (e := e) hrun hd hcurrent hanswer hok (hfirst rfl)
    rcases Nat.lt_or_ge e d with hlt | hge
    · exact hbefore hlt hchanges
    · exact not_changes_after hrun hd hreturned rfl hpending hge hchanges
  · have hcond := hlast _ (List.mem_of_getElem? hd)
    simp only [State.answeredLast, hreturned, Bool.and_eq_true, List.all_eq_true, bne_iff_ne] at hcond
    obtain ⟨hpending, hnone⟩ := hcond
    rcases Nat.lt_or_ge e d with hlt | hge
    · obtain ⟨u, req, he, hid, hwrites, hentry⟩ := hchanges.entry hrun hlt (visited_of_step hd)
      rcases lt_trichotomy e e' with hee | rfl | hee
      · exact not_changes_before_noKey hrun hexec' habsent hee hchanges
      · -- it is the one that is answered
        obtain ⟨j, hj, hreq⟩ := he
        obtain ⟨j', hj', -⟩ := hexec'
        obtain rfl : u = u' := by
          have hsame := Option.some.inj (hj.symm.trans hj')
          exact (Prod.mk.inj hsame).1
        rw [hidx, hanswer] at hentry
        simp at hentry
      · -- it was executed after the one that is answered
        obtain ⟨j, hj, -⟩ := id he
        have hlen := (List.getElem?_eq_some_iff.mp
          (hexec'.entry hrun hee (visited_of_step hj))).1
        have hlater : (w.executed.drop (i + 1))[u.executed.length - (i + 1)]? =
            some (req, .put ⟨.ok⟩) := by
          rw [List.getElem?_drop,
            show i + 1 + (u.executed.length - (i + 1)) = u.executed.length by omega]
          exact hentry
        exact hnone _ (List.mem_of_getElem? hlater) hid
    · exact not_changes_after hrun hd hreturned rfl hpending hge hchanges

end Definite

/-- A first attempt that is lost, an answer of ErrNoKey to the second, and another client that
creates the key after it. -/
def lostFirst : List Action :=
  [.call 1 (.put "k" "x" 1), .fail 1, .drop 0, .execute 0, .deliver 1 0, .call 2 (.put "k" "v" 0),
    .execute 0, .deliver 2 1]

theorem definite_lostFirst :
    ReturnsAt (traceOf State.step .initial lostFirst) 4 0 (.put ⟨.errNoKey⟩) ∧
      ∀ e, ¬ ChangesAt (traceOf State.step .initial lostFirst) e 0 := by
  have hrun : kvsrv.Run .initial (traceOf State.step .initial lostFirst)
      (after State.step .initial lostFirst) :=
    Lts.run_of_steps (fun _ _ _ h => h) (by decide)
  have hret : ReturnsAt (traceOf State.step .initial lostFirst) 4 0 (.put ⟨.errNoKey⟩) :=
    ⟨_, _, ⟨0, .put "k" "x" 1, 1, 1, false⟩, rfl, by decide, rfl⟩
  exact ⟨hret, definite hrun (List.all_eq_true.mp (by decide)) hret (by decide) (by decide)⟩

/-- A first attempt that is delayed: the second is answered ErrNoKey and the call returns, another
client creates the key, and then the first is executed. -/
def delayedFirst : List Action :=
  [.call 1 (.put "k" "x" 1), .fail 1, .execute 1, .deliver 1 0, .call 2 (.put "k" "v" 0),
    .execute 1, .execute 0]

/-- ErrNoKey is not definite: the `Put` that returned it changes the store later. -/
theorem late_attempt :
    kvsrv.Run .initial (traceOf State.step .initial delayedFirst)
        (after State.step .initial delayedFirst) ∧
      ReturnsAt (traceOf State.step .initial delayedFirst) 3 0 (.put ⟨.errNoKey⟩) ∧
      ChangesAt (traceOf State.step .initial delayedFirst) 6 0 := by
  refine ⟨Lts.run_of_steps (fun _ _ _ h => h) (by decide),
    ⟨_, _, ⟨0, .put "k" "x" 1, 1, 1, false⟩, rfl, by decide, rfl⟩,
    ⟨_, ⟨0, 0, 1, 1, .put "k" "x" 1⟩, ⟨0, rfl, by decide⟩, rfl, ?_⟩⟩
  exact KVServer.writes_iff.mp (by decide)

end DistSys.Kvsrv1
