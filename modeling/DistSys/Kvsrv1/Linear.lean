import DistSys.Kvsrv1.History

/- Every Clerk call takes effect once, inside its interval.

   A `Put` that takes effect raises the version of its key by one, and it is executed again only
   at higher versions (`version_passed`): so it takes effect once, whatever the table holds. The
   branch of `Put` that answers from the table would need a request that took effect and whose
   version is still the current one, and is never taken (`dupPut_eq_none`). A `Get` is answered by
   what was read for it now, or by what was read for an earlier attempt of the same call. The last
   two need that a SeqNum stands for one call of its client; `seqNum_reused` is a run in which it
   stands for two. -/
namespace DistSys.Kvsrv1

open Lib

/-! ## Versions count the `Put`s that take effect -/

/-- The call whose `Put` takes effect at the key by a step. -/
def writtenBy (key : String) : State × Action → Option Nat
  | (s, .execute i) => s.pending[i]?.bind fun req =>
      if s.server.writes req = true ∧ req.op.key = key then some req.call else none
  | _ => none

/-- The call of `Put` on the key that a step makes. -/
def putBy (key : String) : State × Action → Option Nat
  | (s, .call _ (.put key' _ _)) => if key' = key then some s.calls else none
  | _ => none

def writesKey (key : String) (x : State × Action) : Bool := (writtenBy key x).isSome

def putsKey (key : String) (x : State × Action) : Bool := (putBy key x).isSome

theorem writtenBy_eq_some {key : String} {s : State} {a : Action} {n : Nat} :
    writtenBy key (s, a) = some n ↔ ∃ i req, a = .execute i ∧ s.pending[i]? = some req ∧
      s.server.writes req = true ∧ req.op.key = key ∧ req.call = n := by
  cases a with
  | execute i =>
    cases hreq : s.pending[i]? with
    | none => simp [writtenBy, hreq]
    | some req =>
      simp only [writtenBy, hreq, Option.bind_some, Option.ite_none_right_eq_some,
        Option.some.injEq, Action.execute.injEq, and_assoc]
      constructor
      · rintro ⟨hwrites, hkey, hn⟩
        exact ⟨i, req, rfl, hreq, hwrites, hkey, hn⟩
      · rintro ⟨i', req', rfl, hreq', hrest⟩
        obtain rfl := Option.some.inj (hreq.symm.trans hreq')
        exact hrest
  | call c op => simp [writtenBy]
  | drop i => simp [writtenBy]
  | deliver c i => simp [writtenBy]
  | fail c => simp [writtenBy]

/-- Only executions touch the server. -/
theorem step_server {s t : State} {a : Action} (h : s.step a = some t) :
    (t.server = s.server ∧ ∀ i, a ≠ .execute i) ∨
      ∃ i req, a = .execute i ∧ s.pending[i]? = some req ∧
        t.server = (s.server.handle req).1 := by
  cases a with
  | execute i =>
    obtain ⟨req, hreq, rfl⟩ := State.step_execute h
    exact Or.inr ⟨i, req, rfl, hreq, rfl⟩
  | call c op =>
    obtain ⟨-, rfl⟩ := State.step_call h
    exact Or.inl ⟨rfl, by simp⟩
  | drop i =>
    obtain rfl := State.step_drop h
    exact Or.inl ⟨rfl, by simp⟩
  | deliver c i =>
    obtain ⟨-, rfl⟩ := State.step_deliver h
    exact Or.inl ⟨rfl, by simp⟩
  | fail c =>
    obtain ⟨call, -, rfl⟩ := State.step_fail h
    exact Or.inl ⟨rfl, by simp⟩

/-- What a step can do to a key: nothing, or a `Put` at its version takes effect. -/
theorem step_key {s t : State} {a : Action} (h : s.step a = some t) (key : String) :
    (t.server.cache key = s.server.cache key ∧ writesKey key (s, a) = false) ∨
      ∃ i req value, a = .execute i ∧ s.pending[i]? = some req ∧ s.server.writes req = true ∧
        req.op = .put key value (versionOf s.server.cache key) ∧
        t.server.cache key = some ⟨value, versionOf s.server.cache key + 1⟩ := by
  rcases step_server h with ⟨hserver, hnot⟩ | ⟨i, req, rfl, hreq, hserver⟩
  · refine Or.inl ⟨by rw [hserver], ?_⟩
    cases hby : writtenBy key (s, a) with
    | none => simp [writesKey, hby]
    | some n =>
      obtain ⟨i, -, ha, -⟩ := writtenBy_eq_some.mp hby
      exact absurd ha (hnot i)
  · cases hwrites : s.server.writes req with
    | false =>
      refine Or.inl ⟨by rw [hserver, KVServer.handle_cache hwrites], ?_⟩
      simp [writesKey, writtenBy, hreq, hwrites]
    | true =>
      obtain ⟨key', value, version, hop, hver, hhandle⟩ := KVServer.handle_writes hwrites
      by_cases hkey : key' = key
      · subst hkey
        subst hver
        exact Or.inr ⟨i, req, value, rfl, hreq, hwrites, hop, by simp [hserver, hhandle]⟩
      · refine Or.inl ⟨by simp [hserver, hhandle, Ne.symm hkey], ?_⟩
        simp [writesKey, writtenBy, hreq, hwrites, hop, Op.key, hkey]

/-- The version of a key counts the `Put`s that take effect at it. -/
theorem version_counts (key : String) :
    kvsrv.Counts (2 ^ 64) (fun s => (versionOf s.server.cache key).toNat) (writesKey key) where
  raises := by
    intro s a t hstep hmark
    rcases step_key hstep key with ⟨-, hnot⟩ | ⟨i, req, value, -, -, -, -, hcache⟩
    · rw [hnot] at hmark
      contradiction
    · have hver : versionOf t.server.cache key = versionOf s.server.cache key + 1 := by
        rw [versionOf, hcache]
      simp [hver, UInt64.toNat_add]
  keeps := by
    intro s a t hstep hmark
    rcases step_key hstep key with ⟨hsame, -⟩ | ⟨i, req, value, rfl, hreq, hwrites, hop, -⟩
    · simp only [versionOf, hsame]
    · simp [writesKey, writtenBy, hreq, hwrites, hop, Op.key] at hmark

/-! ## Attempts of one call -/

section Attempts

variable {tr : List (State × Action)} {t : State} (hrun : kvsrv.Run .initial tr t)
include hrun

/-- A request is executed after its call. -/
theorem ExecutedAt.called {e : ℕ} {u : State} {req : Request} (h : ExecutedAt tr e u req) :
    ∃ p, p < e ∧ CalledAt tr p req.call req.clientId req.op req.seqNum := by
  obtain ⟨i, he, hreq⟩ := h
  obtain ⟨p, hp⟩ := (History.of_run (hrun.at_step he).1).pending req (List.mem_of_getElem? hreq)
  exact ⟨p, hp.of_take⟩

/-- The requests of a call are alike. -/
theorem ExecutedAt.same_call {e e' : ℕ} {u u' : State} {req req' : Request}
    (h : ExecutedAt tr e u req) (h' : ExecutedAt tr e' u' req') (hcall : req.call = req'.call) :
    req.op = req'.op := by
  obtain ⟨p, -, hp⟩ := h.called hrun
  obtain ⟨p', -, hp'⟩ := h'.called hrun
  rw [← hcall] at hp'
  exact (hp.unique hrun hp').2.2.1

/-- Requests of one client with one SeqNum are attempts of one call. -/
theorem ExecutedAt.same_seqNum {e e' : ℕ} {u u' : State} {req req' : Request}
    (hfew : tr.countP (callsOf req.clientId) < 2 ^ 64)
    (h : ExecutedAt tr e u req) (h' : ExecutedAt tr e' u' req')
    (hclient : req'.clientId = req.clientId) (hseq : req'.seqNum = req.seqNum) :
    req'.call = req.call ∧ req'.op = req.op := by
  obtain ⟨p, -, hp⟩ := h.called hrun
  obtain ⟨p', -, hp'⟩ := h'.called hrun
  rw [hclient, hseq] at hp'
  obtain ⟨-, hn, hop⟩ := hp'.unique_seqNum hrun hfew hp
  exact ⟨hn, hop⟩

/-- Once a `Put` took effect the version it names is passed. -/
theorem version_passed {e j : ℕ} {u w : State} {req : Request} {key value : String}
    {version : Tversion} (hfew : tr.countP (writesKey key) < 2 ^ 64) (he : ExecutedAt tr e u req)
    (hwrites : u.server.writes req = true) (hop : req.op = .put key value version) (hej : e < j)
    (hj : (visited tr t)[j]? = some w) :
    version.toNat < (versionOf w.server.cache key).toNat := by
  obtain ⟨i, hi, hreq⟩ := he
  obtain ⟨key', value', version', hop', hver, -⟩ := KVServer.handle_writes hwrites
  obtain ⟨rfl, rfl, rfl⟩ : key = key' ∧ value = value' ∧ version = version' := by
    simpa [hop] using hop'
  rw [hver]
  refine (version_counts key).val_lt rfl hrun hfew hej hi ?_ hj
  simp [writesKey, writtenBy, hreq, hwrites, hop, Op.key]

/-- A `Put` that took effect does not take effect again, by any attempt. -/
theorem not_writes_again {e j : ℕ} {u w : State} {req req' : Request}
    (hfew : tr.countP (writesKey req.op.key) < 2 ^ 64) (he : ExecutedAt tr e u req)
    (hwrites : u.server.writes req = true) (hej : e < j) (hj : (visited tr t)[j]? = some w)
    (hop : req'.op = req.op) : w.server.writes req' = false := by
  by_contra hagain
  obtain ⟨key, value, version, hput, -, -⟩ := KVServer.handle_writes hwrites
  obtain ⟨key', value', version', hput', hver, -⟩ :=
    KVServer.handle_writes (by simpa using hagain)
  obtain ⟨rfl, rfl, rfl⟩ : key = key' ∧ value = value' ∧ version = version' := by
    rw [hop, hput] at hput'
    simpa using hput'
  rw [hput, Op.key] at hfew
  have hlt := version_passed hrun hfew he hwrites hput hej hj
  rw [← hver] at hlt
  exact lt_irrefl _ hlt

/-- The calls whose `Put`s take effect at a key are different calls of `Put` on it. -/
theorem writtenBy_nodup (key : String) (hputs : tr.countP (putsKey key) < 2 ^ 64) :
    (tr.filterMap (writtenBy key)).Nodup ∧
      tr.filterMap (writtenBy key) ⊆ tr.filterMap (putBy key) := by
  induction hrun with
  | nil => simp
  | @snoc tr s t a hrun hstep ih =>
    rw [List.countP_append] at hputs
    obtain ⟨hnodup, hsub⟩ := ih (by omega)
    have hfew : tr.countP (writesKey key) < 2 ^ 64 := by
      have hle := (hnodup.subperm hsub).length_le
      rw [List.length_filterMap_eq_countP, List.length_filterMap_eq_countP] at hle
      exact lt_of_le_of_lt hle (by unfold putsKey at hputs; omega)
    rw [List.filterMap_append, List.filterMap_append]
    cases hnew : writtenBy key (s, a) with
    | none =>
      simp only [List.filterMap_cons, hnew, List.filterMap_nil, List.append_nil]
      exact ⟨hnodup, List.Subset.trans hsub (List.subset_append_left _ _)⟩
    | some n =>
      obtain ⟨i, req, rfl, hreq, hwrites, hkey, hn⟩ := writtenBy_eq_some.mp hnew
      obtain ⟨p, hp⟩ := (History.of_run hrun).pending req (List.mem_of_getElem? hreq)
      simp only [List.filterMap_cons, hnew, List.filterMap_nil]
      refine ⟨List.nodup_append.mpr ⟨hnodup, by simp, ?_⟩, ?_⟩
      · -- an earlier one of the same call has passed the version
        intro m hm m' hm' heq
        obtain rfl := List.mem_singleton.mp hm'
        obtain ⟨⟨u, b⟩, hmem, hold⟩ := List.mem_filterMap.mp hm
        obtain ⟨i', req', rfl, hreq', hwrites', hkey', hn'⟩ := writtenBy_eq_some.mp hold
        obtain ⟨e, he⟩ := List.mem_iff_getElem?.mp hmem
        have hexec : ExecutedAt tr e u req' := ⟨i', he, hreq'⟩
        obtain ⟨p', -, hp'⟩ := hexec.called hrun
        rw [hn', heq, ← hn] at hp'
        have hagain := not_writes_again hrun (by rwa [hkey']) hexec hwrites'
          (List.getElem?_eq_some_iff.mp he).1 visited_last (hp.unique hrun hp').2.2.1
        rw [hwrites] at hagain
        contradiction
      · intro m hm
        rcases List.mem_append.mp hm with hm | hm
        · exact List.mem_append_left _ (hsub hm)
        · obtain rfl := List.mem_singleton.mp hm
          obtain ⟨key', value, version, hop, -, -⟩ := KVServer.handle_writes hwrites
          obtain ⟨u, hp, hcalls, -⟩ := hp
          refine List.mem_append_left _ (List.mem_filterMap.mpr ⟨_, List.mem_of_getElem? hp, ?_⟩)
          obtain rfl : key' = key := by simpa [hop, Op.key] using hkey
          simp [putBy, hop, hcalls, hn]

/-- No more `Put`s take effect at a key than are called. -/
theorem writes_le_puts (key : String) (hputs : tr.countP (putsKey key) < 2 ^ 64) :
    tr.countP (writesKey key) ≤ tr.countP (putsKey key) := by
  obtain ⟨hnodup, hsub⟩ := writtenBy_nodup hrun key hputs
  have hle := (hnodup.subperm hsub).length_le
  rwa [List.length_filterMap_eq_countP, List.length_filterMap_eq_countP] at hle

/-! ## The table never answers a `Put` -/

/-- An attempt that the table would answer took effect before, at a version that is passed. -/
theorem dupPut_eq_none {e : ℕ} {u : State} {req : Request} {key value : String}
    {version : Tversion} (hcalls : tr.countP (callsOf req.clientId) < 2 ^ 64)
    (hfew : tr.countP (writesKey key) < 2 ^ 64) (h : ExecutedAt tr e u req)
    (hop : req.op = .put key value version) :
    u.server.dupPut ⟨key, value, version, req.clientId, req.seqNum⟩ = none := by
  cases hdup : u.server.dupPut ⟨key, value, version, req.clientId, req.seqNum⟩ with
  | none => rfl
  | some reply =>
    obtain ⟨dup, hentry, hseq, hreply, hver⟩ := KVServer.dupPut_eq_some hdup
    obtain ⟨i, hi, hreq⟩ := h
    obtain ⟨e', u', req', he', hclient, hseq', hwrites⟩ :=
      (History.of_run (hrun.at_step hi).1).puts req.clientId dup reply hentry hreply
    obtain ⟨hlt, hexec⟩ := he'.of_take
    obtain ⟨-, hop'⟩ := ExecutedAt.same_seqNum hrun hcalls ⟨i, hi, hreq⟩ hexec hclient
      (hseq'.trans hseq)
    have hpassed := version_passed hrun hfew hexec hwrites (hop'.trans hop) hlt (visited_of_step hi)
    rw [← hver] at hpassed
    exact absurd hpassed (lt_irrefl _)

/-- A `Put` that is answered OK takes effect. -/
theorem ExecutedAt.writes_of_ok {e : ℕ} {u : State} {req : Request}
    (hcalls : tr.countP (callsOf req.clientId) < 2 ^ 64)
    (hfew : tr.countP (writesKey req.op.key) < 2 ^ 64) (h : ExecutedAt tr e u req)
    (hok : (u.server.handle req).2 = .put ⟨.ok⟩) : u.server.writes req = true := by
  cases hop : req.op with
  | get key => simp [KVServer.handle, hop] at hok
  | put key value version =>
    rw [hop, Op.key] at hfew
    have hdup := dupPut_eq_none hrun hcalls hfew h hop
    rcases KVServer.put_executed hdup with ⟨hver, -⟩ | ⟨-, hput⟩
    · simpa [KVServer.writes, hop, hdup] using hver
    · simp only [KVServer.handle, hop, hput, Reply.put.injEq, PutReply.mk.injEq] at hok
      split at hok <;> contradiction

/-- A `Get` is answered by what was read for an attempt of its call. -/
theorem ExecutedAt.read {e : ℕ} {u : State} {req : Request} {key : String} {reply : GetReply}
    (hcalls : tr.countP (callsOf req.clientId) < 2 ^ 64) (h : ExecutedAt tr e u req)
    (hop : req.op = .get key) (hreply : (u.server.handle req).2 = .get reply) :
    ∃ e' u' req', (e' < e ∨ (e' = e ∧ u' = u)) ∧ ExecutedAt tr e' u' req' ∧
      req'.call = req.call ∧ reply = readReply u'.server.cache key ∧
      (u'.server.handle req').2 = .get reply := by
  cases hdup : u.server.dupGet ⟨key, req.clientId, req.seqNum⟩ with
  | none =>
    refine ⟨e, u, req, Or.inr ⟨rfl, rfl⟩, h, rfl, ?_, hreply⟩
    simpa [KVServer.handle, hop, KVServer.get, hdup] using hreply.symm
  | some reply' =>
    obtain rfl : reply' = reply := by
      simpa [KVServer.handle, hop, KVServer.get, hdup] using hreply
    obtain ⟨dup, hentry, hseq, hget⟩ := KVServer.dupGet_eq_some hdup
    obtain ⟨i, hi, hreq⟩ := h
    obtain ⟨e', u', req', key', he', hclient, hseq', hop', hread, hreplied⟩ :=
      (History.of_run (hrun.at_step hi).1).gets req.clientId dup reply' hentry hget
    obtain ⟨hlt, hexec⟩ := he'.of_take
    obtain ⟨hcall, hsame⟩ := ExecutedAt.same_seqNum hrun hcalls ⟨i, hi, hreq⟩ hexec hclient
      (hseq'.trans hseq)
    obtain rfl : key' = key := by
      rw [hop, hop'] at hsame
      simpa using hsame
    exact ⟨e', u', req', Or.inl hlt, hexec, hcall, hread, hreplied⟩

end Attempts

/-! ## Calls and returns -/

/-- An attempt of call `n` changes the store at step `e`. -/
def ChangesAt (tr : List (State × Action)) (e n : ℕ) : Prop :=
  ∃ u req, ExecutedAt tr e u req ∧ req.call = n ∧ (u.server.handle req).1.cache ≠ u.server.cache

/-- Call `n` returns at step `d`. -/
def ReturnsAt (tr : List (State × Action)) (d n : ℕ) (reply : Reply) : Prop :=
  ∃ u a call, tr[d]? = some (u, a) ∧ u.returned a = some (call, reply) ∧ call.id = n

/-- The store is changed at most once by all attempts of a call; a `Put` that returns OK changed it
once, between its call and its return; and a `Get` returns what the store held for its key at some
moment between its call and its return. -/
structure Linearized (tr : List (State × Action)) (t : State) : Prop where
  once : ∀ n e e', ChangesAt tr e n → ChangesAt tr e' n → e = e'
  put : ∀ p n c key value version seqNum d, CalledAt tr p n c (.put key value version) seqNum →
    ReturnsAt tr d n (.put ⟨.ok⟩) → ∃ e, p < e ∧ e < d ∧ ∀ e', ChangesAt tr e' n ↔ e' = e
  get : ∀ p n c key seqNum d reply, CalledAt tr p n c (.get key) seqNum →
    ReturnsAt tr d n (.get reply) → ∃ i u, p < i ∧ i ≤ d ∧ (visited tr t)[i]? = some u ∧
      readReply u.server.cache key = reply

theorem Call.result_ok {call : Call} {reply : Reply} (h : call.result reply = .put ⟨.ok⟩) :
    reply = .put ⟨.ok⟩ := by
  cases reply with
  | get reply => contradiction
  | put reply =>
    simp only [Call.result, Reply.put.injEq] at h
    split at h
    · simp at h
    · rw [h]

theorem Call.result_get {call : Call} {reply : Reply} {r : GetReply}
    (h : call.result reply = .get r) : reply = .get r := by
  cases reply with
  | get reply => exact h
  | put reply => contradiction

section Returns

variable {tr : List (State × Action)} {t : State} (hrun : kvsrv.Run .initial tr t)
include hrun

/-- A call returns by the reply to a request of it that was executed. -/
theorem ReturnsAt.executed {d n : ℕ} {r : Reply} (h : ReturnsAt tr d n r) :
    ∃ e u req call, e < d ∧ ExecutedAt tr e u req ∧ req.call = n ∧
      r = Call.result call (u.server.handle req).2 := by
  obtain ⟨w, a, call, hd, hret, rfl⟩ := h
  obtain ⟨c, i, reply, rfl, -, hreply, rfl⟩ := State.returned_eq_some hret
  obtain ⟨e, u, he, -, hhandle⟩ := (History.of_run (hrun.at_step hd).1).executed i _ _ hreply
  obtain ⟨hlt, hexec⟩ := he.of_take
  exact ⟨e, u, _, call, hlt, hexec, rfl, by rw [hhandle]⟩

theorem ChangesAt.unique (hfew : ∀ key, tr.countP (writesKey key) < 2 ^ 64) {n e e' : ℕ}
    (h : ChangesAt tr e n) (h' : ChangesAt tr e' n) : e = e' := by
  -- whichever is later finds the version passed
  have hlater : ∀ {e e' : ℕ}, e < e' → ChangesAt tr e n → ¬ ChangesAt tr e' n := by
    rintro e e' hlt ⟨u, req, he, rfl, hne⟩ ⟨u', req', he', hcall, hne'⟩
    obtain ⟨i', hi', -⟩ := id he'
    have hagain := not_writes_again hrun (hfew req.op.key) he (KVServer.writes_iff.mpr hne) hlt
      (visited_of_step hi') (he'.same_call hrun he hcall)
    rw [KVServer.writes_iff.mpr hne'] at hagain
    contradiction
  rcases lt_trichotomy e e' with hlt | heq | hlt
  · exact absurd h' (hlater hlt h)
  · exact heq
  · exact absurd h (hlater hlt h')

/-- In every run in which fewer than `2 ^ 64` `Put`s are called on each key, the store is changed at
most once by all attempts of a call; and if each clerk makes fewer than `2 ^ 64` calls, the clerks'
calls are linearized. -/
theorem linearized (hputs : ∀ key, tr.countP (putsKey key) < 2 ^ 64) :
    (∀ n e e', ChangesAt tr e n → ChangesAt tr e' n → e = e') ∧
      ((∀ c, tr.countP (callsOf c) < 2 ^ 64) → Linearized tr t) := by
  have hfew : ∀ key, tr.countP (writesKey key) < 2 ^ 64 := fun key =>
    lt_of_le_of_lt (writes_le_puts hrun key (hputs key)) (hputs key)
  have honce : ∀ n e e', ChangesAt tr e n → ChangesAt tr e' n → e = e' :=
    fun n e e' h h' => h.unique hrun hfew h'
  refine ⟨honce, fun hcalls => ⟨honce, ?_, ?_⟩⟩
  · intro p n c key value version seqNum d hp hret
    obtain ⟨e, u, req, call, hlt, hexec, rfl, hres⟩ := hret.executed hrun
    have hwrites := hexec.writes_of_ok hrun (hcalls _) (hfew _) (Call.result_ok hres.symm)
    have hchanges : ChangesAt tr e req.call := ⟨u, req, hexec, rfl, KVServer.writes_iff.mp hwrites⟩
    obtain ⟨p', hpe, hp'⟩ := hexec.called hrun
    obtain rfl := (hp.unique hrun hp').1
    refine ⟨e, hpe, hlt, fun e' => ⟨fun h => honce _ _ _ h hchanges, ?_⟩⟩
    rintro rfl
    exact hchanges
  · intro p n c key seqNum d reply hp hret
    obtain ⟨e, u, req, call, hlt, hexec, rfl, hres⟩ := hret.executed hrun
    obtain ⟨p₁, -, hp₁⟩ := hexec.called hrun
    obtain ⟨-, -, hop, -⟩ := hp.unique hrun hp₁
    obtain ⟨e', u', req', hle, hexec', hcall, hread, -⟩ :=
      hexec.read hrun (hcalls _) hop.symm (Call.result_get hres.symm)
    obtain ⟨p', hpe, hp'⟩ := hexec'.called hrun
    rw [hcall] at hp'
    obtain rfl := (hp.unique hrun hp').1
    obtain ⟨i, hi, -⟩ := hexec'
    exact ⟨e', u', hpe, by omega, visited_of_step hi, hread.symm⟩

end Returns

/-- A `Put` whose first reply is lost and that is sent again, and a `Get` of another client. -/
def retried : List Action :=
  [.call 1 (.put "k" "v" 0), .execute 0, .fail 1, .execute 0, .deliver 1 1, .call 2 (.get "k"),
    .execute 0, .deliver 2 2]

theorem linearized_retried :
    kvsrv.Run .initial (traceOf State.step .initial retried) (after State.step .initial retried) ∧
      Linearized (traceOf State.step .initial retried) (after State.step .initial retried) := by
  have hrun : kvsrv.Run .initial (traceOf State.step .initial retried)
      (after State.step .initial retried) :=
    Lts.run_of_steps (fun _ _ _ h => h) (by decide)
  exact ⟨hrun, (linearized hrun fun _ => lt_of_le_of_lt List.countP_le_length (by decide)).2
    fun _ => lt_of_le_of_lt List.countP_le_length (by decide)⟩

/-! ## A SeqNum that comes back

The table has the reply to a `Get` of client 1, and keeps it while the client's `Put`s fail. After
`2 ^ 64` calls the SeqNum is the same again. -/

section Reused

/-- Client 1 is idle, with its `Get` number 1 in the table, and nothing was written to `x`. -/
structure Stale (s : State) (seqNum : Int64) : Prop where
  clerk : s.clerks 1 = ⟨seqNum, none⟩
  absent : s.server.cache "x" = none
  present : s.server.cache "k" = some ⟨"v", 1⟩
  entry : s.server.clientMap 1 = some ⟨1, some ⟨"", 0, .errNoKey⟩, none⟩

/-- A `Put` that fails leaves the server as it is. -/
theorem Stale.failing {s : State} {seqNum : Int64} (h : Stale s seqNum) :
    Stale (s.exchanged 1 (.put "x" "" 1)) (seqNum + 1) := by
  have hserver : (s.server.handle ((s.newCall 1 (.put "x" "" 1)).request 1)).1 = s.server := by
    simp [KVServer.handle, Call.request, State.newCall, KVServer.put, KVServer.dupPut, h.entry,
      h.absent]
  refine ⟨?_, ?_, ?_, ?_⟩
  · simp [State.exchanged, State.setClerk, State.newCall, h.clerk]
  · exact (congrArg (fun kv => KVServer.cache kv "x") hserver).trans h.absent
  · exact (congrArg (fun kv => KVServer.cache kv "k") hserver).trans h.present
  · exact (congrArg (fun kv => KVServer.clientMap kv 1) hserver).trans h.entry

/-- Any number of them. -/
theorem Stale.rounds {s : State} {seqNum : Int64} (h : Stale s seqNum) (n : ℕ) :
    ∃ tr t, kvsrv.Run s tr t ∧ Stale t (seqNum + Int64.ofNat n) ∧
      ∀ key, tr.countP (putsKey key) = if key = "x" then n else 0 := by
  induction n with
  | zero => exact ⟨[], s, .nil, by simpa using h, by simp⟩
  | succ n ih =>
    obtain ⟨tr, t, hrun, hstale, hcount⟩ := ih
    refine ⟨_, _, hrun.append (t.exchange_run 1 (.put "x" "" 1) (by rw [hstale.clerk])), ?_, ?_⟩
    · have hnext := hstale.failing
      rwa [Int64.add_assoc, show Int64.ofNat n + 1 = Int64.ofNat (n + 1) from
        (Int64.ofNat_add n 1).symm] at hnext
    · intro key
      by_cases hkey : key = "x"
      · simp [hcount, State.exchange, putsKey, putBy, hkey]
      · simp [hcount, State.exchange, putsKey, putBy, hkey, Ne.symm hkey]

/-- Client 1 finds no key, and client 2 creates it. -/
def created : List Action :=
  [.call 1 (.get "k"), .execute 0, .deliver 1 0, .call 2 (.put "k" "v" 0), .execute 0, .deliver 2 1]

theorem stale_created : Stale (after State.step .initial created) 1 :=
  ⟨by decide, by decide, by decide, by decide⟩

theorem created_puts (key : String) : (traceOf State.step .initial created).countP (putsKey key) ≤
    if key = "x" then 0 else 6 := by
  split
  · rename_i hkey
    subst hkey
    decide
  · exact List.countP_le_length

/-- When the SeqNum is 1 again, the table answers. -/
theorem Stale.handle_get {t : State} {seqNum : Int64} (h : Stale t seqNum) (hseq : seqNum + 1 = 1) :
    t.server.handle ((t.newCall 1 (.get "k")).request 1) = (t.server, .get ⟨"", 0, .errNoKey⟩) := by
  have hone : ((t.newCall 1 (.get "k")).request 1).seqNum = 1 := by
    simp only [Call.request, State.newCall, h.clerk]
    exact hseq
  have hdup : t.server.dupGet ⟨"k", 1, ((t.newCall 1 (.get "k")).request 1).seqNum⟩ =
      some ⟨"", 0, .errNoKey⟩ := by
    simp [KVServer.dupGet, h.entry, hone]
  have hop : ((t.newCall 1 (.get "k")).request 1).op = .get "k" := rfl
  have hclient : ((t.newCall 1 (.get "k")).request 1).clientId = 1 := rfl
  simp only [KVServer.handle, hop, hclient, KVServer.get, hdup]

/-- All along the key is there, and the `Get` says that it is not. -/
theorem Stale.not_linearized {t : State} {seqNum : Int64} (h : Stale t seqNum) (hseq : seqNum + 1 = 1)
    (before : List (State × Action)) :
    ¬ Linearized (before ++ t.exchange 1 (.get "k")) (t.exchanged 1 (.get "k")) := by
  intro hlin
  have hhandle := h.handle_get hseq
  have hreturns : ReturnsAt (before ++ t.exchange 1 (.get "k")) (before.length + 2) t.calls
      (.get ⟨"", 0, .errNoKey⟩) := by
    refine ⟨t.answered 1 (.get "k"), .deliver 1 t.executed.length, t.newCall 1 (.get "k"), ?_, ?_,
      rfl⟩
    · rw [List.getElem?_append_right (by omega)]
      simp [State.exchange]
    · rw [State.answered_returned, hhandle]
  obtain ⟨i, u, hpi, hid, hu, hread⟩ := hlin.get before.length t.calls 1 "k"
    ((t.clerks 1).seqNum + 1) _ _ ⟨t, by simp [State.exchange], rfl, rfl⟩ hreturns
  have hpresent : u.server.cache "k" = some ⟨"v", 1⟩ := by
    rw [visited_append, List.getElem?_append_right (by simpa using hpi.le), List.length_map] at hu
    obtain hi | hi : i - before.length = 1 ∨ i - before.length = 2 := by omega
    · rw [hi] at hu
      obtain rfl : t.asked 1 (.get "k") = u := by simpa [visited, State.exchange] using hu
      exact h.present
    · rw [hi] at hu
      obtain rfl : t.answered 1 (.get "k") = u := by simpa [visited, State.exchange] using hu
      exact (congrArg (fun x => KVServer.cache x.1 "k") hhandle).trans h.present
  simp [readReply, hpresent] at hread

/-- Fewer than `2 ^ 64` `Put`s on each key do not suffice: after `2 ^ 64` calls of its own a client's `Get`
is answered by what the table has for another one with the same SeqNum. -/
theorem seqNum_reused : ∃ tr t, kvsrv.Run .initial tr t ∧
    (∀ key, tr.countP (putsKey key) < 2 ^ 64) ∧ ¬ Linearized tr t := by
  obtain ⟨tr, t, hrounds, hstale, hcount⟩ := stale_created.rounds (2 ^ 64 - 1)
  have hcreated : kvsrv.Run .initial (traceOf State.step .initial created)
      (after State.step .initial created) :=
    Lts.run_of_steps (fun _ _ _ h => h) (by decide)
  have hlast := t.exchange_run 1 (.get "k") (by rw [hstale.clerk])
  refine ⟨_, _, (hcreated.append hrounds).append hlast, fun key => ?_,
    hstale.not_linearized (by decide) _⟩
  have hfirst := created_puts key
  have hthird : (t.exchange 1 (.get "k")).countP (putsKey key) = 0 := by
    simp [State.exchange, putsKey, putBy]
  rw [List.countP_append, List.countP_append, hcount, hthird]
  by_cases hkey : key = "x"
  · rw [if_pos hkey] at hfirst ⊢
    omega
  · rw [if_neg hkey] at hfirst ⊢
    omega

end Reused

end DistSys.Kvsrv1
