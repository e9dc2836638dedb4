import DistSys.Lib.Counter
import DistSys.Kvsrv1.Clerk
import Mathlib.Data.List.Perm.Subperm

/- Where the requests, the replies and the table of a run come from.

   Everything a state holds was put there by an earlier step: a request in flight by a call, a
   reply by an execution, an entry of the table by an execution of a request with its client and
   number (`History`). Calls are numbered once (`CalledAt.unique`), and a clerk's SeqNum is new
   with each call as long as it does not wrap around (`CalledAt.unique_seqNum`). -/
namespace DistSys.Kvsrv1

open Lib

def Op.key : Op → String
  | .get key => key
  | .put key _ _ => key

/-! ## One request -/

namespace KVServer

/-- Whether a request is a `Put` that is executed and takes effect. -/
def writes (kv : KVServer) (req : Request) : Bool :=
  match req.op with
  | .get _ => false
  | .put key value version =>
    (kv.dupPut ⟨key, value, version, req.clientId, req.seqNum⟩).isNone &&
      version = versionOf kv.cache key

/-- A `Put` that takes effect writes its key at the version it names, and the table. -/
theorem handle_writes {kv : KVServer} {req : Request} (h : kv.writes req = true) :
    ∃ key value version, req.op = .put key value version ∧ version = versionOf kv.cache key ∧
      kv.handle req = (⟨Function.update kv.cache key (some ⟨value, version + 1⟩),
        Function.update kv.clientMap req.clientId (some ⟨req.seqNum, none, some ⟨.ok⟩⟩)⟩,
        .put ⟨.ok⟩) := by
  cases hop : req.op with
  | get key => simp [writes, hop] at h
  | put key value version =>
    obtain ⟨hdup, hver⟩ : kv.dupPut ⟨key, value, version, req.clientId, req.seqNum⟩ = none ∧
        version = versionOf kv.cache key := by simpa [writes, hop] using h
    refine ⟨key, value, version, rfl, hver, ?_⟩
    rcases put_executed hdup with ⟨-, hput⟩ | ⟨hne, -⟩
    · simp only [handle, hop, hput]
    · exact absurd hver hne

/-- Any other request leaves the cache as it is. -/
theorem handle_cache {kv : KVServer} {req : Request} (h : kv.writes req = false) :
    (kv.handle req).1.cache = kv.cache := by
  cases hop : req.op with
  | get key =>
    simp only [handle, hop, get]
    split <;> rfl
  | put key value version =>
    cases hdup : kv.dupPut ⟨key, value, version, req.clientId, req.seqNum⟩ with
    | some reply => simp [handle, hop, put, hdup]
    | none =>
      rcases put_executed hdup with ⟨hver, -⟩ | ⟨-, hput⟩
      · exact absurd hver (by simpa [writes, hop, hdup] using h)
      · simp only [handle, hop, hput]

/-- The requests that take effect are those that change the cache. -/
theorem writes_iff {kv : KVServer} {req : Request} :
    kv.writes req = true ↔ (kv.handle req).1.cache ≠ kv.cache := by
  refine ⟨fun h hsame => ?_, fun h => ?_⟩
  · obtain ⟨key, value, version, -, hver, hhandle⟩ := handle_writes h
    rw [hhandle] at hsame
    have hkey : version + 1 = versionOf kv.cache key := by
      rw [← hsame, versionOf_update, if_pos rfl]
    rw [← hver] at hkey
    simp at hkey
  · by_contra hnot
    exact h (handle_cache (by simpa using hnot))

/-- A new entry of the table is for the request: a `Get` with what it read, or a `Put` that took
effect. -/
theorem handle_clientMap {kv : KVServer} {req : Request} {c : Int64} {dup : DupTab}
    (h : (kv.handle req).1.clientMap c = some dup) :
    kv.clientMap c = some dup ∨
      (c = req.clientId ∧ dup.lastSeqNum = req.seqNum ∧
        ((∃ key, req.op = .get key ∧ dup.lastGetReply = some (readReply kv.cache key) ∧
            (kv.handle req).2 = .get (readReply kv.cache key) ∧ dup.lastPutReply = none) ∨
          (kv.writes req = true ∧ dup.lastGetReply = none))) := by
  cases hop : req.op with
  | get key =>
    cases hdup : kv.dupGet ⟨key, req.clientId, req.seqNum⟩ with
    | some reply => exact Or.inl (by simpa [handle, hop, get, hdup] using h)
    | none =>
      simp only [handle, hop, get, hdup] at h
      by_cases hc : c = req.clientId
      · subst hc
        obtain rfl : _ = dup := by simpa using h
        exact Or.inr ⟨rfl, rfl, Or.inl ⟨key, rfl, rfl, by simp [handle, hop, get, hdup], rfl⟩⟩
      · exact Or.inl (by simpa [hc] using h)
  | put key value version =>
    cases hdup : kv.dupPut ⟨key, value, version, req.clientId, req.seqNum⟩ with
    | some reply => exact Or.inl (by simpa [handle, hop, put, hdup] using h)
    | none =>
      rcases put_executed hdup with ⟨hver, hput⟩ | ⟨-, hput⟩
      · simp only [handle, hop, hput] at h
        by_cases hc : c = req.clientId
        · subst hc
          obtain rfl : _ = dup := by simpa using h
          exact Or.inr ⟨rfl, rfl, Or.inr ⟨by simpa [writes, hop, hdup] using hver, rfl⟩⟩
        · exact Or.inl (by simpa [hc] using h)
      · exact Or.inl (by simpa [handle, hop, hput] using h)

end KVServer

/-! ## Calls and executions of a run -/

/-- Call `n` is made at step `p`, with the SeqNum given. -/
def CalledAt (tr : List (State × Action)) (p n : ℕ) (c : Int64) (op : Op) (seqNum : Int64) : Prop :=
  ∃ u : State, tr[p]? = some (u, .call c op) ∧ u.calls = n ∧ (u.clerks c).seqNum + 1 = seqNum

/-- A request is executed at step `e`, in state `u`. -/
def ExecutedAt (tr : List (State × Action)) (e : ℕ) (u : State) (req : Request) : Prop :=
  ∃ i, tr[e]? = some (u, .execute i) ∧ u.pending[i]? = some req

section Trace

variable {tr tr' : List (State × Action)} {p n e : ℕ} {c seqNum : Int64} {op : Op} {u : State}
  {req : Request}

theorem CalledAt.append (h : CalledAt tr p n c op seqNum) :
    CalledAt (tr ++ tr') p n c op seqNum := by
  obtain ⟨u, hp, hn, hseq⟩ := h
  exact ⟨u, by rw [List.getElem?_append_left (List.getElem?_eq_some_iff.mp hp).1, hp], hn, hseq⟩

theorem ExecutedAt.append (h : ExecutedAt tr e u req) : ExecutedAt (tr ++ tr') e u req := by
  obtain ⟨i, he, hreq⟩ := h
  exact ⟨i, by rw [List.getElem?_append_left (List.getElem?_eq_some_iff.mp he).1, he], hreq⟩

theorem CalledAt.of_take {i : ℕ} (h : CalledAt (tr.take i) p n c op seqNum) :
    p < i ∧ CalledAt tr p n c op seqNum := by
  obtain ⟨u, hp, hn, hseq⟩ := h
  rw [List.getElem?_take] at hp
  split at hp
  · rename_i hlt
    exact ⟨hlt, u, hp, hn, hseq⟩
  · contradiction

theorem ExecutedAt.of_take {i : ℕ} (h : ExecutedAt (tr.take i) e u req) :
    e < i ∧ ExecutedAt tr e u req := by
  obtain ⟨j, he, hreq⟩ := h
  rw [List.getElem?_take] at he
  split at he
  · rename_i hlt
    exact ⟨hlt, j, he, hreq⟩
  · contradiction

end Trace

/-- Everything that a state holds comes from an earlier step. -/
structure History (tr : List (State × Action)) (t : State) : Prop where
  pending : ∀ req ∈ t.pending, ∃ p, CalledAt tr p req.call req.clientId req.op req.seqNum
  current : ∀ c call, (t.clerks c).call = some call →
    ∃ p, CalledAt tr p call.id c call.op call.seqNum
  executed : ∀ i req reply, t.executed[i]? = some (req, reply) →
    ∃ e u, ExecutedAt tr e u req ∧ u.executed.length = i ∧ (u.server.handle req).2 = reply
  gets : ∀ c dup reply, t.server.clientMap c = some dup → dup.lastGetReply = some reply →
    ∃ e u req key, ExecutedAt tr e u req ∧ req.clientId = c ∧ req.seqNum = dup.lastSeqNum ∧
      req.op = .get key ∧ reply = readReply u.server.cache key ∧
      (u.server.handle req).2 = .get reply
  puts : ∀ c dup reply, t.server.clientMap c = some dup → dup.lastPutReply = some reply →
    ∃ e u req, ExecutedAt tr e u req ∧ req.clientId = c ∧ req.seqNum = dup.lastSeqNum ∧
      u.server.writes req = true

namespace History

variable {tr tr' : List (State × Action)} {s t : State}

/-- The same history explains a state with no more requests, calls and replies. -/
theorem shrink (h : History tr s) (hserver : t.server = s.server)
    (hpending : ∀ req ∈ t.pending, req ∈ s.pending)
    (hclerks : ∀ c call, (t.clerks c).call = some call → (s.clerks c).call = some call)
    (hexecuted : t.executed = s.executed) : History (tr ++ tr') t where
  pending req hreq := (h.pending req (hpending req hreq)).imp fun _ hp => hp.append
  current c call hcall := (h.current c call (hclerks c call hcall)).imp fun _ hp => hp.append
  executed i req reply hi := by
    rw [hexecuted] at hi
    obtain ⟨e, u, he, hreply⟩ := h.executed i req reply hi
    exact ⟨e, u, he.append, hreply⟩
  gets c dup reply hdup hreply := by
    rw [hserver] at hdup
    obtain ⟨e, u, req, key, he, hrest⟩ := h.gets c dup reply hdup hreply
    exact ⟨e, u, req, key, he.append, hrest⟩
  puts c dup reply hdup hreply := by
    rw [hserver] at hdup
    obtain ⟨e, u, req, he, hrest⟩ := h.puts c dup reply hdup hreply
    exact ⟨e, u, req, he.append, hrest⟩

/-- A clerk turns to an attempt of a call that was made, and sends it. -/
theorem send (h : History tr s) {c : Int64} {call : Call} {clerk : Clerk} {p : ℕ}
    (hclerk : clerk.call = some call) (hp : CalledAt tr p call.id c call.op call.seqNum)
    (hserver : t.server = s.server) (hclerks : t.clerks = Function.update s.clerks c clerk)
    (hpending : t.pending = s.pending ++ [call.request c]) (hexecuted : t.executed = s.executed) :
    History tr t where
  pending req hreq := by
    rw [hpending] at hreq
    rcases List.mem_append.mp hreq with hreq | hreq
    · exact h.pending req hreq
    · obtain rfl := List.mem_singleton.mp hreq
      exact ⟨p, hp⟩
  current c' call' hcall := by
    rw [hclerks] at hcall
    by_cases hc : c' = c
    · subst hc
      obtain rfl : call = call' := by simpa [hclerk] using hcall
      exact ⟨p, hp⟩
    · exact h.current c' call' (by simpa [hc] using hcall)
  executed i req reply hi := h.executed i req reply (hexecuted ▸ hi)
  gets c dup reply hdup := h.gets c dup reply (hserver ▸ hdup)
  puts c dup reply hdup := h.puts c dup reply (hserver ▸ hdup)

theorem execute (h : History tr s) {i : ℕ} {req : Request} (hreq : s.pending[i]? = some req) :
    History (tr ++ [(s, .execute i)]) (s.execute i req) := by
  have hnow : ExecutedAt (tr ++ [(s, .execute i)]) tr.length s req := ⟨i, by simp, hreq⟩
  have hold : History (tr ++ [(s, .execute i)]) s :=
    h.shrink rfl (fun _ h => h) (fun _ _ h => h) rfl
  refine ⟨?_, hold.current, ?_, ?_, ?_⟩
  · intro req' hmem
    exact hold.pending req' (List.mem_of_mem_eraseIdx hmem)
  · intro j req' reply hj
    by_cases hlt : j < s.executed.length
    · exact hold.executed j req' reply ((List.getElem?_append_left hlt).symm.trans hj)
    · obtain ⟨hle, hget⟩ := List.getElem?_eq_some_iff.mp hj
      obtain rfl : j = s.executed.length := by
        simp [State.execute] at hle
        omega
      obtain ⟨rfl, rfl⟩ : req = req' ∧ (s.server.handle req).2 = reply := by
        rw [← Prod.mk.injEq, ← hget]
        simp [State.execute]
      exact ⟨tr.length, s, hnow, rfl, rfl⟩
  · intro c dup reply hdup hreply
    rcases KVServer.handle_clientMap hdup with hdup | ⟨rfl, hseq, ⟨key, hop, hread, hreplied, -⟩ | ⟨-, hnone⟩⟩
    · exact hold.gets c dup reply hdup hreply
    · obtain rfl := Option.some.inj (hread.symm.trans hreply)
      exact ⟨tr.length, s, req, key, hnow, rfl, hseq.symm, hop, rfl, hreplied⟩
    · rw [hnone] at hreply
      contradiction
  · intro c dup reply hdup hreply
    rcases KVServer.handle_clientMap hdup with hdup | ⟨rfl, hseq, ⟨-, -, -, -, hnone⟩ | ⟨hwrites, -⟩⟩
    · exact hold.puts c dup reply hdup hreply
    · rw [hnone] at hreply
      contradiction
    · exact ⟨tr.length, s, req, hnow, rfl, hseq.symm, hwrites⟩

theorem step (h : History tr s) {a : Action} (hstep : s.step a = some t) :
    History (tr ++ [(s, a)]) t := by
  have hold : History (tr ++ [(s, a)]) s := h.shrink rfl (fun _ h => h) (fun _ _ h => h) rfl
  cases a with
  | call c op =>
    obtain ⟨-, rfl⟩ := State.step_call hstep
    have hp : CalledAt (tr ++ [(s, .call c op)]) tr.length s.calls c op
        ((s.clerks c).seqNum + 1) := ⟨s, by simp, rfl, rfl⟩
    exact hold.send rfl hp rfl rfl rfl rfl
  | execute i =>
    obtain ⟨req, hreq, rfl⟩ := State.step_execute hstep
    exact h.execute hreq
  | drop i =>
    obtain rfl := State.step_drop hstep
    exact h.shrink rfl (fun _ => List.mem_of_mem_eraseIdx) (fun _ _ h => h) rfl
  | deliver c i =>
    obtain ⟨-, rfl⟩ := State.step_deliver hstep
    refine h.shrink rfl (fun _ h => h) ?_ rfl
    intro c' call hcall
    by_cases hc : c' = c
    · simp [State.setClerk, hc] at hcall
    · simpa [State.setClerk, hc] using hcall
  | fail c =>
    obtain ⟨call, hcall, rfl⟩ := State.step_fail hstep
    obtain ⟨p, hp⟩ := hold.current c call hcall
    have hagain : CalledAt _ p call.again.id c call.again.op call.again.seqNum := hp
    exact hold.send rfl hagain rfl rfl rfl rfl

theorem of_run (h : kvsrv.Run .initial tr t) : History tr t := by
  induction h with
  | nil =>
    refine ⟨?_, ?_, ?_, ?_, ?_⟩ <;>
      simp [State.initial, KVServer.makeKVServer]
  | snoc _ hstep ih => exact ih.step hstep

end History

/-! ## Numbers that are used once -/

section Unique

variable {tr : List (State × Action)} {t : State} (hrun : kvsrv.Run .initial tr t)
include hrun

theorem CalledAt.lt_calls {p n j : ℕ} {c seqNum : Int64} {op : Op} {w : State}
    (h : CalledAt tr p n c op seqNum) (hpj : p < j) (hj : (visited tr t)[j]? = some w) :
    n < w.calls := by
  obtain ⟨u, hp, rfl, -⟩ := h
  obtain ⟨w', hw', hstep⟩ := hrun.visited_succ hp
  have hmono : ∀ (s : State) (a : Action) (s' : State), u.calls < s.calls → kvsrv.step s a s' →
      u.calls < s'.calls := by
    intro s a s' hlt hst
    cases a with
    | call c op =>
      obtain ⟨-, rfl⟩ := State.step_call hst
      exact Nat.lt_succ_of_lt hlt
    | execute i =>
      obtain ⟨req, -, rfl⟩ := State.step_execute hst
      exact hlt
    | drop i =>
      obtain rfl := State.step_drop hst
      exact hlt
    | deliver c i =>
      obtain ⟨-, rfl⟩ := State.step_deliver hst
      exact hlt
    | fail c =>
      obtain ⟨call, -, rfl⟩ := State.step_fail hst
      exact hlt
  refine hrun.kept hmono hpj hw' hj ?_
  obtain ⟨-, rfl⟩ := State.step_call hstep
  exact Nat.lt_succ_self _

/-- A number stands for one call. -/
theorem CalledAt.unique {p p' n : ℕ} {c c' seqNum seqNum' : Int64} {op op' : Op}
    (h : CalledAt tr p n c op seqNum) (h' : CalledAt tr p' n c' op' seqNum') :
    p = p' ∧ c = c' ∧ op = op' ∧ seqNum = seqNum' := by
  have hpp : p = p' := by
    rcases lt_trichotomy p p' with hlt | heq | hlt
    · obtain ⟨u', hp', hn', -⟩ := h'
      have := h.lt_calls hrun hlt (visited_of_step hp')
      omega
    · exact heq
    · obtain ⟨u, hp, hn, -⟩ := h
      have := h'.lt_calls hrun hlt (visited_of_step hp)
      omega
  subst hpp
  obtain ⟨u, hp, -, rfl⟩ := h
  obtain ⟨u', hp', -, rfl⟩ := h'
  obtain ⟨rfl, rfl, rfl⟩ : u = u' ∧ c = c' ∧ op = op' := by
    have hsame := Option.some.inj (hp.symm.trans hp')
    simpa using hsame
  exact ⟨rfl, rfl, rfl, rfl⟩

end Unique

/-- Whether a step is a call of the client. -/
def callsOf (c : Int64) : State × Action → Bool
  | (_, .call c' _) => c' = c
  | _ => false

/-- The SeqNum of a clerk counts its calls. -/
theorem seqNum_counts (c : Int64) :
    kvsrv.Counts (2 ^ 64) (fun s => (s.clerks c).seqNum.toUInt64.toNat) (callsOf c) where
  raises := by
    intro s a t hstep hmark
    cases a with
    | call c' op =>
      obtain rfl : c' = c := by simpa [callsOf] using hmark
      obtain ⟨-, rfl⟩ := State.step_call hstep
      have hone : (Int64.toUInt64 1).toNat = 1 := rfl
      simp [State.send, State.setClerk, State.newCall, UInt64.toNat_add, Int64.toUInt64_add, hone]
    | execute i => contradiction
    | drop i => contradiction
    | deliver c i => contradiction
    | fail c => contradiction
  keeps := by
    intro s a t hstep hmark
    cases a with
    | call c' op =>
      have hc : c ≠ c' := fun h => by simp [callsOf, h] at hmark
      obtain ⟨-, rfl⟩ := State.step_call hstep
      simp [State.send, State.setClerk, hc]
    | execute i =>
      obtain ⟨req, -, rfl⟩ := State.step_execute hstep
      rfl
    | drop i =>
      obtain rfl := State.step_drop hstep
      rfl
    | deliver c' i =>
      obtain ⟨-, rfl⟩ := State.step_deliver hstep
      by_cases hc : c = c'
      · simp [State.setClerk, hc]
      · simp [State.setClerk, hc]
    | fail c' =>
      obtain ⟨call, -, rfl⟩ := State.step_fail hstep
      by_cases hc : c = c'
      · simp [State.send, State.setClerk, hc]
      · simp [State.send, State.setClerk, hc]

/-- As long as a clerk makes fewer than `2 ^ 64` calls, its SeqNum stands for one call. -/
theorem CalledAt.unique_seqNum {tr : List (State × Action)} {t : State}
    (hrun : kvsrv.Run .initial tr t) {p p' n n' : ℕ} {c seqNum : Int64} {op op' : Op}
    (hfew : tr.countP (callsOf c) < 2 ^ 64) (h : CalledAt tr p n c op seqNum)
    (h' : CalledAt tr p' n' c op' seqNum) : p = p' ∧ n = n' ∧ op = op' := by
  obtain ⟨u, hp, rfl, rfl⟩ := h
  obtain ⟨u', hp', rfl, hseq⟩ := h'
  have hsame : (u'.clerks c).seqNum = (u.clerks c).seqNum := by simpa using hseq
  have hlt : ∀ {i j : ℕ} {v v' : State} {o o' : Op}, i < j → tr[i]? = some (v, .call c o) →
      tr[j]? = some (v', .call c o') → (v'.clerks c).seqNum ≠ (v.clerks c).seqNum := by
    intro i j v v' o o' hij hi hj heq
    have hlt := (seqNum_counts c).val_lt rfl hrun hfew hij hi (by simp [callsOf])
      (visited_of_step hj)
    rw [heq] at hlt
    exact lt_irrefl _ hlt
  obtain rfl : p = p' := by
    rcases lt_trichotomy p p' with hpp | hpp | hpp
    · exact absurd hsame (hlt hpp hp hp')
    · exact hpp
    · exact absurd hsame.symm (hlt hpp hp' hp)
  obtain ⟨rfl, rfl⟩ : u = u' ∧ op = op' := by
    have hsame := Option.some.inj (hp.symm.trans hp')
    simpa using hsame
  exact ⟨rfl, rfl, rfl⟩

end DistSys.Kvsrv1
