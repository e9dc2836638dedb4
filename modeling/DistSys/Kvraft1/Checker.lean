import DistSys.Kvraft1.Duplicates
import DistSys.Kvraft1.Effects
import DistSys.Models1.Kv

/- `DoOp` against the model of the linearizability checker.

   The model has the state of one key, the server a cache of all of them and a table of
   replies. Without a repeated client and number the table never answers, each command is
   executed, and a command moves the state of its key as `Step` does and of no other key
   (`execute_step`). So the history of any log is accepted key by key, and the state
   that the model of a key is in is what the cache has at the key (`run_history`).

   The versions that `Get`s return are not looked at by `Step`. They are the model's, with
   two exceptions. A `Get` that finds no key returns the version of its own request
   (the handler puts 0 there), and a version is a uint64: after `2 ^ 64` `Put`s a key is there at
   version 0. -/
namespace DistSys.Kvraft1

open Kvsrv1 Lib Models1

/-! ## Histories -/

/-- A `Get` or `Put` and its reply, as kvtest1/porcupine.go logs them. -/
def operation (m : RaftReqMsg) (reply : RaftReplyMsg) : Operation :=
  match m.command with
  | .get =>
    { input := { op := 0, key := m.key, value := "", version := 0 }
      output := { value := reply.value, version := reply.version, err := reply.err.string } }
  | _ =>
    { input := { op := 1, key := m.key, value := m.value, version := m.version }
      output := { value := "", version := 0, err := reply.err.string } }

theorem key_operation (m : RaftReqMsg) (reply : RaftReplyMsg) :
    (operation m reply).input.key = m.key := by
  unfold operation
  split <;> rfl

/-- What the cache has at a key; an absent key stands for the initial state. -/
def stateOf (cache : FinMap String KVPair) (key : String) : KvState :=
  match cache.lookup key with
  | some kvPair => { value := kvPair.value, version := kvPair.version }
  | none => KvModel.init

theorem stateOf_version (cache : FinMap String KVPair) (key : String) :
    (stateOf cache key).version = versionOf cache key := by
  unfold stateOf versionOf
  cases cache.lookup key with
  | some kvPair => rfl
  | none => rfl

theorem stateOf_insert (cache : FinMap String KVPair) (key : String) (kvPair : KVPair)
    (key' : String) : stateOf (cache.insert key kvPair) key' =
      if key' = key then { value := kvPair.value, version := kvPair.version }
      else stateOf cache key' := by
  unfold stateOf
  rw [FinMap.lookup_insert_ite]
  by_cases hkey : key' = key
  · simp [hkey]
  · simp [hkey]

/-- Two commands of a list do not have the same client and number. -/
def Unrepeated (reqs : List RaftReqMsg) : Prop :=
  (reqs.map fun m => (m.clientId, m.seqNum)).Nodup

instance (reqs : List RaftReqMsg) : Decidable (Unrepeated reqs) :=
  inferInstanceAs (Decidable (List.Nodup _))

/-- A list of `Get`s and `Put`s. -/
def GetsAndPuts (reqs : List RaftReqMsg) : Prop :=
  ∀ m ∈ reqs, m.command = .get ∨ m.command = .put

instance (reqs : List RaftReqMsg) : Decidable (GetsAndPuts reqs) :=
  inferInstanceAs (Decidable (∀ m ∈ reqs, m.command = .get ∨ m.command = .put))

namespace KVServer

/-- The server after the commands. -/
def after (kv : KVServer) (reqs : List RaftReqMsg) : KVServer := (kv.applyAll (reqs.map .raftReq)).1

/-- The replies to the commands. -/
def replies (kv : KVServer) (reqs : List RaftReqMsg) : List RaftReplyMsg :=
  (kv.applyAll (reqs.map .raftReq)).2

/-- The commands with their replies, as the checker gets them. -/
def history (kv : KVServer) (reqs : List RaftReqMsg) : List Operation :=
  List.zipWith operation reqs (kv.replies reqs)

theorem history_take (kv : KVServer) (reqs : List RaftReqMsg) (i : ℕ) :
    (kv.history reqs).take i = kv.history (reqs.take i) := by
  induction reqs generalizing kv i with
  | nil => simp [history]
  | cons m reqs ih =>
    cases i with
    | zero => rfl
    | succ i => exact congrArg (List.cons _) (ih _ i)

/-- The reply at a position is to the command there, on the server that the commands before it leave. -/
theorem getElem?_replies (kv : KVServer) {reqs : List RaftReqMsg} {i : ℕ} {m : RaftReqMsg}
    (hi : reqs[i]? = some m) :
    (kv.replies reqs)[i]? = some ((kv.after (reqs.take i)).doOp (.raftReq m)).2 := by
  induction reqs generalizing kv i with
  | nil => simp at hi
  | cons m' reqs ih =>
    cases i with
    | zero =>
      obtain rfl : m' = m := by simpa using hi
      rfl
    | succ i => exact ih _ hi

end KVServer

/-! ## One command -/

/-- A `Get` returns the state of its key; the version that comes with `ErrNoKey` is its own. -/
theorem execute_get (cache : FinMap String KVPair) {m : RaftReqMsg} (hget : m.command = .get) :
    ∃ reply, execute cache m = some (cache, reply) ∧ reply.value = (stateOf cache m.key).value ∧
      ((cache.lookup m.key = none ∧ reply.err = .errNoKey ∧ reply.version = m.version) ∨
        ((cache.lookup m.key).isSome ∧ reply.err = .ok ∧
          reply.version = (stateOf cache m.key).version)) := by
  unfold execute stateOf
  rw [hget]
  cases cache.lookup m.key with
  | some kvPair => exact ⟨_, rfl, rfl, Or.inr ⟨rfl, rfl, rfl⟩⟩
  | none => exact ⟨_, rfl, rfl, Or.inl ⟨rfl, rfl, rfl⟩⟩

/-- A `Put` at the version of its key writes the next one; any other is refused. -/
theorem execute_put (cache : FinMap String KVPair) {m : RaftReqMsg} (hput : m.command = .put) :
    ∃ reply, (versionOf cache m.key = m.version ∧ reply.err = .ok ∧
        execute cache m = some (cache.insert m.key ⟨m.value, m.version + 1⟩, reply)) ∨
      (versionOf cache m.key ≠ m.version ∧ reply.err = .errVersion ∧
        execute cache m = some (cache, reply)) := by
  unfold execute versionOf
  rw [hput]
  cases cache.lookup m.key with
  | some kvPair =>
    by_cases hver : kvPair.version = m.version
    · exact ⟨_, Or.inl ⟨hver, rfl, by simp only [hver]; rfl⟩⟩
    · exact ⟨_, Or.inr ⟨hver, rfl, if_neg hver⟩⟩
  | none =>
    by_cases hver : m.version = 0
    · exact ⟨_, Or.inl ⟨hver.symm, rfl, by simp only [hver]; rfl⟩⟩
    · exact ⟨_, Or.inr ⟨Ne.symm hver, rfl, if_neg hver⟩⟩

/-- A command is a step that the model of its key accepts, and the state of no other key changes. -/
theorem execute_step {cache cache' : FinMap String KVPair} {m : RaftReqMsg} {reply : RaftReplyMsg}
    (hcommand : m.command = .get ∨ m.command = .put)
    (h : execute cache m = some (cache', reply)) :
    KvModel.step (stateOf cache m.key) (operation m reply).input (operation m reply).output =
        (true, some (stateOf cache' m.key)) ∧
      ∀ key ≠ m.key, stateOf cache' key = stateOf cache key := by
  rcases hcommand with hget | hput
  · obtain ⟨reply', hexec, hvalue, -⟩ := execute_get cache hget
    obtain ⟨rfl, rfl⟩ : cache = cache' ∧ reply' = reply := by simpa [hexec] using h
    simp [operation, hget, KvModel.step, hvalue]
  · obtain ⟨reply', ⟨hver, herr, hexec⟩ | ⟨hver, herr, hexec⟩⟩ := execute_put cache hput
    · obtain ⟨rfl, rfl⟩ : _ = cache' ∧ reply' = reply := by simpa [hexec] using h
      refine ⟨?_, fun key hkey => by rw [stateOf_insert, if_neg hkey]⟩
      simp [operation, hput, KvModel.step, stateOf_version, stateOf_insert, hver, herr, Err.string]
    · obtain ⟨rfl, rfl⟩ : cache = cache' ∧ reply' = reply := by simpa [hexec] using h
      simp [operation, hput, KvModel.step, stateOf_version, hver, herr, Err.string]

namespace KVServer

/-- Without a reply in the table, a command is executed. -/
theorem doOp_new {kv : KVServer} {m : RaftReqMsg} {cache : FinMap String KVPair}
    {reply : RaftReplyMsg} (hnew : kv.cached m.clientId m.seqNum = none)
    (hexec : execute kv.cache m = some (cache, reply)) :
    (kv.doOp (.raftReq m)).1.cache = cache ∧ (kv.doOp (.raftReq m)).2 = reply := by
  simp [doOp, hnew, hexec]

theorem execute_isSome (cache : FinMap String KVPair) {m : RaftReqMsg}
    (hcommand : m.command = .get ∨ m.command = .put) : ∃ p, execute cache m = some p := by
  refine Option.ne_none_iff_exists'.mp fun hnone => ?_
  obtain ⟨name, hname⟩ := execute_eq_none.mp hnone
  rcases hcommand with hget | hput
  · rw [hget] at hname
    contradiction
  · rw [hput] at hname
    contradiction

/-! ## A whole log -/

/-- The commands of a list are not in the table. -/
def Fresh (kv : KVServer) (reqs : List RaftReqMsg) : Prop :=
  Unrepeated reqs ∧ ∀ m ∈ reqs, kv.cached m.clientId m.seqNum = none

theorem Fresh.tail {kv : KVServer} {m : RaftReqMsg} {reqs : List RaftReqMsg}
    (h : kv.Fresh (m :: reqs)) : (kv.doOp (.raftReq m)).1.Fresh reqs := by
  obtain ⟨hids, hnew⟩ := h
  obtain ⟨hhead, htail⟩ : _ ∧ Unrepeated reqs := List.nodup_cons.mp hids
  refine ⟨htail, fun m' hm' => ?_⟩
  by_contra hcached
  rcases cached_doOp (Option.isSome_iff_ne_none.mpr hcached) with hold | ⟨_, heq, hc, hs, -⟩
  · rw [hnew m' (List.mem_cons_of_mem _ hm')] at hold
    contradiction
  · obtain rfl := Req.raftReq.inj heq
    exact hhead (List.mem_map.mpr ⟨m', hm', (Prod.ext hc hs).symm⟩)

theorem Fresh.after {kv : KVServer} {p q : List RaftReqMsg} (h : kv.Fresh (p ++ q)) :
    (kv.after p).Fresh q := by
  induction p generalizing kv with
  | nil => exact h
  | cons m p ih => exact ih h.tail

theorem empty_fresh {reqs : List RaftReqMsg} (h : Unrepeated reqs) : empty.Fresh reqs :=
  ⟨h, fun _ _ => rfl⟩

/-- The model of each key accepts the commands on it, and ends in the state that the cache has. -/
theorem run_history {kv : KVServer} {reqs : List RaftReqMsg} (hcommands : GetsAndPuts reqs)
    (hfresh : kv.Fresh reqs) (key : String) :
    KvModel.run (stateOf kv.cache key) (KvModel.onKey key (kv.history reqs)) =
      some (stateOf (kv.after reqs).cache key) := by
  induction reqs generalizing kv with
  | nil => rfl
  | cons m reqs ih =>
    have hm := hcommands m List.mem_cons_self
    obtain ⟨⟨cache, reply⟩, hexec⟩ := execute_isSome kv.cache hm
    obtain ⟨hcache, hreply⟩ := doOp_new (hfresh.2 m List.mem_cons_self) hexec
    obtain ⟨hstep, hother⟩ := execute_step hm hexec
    have hrest := ih (fun m' hm' => hcommands m' (List.mem_cons_of_mem _ hm')) hfresh.tail
    have hhist : kv.history (m :: reqs) = operation m reply :: (kv.doOp (.raftReq m)).1.history reqs := by
      rw [← hreply]
      rfl
    rw [hcache] at hrest
    by_cases hkey : m.key = key
    · subst hkey
      have hon : KvModel.onKey m.key (kv.history (m :: reqs)) =
          operation m reply :: KvModel.onKey m.key ((kv.doOp (.raftReq m)).1.history reqs) := by
        rw [hhist]
        exact List.filter_cons_of_pos (by simp [key_operation])
      rw [hon, KvModel.run, hstep]
      exact hrest
    · have hon : KvModel.onKey key (kv.history (m :: reqs)) =
          KvModel.onKey key ((kv.doOp (.raftReq m)).1.history reqs) := by
        rw [hhist]
        exact List.filter_cons_of_neg (by simp [key_operation, hkey])
      rw [hon, ← hother key (Ne.symm hkey)]
      exact hrest

/-! ## Versions and absent keys -/

/-- The `Put`s on a key that are answered OK. -/
def okPuts (key : String) (history : List Operation) : ℕ :=
  history.countP fun v => v.input.op = 1 ∧ v.input.key = key ∧ v.output.err = "OK"

/-- The version of a key that is there is a number of such `Put`s, not 0. -/
def Counted (kv : KVServer) (key : String) (n : ℕ) : Prop :=
  ∀ kvPair, kv.cache.lookup key = some kvPair →
    ∃ j, 0 < j ∧ j ≤ n ∧ kvPair.version = UInt64.ofNat j

theorem Counted.doOp {kv : KVServer} {key : String} {n : ℕ} (h : kv.Counted key n) (m : RaftReqMsg) :
    (kv.doOp (.raftReq m)).1.Counted key (n + okPuts key (kv.history [m])) := by
  intro kvPair hlook
  rcases kv.doOp_cases (.raftReq m) with ⟨hsame, -⟩ | ⟨m', heq, hsucc, hver, hcache⟩
  · rw [hsame] at hlook
    obtain ⟨j, hpos, hle, hj⟩ := h kvPair hlook
    exact ⟨j, hpos, by omega, hj⟩
  · obtain rfl := Req.raftReq.inj heq
    rw [hcache, FinMap.lookup_insert_ite] at hlook
    by_cases hkey : key = m.key
    · rw [if_pos hkey] at hlook
      obtain rfl := Option.some.inj hlook
      have hone : okPuts key (kv.history [m]) = 1 := by
        show okPuts key [operation m (kv.doOp (.raftReq m)).2] = 1
        simp [okPuts, operation, hsucc.1, hsucc.2.2, hkey, Err.string]
      -- an absent key has version 0 and is then written at version 1
      cases hold : kv.cache.lookup key with
      | none =>
        refine ⟨1, by omega, by omega, ?_⟩
        rw [hver, versionOf, ← hkey, hold]
        rfl
      | some old =>
        obtain ⟨j, hpos, hle, hj⟩ := h old hold
        refine ⟨j + 1, by omega, by omega, ?_⟩
        rw [hver, versionOf, ← hkey, hold, UInt64.ofNat_add, ← hj]
        rfl
    · rw [if_neg hkey] at hlook
      obtain ⟨j, hpos, hle, hj⟩ := h kvPair hlook
      exact ⟨j, hpos, by omega, hj⟩

theorem Counted.after {kv : KVServer} {key : String} {n : ℕ} (h : kv.Counted key n)
    (reqs : List RaftReqMsg) : (kv.after reqs).Counted key (n + okPuts key (kv.history reqs)) := by
  induction reqs generalizing kv n with
  | nil => exact h
  | cons m reqs ih =>
    have hcount : okPuts key (kv.history (m :: reqs)) =
        okPuts key (kv.history [m]) + okPuts key ((kv.doOp (.raftReq m)).1.history reqs) := by
      rw [okPuts, okPuts, okPuts, ← List.countP_append]
      rfl
    rw [hcount, ← Nat.add_assoc]
    exact ih (h.doOp m)

/-- While fewer than `2 ^ 64` `Put`s on a key are answered OK, it is absent exactly at version 0. -/
theorem absent_iff {reqs : List RaftReqMsg} {key : String}
    (hfew : okPuts key (empty.history reqs) < 2 ^ 64) :
    (empty.after reqs).cache.lookup key = none ↔
      (stateOf (empty.after reqs).cache key).version = 0 := by
  have hcounted : (empty.after reqs).Counted key (0 + okPuts key (empty.history reqs)) :=
    Counted.after (fun _ hlook => by simp [empty] at hlook) reqs
  unfold stateOf
  cases hlook : (empty.after reqs).cache.lookup key with
  | none => simp [KvModel.init]
  | some kvPair =>
    obtain ⟨j, hpos, hle, hj⟩ := hcounted kvPair hlook
    simp only [reduceCtorEq, false_iff]
    intro hzero
    rw [hj, ← UInt64.toNat_inj, UInt64.toNat_ofNat'] at hzero
    simp only [UInt64.toNat_zero] at hzero
    omega

/-- The reply to a `Get` in a log, by the state of its key. -/
theorem get_reply {reqs : List RaftReqMsg} (hids : Unrepeated reqs) {i : ℕ} {m : RaftReqMsg}
    (hi : reqs[i]? = some m) (hget : m.command = .get) :
    ∃ reply, (empty.replies reqs)[i]? = some reply ∧
      (((empty.after (reqs.take i)).cache.lookup m.key = none ∧ reply.err = .errNoKey ∧
          reply.version = m.version) ∨
        (((empty.after (reqs.take i)).cache.lookup m.key).isSome ∧ reply.err = .ok ∧
          reply.version = (stateOf (empty.after (reqs.take i)).cache m.key).version)) := by
  have hsplit : reqs = reqs.take i ++ reqs.drop i := (List.take_append_drop i reqs).symm
  have hfresh : (empty.after (reqs.take i)).Fresh (reqs.drop i) :=
    Fresh.after (hsplit ▸ empty_fresh hids)
  have hmem : m ∈ reqs.drop i := List.mem_of_getElem? (by simpa using hi : (reqs.drop i)[0]? = some m)
  obtain ⟨reply, hexec, -, hreply⟩ := execute_get (empty.after (reqs.take i)).cache hget
  refine ⟨reply, ?_, hreply⟩
  rw [getElem?_replies empty hi, (doOp_new (hfresh.2 m hmem) hexec).2]

/-- For any log of `Get`s and `Put`s without a repeated client and number, and any part of it from
its beginning on: the model of each key accepts the commands on the key, and is then in the state
that the cache has. A `Get` returns the model's version if it finds its key, or if its request
carries version 0; otherwise it returns the version that it carries. It finds no key exactly if the
model's version is 0, where fewer than `2 ^ 64` `Put`s on the key were answered OK before. -/
theorem doOp_implements_model {reqs : List RaftReqMsg} (hcommands : GetsAndPuts reqs)
    (hids : Unrepeated reqs) :
    (∀ i key, KvModel.run KvModel.init (KvModel.onKey key ((empty.history reqs).take i)) =
      some (stateOf (empty.after (reqs.take i)).cache key)) ∧
    ∀ i m, reqs[i]? = some m → m.command = .get →
      ∃ reply st, (empty.replies reqs)[i]? = some reply ∧
        KvModel.run KvModel.init (KvModel.onKey m.key ((empty.history reqs).take i)) = some st ∧
        (reply.err = .ok ∨ reply.err = .errNoKey) ∧
        (reply.err = .ok ∨ m.version = 0 → reply.version = st.version) ∧
        (reply.err = .errNoKey → reply.version = m.version) ∧
        (okPuts m.key ((empty.history reqs).take i) < 2 ^ 64 → (reply.err = .errNoKey ↔ st.version = 0)) := by
  have hruns : ∀ i key,
      KvModel.run KvModel.init (KvModel.onKey key ((empty.history reqs).take i)) =
        some (stateOf (empty.after (reqs.take i)).cache key) := by
    intro i key
    rw [history_take]
    refine run_history (fun m hm => hcommands m (List.mem_of_mem_take hm)) (empty_fresh ?_) key
    exact hids.sublist ((List.take_sublist i reqs).map _)
  refine ⟨hruns, fun i m hi hget => ?_⟩
  obtain ⟨reply, hreply, hcases⟩ := get_reply hids hi hget
  refine ⟨reply, _, hreply, hruns i m.key, ?_⟩
  rcases hcases with ⟨hnone, herr, hver⟩ | ⟨hsome, herr, hver⟩
  · have hinit : (stateOf (empty.after (reqs.take i)).cache m.key).version = 0 := by
      simp [stateOf, hnone, KvModel.init]
    refine ⟨Or.inr herr, ?_, fun _ => hver, fun _ => by simp [herr, hinit]⟩
    rintro (hok | hzero)
    · rw [herr] at hok
      contradiction
    · rw [hver, hzero, hinit]
  · refine ⟨Or.inl herr, fun _ => hver, by simp [herr], fun hfew => ?_⟩
    rw [history_take] at hfew
    rw [← absent_iff hfew, herr]
    simp [Option.isSome_iff_ne_none.mp hsome]

/-- Two keys, with a `Put` that is refused and a key that is read before it is there. -/
def twoKeys : List RaftReqMsg :=
  [⟨.get, "k", "", 1, 1, 0⟩, ⟨.put, "k", "first", 1, 2, 0⟩, ⟨.put, "j", "late", 2, 1, 4⟩,
    ⟨.get, "k", "", 2, 2, 0⟩, ⟨.put, "k", "second", 3, 1, 1⟩, ⟨.get, "j", "", 3, 2, 0⟩]

theorem doOp_implements_model_twoKeys :
    (∀ key, KvModel.run KvModel.init (KvModel.onKey key ((empty.history twoKeys).take 6)) =
      some (stateOf (empty.after (twoKeys.take 6)).cache key)) ∧
    stateOf (empty.after (twoKeys.take 6)).cache "k" = ⟨"second", 2⟩ ∧
    stateOf (empty.after (twoKeys.take 6)).cache "j" = KvModel.init := by
  refine ⟨(doOp_implements_model ?_ ?_).1 6, ?_, ?_⟩
  · decide
  · decide
  · decide
  · decide

/-! ## Where the versions differ -/

/-- A `Get` whose request carries a version. -/
def readsAhead : RaftReqMsg := ⟨.get, "k", "", 1, 1, 5⟩

/-- The first `n` `Put`s of one key, each by a client of its own. -/
def writes (n : ℕ) : List RaftReqMsg :=
  (List.range n).map fun i => ⟨.put, "k", "v", 1, Int64.ofNat i, UInt64.ofNat i⟩

/-- A `Get` that no client of `writes` makes. -/
def reads : RaftReqMsg := ⟨.get, "k", "", 2, 0, 0⟩

theorem ofNat_inj {a b : ℕ} (ha : a < 2 ^ 64) (hb : b < 2 ^ 64)
    (h : Int64.ofNat a = Int64.ofNat b) : a = b := by
  have hsame : UInt64.ofNat a = UInt64.ofNat b := congrArg Int64.toUInt64 h
  rw [← UInt64.toNat_inj, UInt64.toNat_ofNat', UInt64.toNat_ofNat'] at hsame
  omega

theorem writes_unrepeated {n : ℕ} (hn : n ≤ 2 ^ 64) : Unrepeated (writes n ++ [reads]) := by
  rw [Unrepeated, List.map_append, List.nodup_append']
  refine ⟨?_, by simp, by simp [writes, reads]⟩
  rw [writes, List.map_map]
  refine List.Nodup.map_on ?_ List.nodup_range
  intro a ha b hb hab
  rw [List.mem_range] at ha hb
  exact ofNat_inj (by omega) (by omega) (congrArg Prod.fst hab)

theorem writes_getsAndPuts (n : ℕ) : GetsAndPuts (writes n ++ [reads]) := by
  intro m hm
  rcases List.mem_append.mp hm with hm | hm
  · obtain ⟨i, -, rfl⟩ := List.mem_map.mp hm
    exact Or.inr rfl
  · obtain rfl := List.mem_singleton.mp hm
    exact Or.inl rfl

theorem writes_succ (n : ℕ) :
    writes (n + 1) = writes n ++ [⟨.put, "k", "v", 1, Int64.ofNat n, UInt64.ofNat n⟩] := by
  rw [writes, List.range_succ, List.map_append]
  rfl

/-- Each of the `Put`s succeeds: after `n` of them the version is `n`, in uint64. -/
theorem after_writes {n : ℕ} (hn : n ≤ 2 ^ 64) :
    versionOf (empty.after (writes n)).cache "k" = UInt64.ofNat n ∧
      (0 < n → ((empty.after (writes n)).cache.lookup "k").isSome) := by
  induction n with
  | zero => exact ⟨rfl, by omega⟩
  | succ n ih =>
    obtain ⟨hver, -⟩ := ih (by omega)
    have hids : Unrepeated (writes (n + 1)) :=
      (writes_unrepeated hn).sublist ((List.sublist_append_left _ _).map _)
    rw [writes_succ] at hids ⊢
    have hfresh := Fresh.after (empty_fresh hids)
    obtain ⟨reply, ⟨-, -, hexec⟩ | ⟨hne, -⟩⟩ := execute_put (empty.after (writes n)).cache
      (m := ⟨.put, "k", "v", 1, Int64.ofNat n, UInt64.ofNat n⟩) rfl
    · have hcache := (doOp_new (hfresh.2 _ (List.mem_singleton_self _)) hexec).1
      have hafter : ∀ m, empty.after (writes n ++ [m]) =
          ((empty.after (writes n)).doOp (.raftReq m)).1 := by
        intro m
        rw [after, List.map_append, applyAll_append]
        rfl
      rw [hafter, hcache, versionOf_insert, if_pos rfl, AList.lookup_insert, UInt64.ofNat_add]
      exact ⟨rfl, fun _ => rfl⟩
    · exact absurd hver hne

theorem writes_wrap {n : ℕ} (hn : n = 2 ^ 64) :
    ∃ reply st, (empty.replies (writes n ++ [reads]))[n]? = some reply ∧
      KvModel.run KvModel.init (KvModel.onKey "k" ((empty.history (writes n ++ [reads])).take n)) =
        some st ∧
      reply.err = .ok ∧ st.version = 0 := by
  have hids : Unrepeated (writes n ++ [reads]) := writes_unrepeated hn.le
  have hlength : (writes n).length = n := by simp [writes]
  have htake : (writes n ++ [reads]).take n = writes n := List.take_left' hlength
  obtain ⟨hver, hthere⟩ := after_writes hn.le
  have hrun := run_history (fun m hm => writes_getsAndPuts n m (List.mem_append_left _ hm))
    (empty_fresh (hids.sublist ((List.sublist_append_left _ _).map _))) "k"
  obtain ⟨reply, hreply, hcases⟩ := get_reply hids
    (by rw [List.getElem?_append_right hlength.le, hlength]; simp : _ = some reads) rfl
  rw [htake] at hcases
  rw [history_take, htake]
  refine ⟨reply, _, hreply, hrun, ?_, ?_⟩
  · rcases hcases with ⟨hnone, -⟩ | ⟨-, hok, -⟩
    · have hsome := hthere (by omega)
      rw [show reads.key = "k" from rfl] at hnone
      rw [hnone] at hsome
      contradiction
    · exact hok
  · rw [stateOf_version, hver, hn]
    rfl

/-- The first `Get` finds no key, and returns the version 5 of its request where the model has 0.
The second comes after `2 ^ 64` `Put`s and finds the key, where the model has version 0 again. -/
theorem get_differs :
    (GetsAndPuts [readsAhead] ∧ Unrepeated [readsAhead] ∧
      ∃ reply st, (empty.replies [readsAhead])[0]? = some reply ∧
        KvModel.run KvModel.init (KvModel.onKey "k" ((empty.history [readsAhead]).take 0)) = some st ∧
        reply.version ≠ st.version) ∧
    GetsAndPuts (writes (2 ^ 64) ++ [reads]) ∧ Unrepeated (writes (2 ^ 64) ++ [reads]) ∧
      ∃ reply st, (empty.replies (writes (2 ^ 64) ++ [reads]))[2 ^ 64]? = some reply ∧
        KvModel.run KvModel.init
          (KvModel.onKey "k" ((empty.history (writes (2 ^ 64) ++ [reads])).take (2 ^ 64))) = some st ∧
        reply.err = .ok ∧ st.version = 0 := by
  refine ⟨⟨by decide, by decide, _, _, rfl, rfl, by decide⟩, writes_getsAndPuts _,
    writes_unrepeated le_rfl, writes_wrap rfl⟩

end KVServer

end DistSys.Kvraft1
