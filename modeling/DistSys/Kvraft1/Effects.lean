import DistSys.Lib.Counter
import DistSys.Kvraft1.Server

/- At most one effect of each command, in any log.

   The table of replies does not give it: the window and the snapshots drop
   replies, and a duplicate is then executed again. The versions do. A `Put` takes
   effect only at the version it names and leaves the next one, so the version of a
   key is the number of `Put`s that took effect on it (`version_counts`), and one that
   took effect finds a higher version whenever it is executed again.

   A log is any list of commands with reloads in it: the server takes a snapshot and
   goes on from it. -/
namespace DistSys.Kvraft1

open Kvsrv1 Lib

/-- The version of a key; a missing one behaves like version 0. -/
def versionOf (cache : FinMap String KVPair) (key : String) : Tversion :=
  match cache.lookup key with
  | some kvPair => kvPair.version
  | none => 0

/-! ## One command -/

namespace KVServer

/-- A `Put` that is executed, and answered OK. -/
def Succeeds (kv : KVServer) (raftReq : RaftReqMsg) : Prop :=
  raftReq.command = .put ∧ kv.cached raftReq.clientId raftReq.seqNum = none ∧
    (kv.doOp (.raftReq raftReq)).2.err = .ok

instance (kv : KVServer) (raftReq : RaftReqMsg) : Decidable (kv.Succeeds raftReq) :=
  inferInstanceAs (Decidable (_ ∧ _ ∧ _))

/-- A command changes what the cache has at some key. -/
def Changes (kv : KVServer) (req : Req) : Prop :=
  ∃ key, (kv.doOp req).1.cache.lookup key ≠ kv.cache.lookup key

end KVServer

theorem versionOf_insert (cache : FinMap String KVPair) (key : String) (kvPair : KVPair)
    (key' : String) : versionOf (cache.insert key kvPair) key' =
      if key' = key then kvPair.version else versionOf cache key' := by
  unfold versionOf
  rw [FinMap.lookup_insert_ite]
  by_cases hkey : key' = key
  · simp [hkey]
  · simp [hkey]

/-- The switch leaves the cache as it is, except for a `Put` at the version of its key. -/
theorem execute_cases {cache cache' : FinMap String KVPair} {raftReq : RaftReqMsg}
    {replyMsg : RaftReplyMsg} (h : execute cache raftReq = some (cache', replyMsg)) :
    (cache' = cache ∧ ¬ (raftReq.command = .put ∧ replyMsg.err = .ok)) ∨
      (raftReq.command = .put ∧ replyMsg.err = .ok ∧ raftReq.version = versionOf cache raftReq.key ∧
        cache' = cache.insert raftReq.key ⟨raftReq.value, raftReq.version + 1⟩) := by
  unfold execute at h
  unfold versionOf
  cases hcommand : raftReq.command with
  | get =>
    rw [hcommand] at h
    refine Or.inl ⟨?_, by simp⟩
    cases hlook : cache.lookup raftReq.key with
    | some kvPair => simp_all
    | none => simp_all
  | put =>
    rw [hcommand] at h
    cases hlook : cache.lookup raftReq.key with
    | some kvPair =>
      simp only [hlook] at h
      split at h
      · rename_i hver
        obtain ⟨rfl, rfl⟩ : _ = cache' ∧ _ = replyMsg := by simpa using h
        exact Or.inr ⟨rfl, rfl, hver.symm, by rw [hver]⟩
      · obtain ⟨rfl, rfl⟩ : _ = cache' ∧ _ = replyMsg := by simpa using h
        exact Or.inl ⟨rfl, by simp⟩
    | none =>
      simp only [hlook] at h
      split at h
      · rename_i hver
        obtain ⟨rfl, rfl⟩ : _ = cache' ∧ _ = replyMsg := by simpa using h
        exact Or.inr ⟨rfl, rfl, hver, by rw [hver]; rfl⟩
      · obtain ⟨rfl, rfl⟩ : _ = cache' ∧ _ = replyMsg := by simpa using h
        exact Or.inl ⟨rfl, by simp⟩
  | other name => simp [hcommand] at h

namespace KVServer

/-- What a command can do to the cache. -/
theorem doOp_cases (kv : KVServer) (req : Req) :
    ((kv.doOp req).1.cache = kv.cache ∧ ∀ m, req = .raftReq m → ¬ kv.Succeeds m) ∨
      ∃ m, req = .raftReq m ∧ kv.Succeeds m ∧ m.version = versionOf kv.cache m.key ∧
        (kv.doOp req).1.cache = kv.cache.insert m.key ⟨m.value, m.version + 1⟩ := by
  rcases kv.doOp_spec req with ⟨hsame, hnot⟩ | ⟨m, cache, replyMsg, rfl, hcached, hexec, hdo⟩
  · refine Or.inl ⟨by rw [hsame], ?_⟩
    rintro m rfl ⟨-, hnone, hok⟩
    rcases hnot m rfl with hsome | hexec
    · rw [hnone] at hsome
      contradiction
    · simp [KVServer.doOp, hnone, hexec, wrongLeader] at hok
  · rcases execute_cases hexec with ⟨rfl, hnot⟩ | ⟨hput, hok, hver, rfl⟩
    · refine Or.inl ⟨by rw [hdo], ?_⟩
      rintro m' heq ⟨hput, -, hok⟩
      obtain rfl : m = m' := by simpa using heq
      rw [hdo] at hok
      exact hnot ⟨hput, hok⟩
    · exact Or.inr ⟨m, rfl, ⟨hput, hcached, by rw [hdo]; exact hok⟩, hver, by rw [hdo]⟩

/-- A `Put` that succeeds writes its key, at the version it names. -/
theorem Succeeds.spec {kv : KVServer} {m : RaftReqMsg} (h : kv.Succeeds m) :
    m.version = versionOf kv.cache m.key ∧
      (kv.doOp (.raftReq m)).1.cache = kv.cache.insert m.key ⟨m.value, m.version + 1⟩ := by
  rcases kv.doOp_cases (.raftReq m) with ⟨-, hnot⟩ | ⟨m', heq, -, hver, hcache⟩
  · exact absurd h (hnot m rfl)
  · obtain rfl : m = m' := by simpa using heq
    exact ⟨hver, hcache⟩

theorem Changes.succeeds {kv : KVServer} {m : RaftReqMsg} (h : kv.Changes (.raftReq m)) :
    kv.Succeeds m := by
  obtain ⟨key, hkey⟩ := h
  rcases kv.doOp_cases (.raftReq m) with ⟨hsame, -⟩ | ⟨m', heq, hsucc, -⟩
  · exact absurd (by rw [hsame]) hkey
  · obtain rfl : m = m' := by simpa using heq
    exact hsucc

theorem Succeeds.changes {kv : KVServer} {m : RaftReqMsg} (h : kv.Succeeds m) :
    kv.Changes (.raftReq m) := by
  obtain ⟨hver, hcache⟩ := h.spec
  refine ⟨m.key, fun heq => ?_⟩
  have hsame : versionOf (kv.cache.insert m.key ⟨m.value, m.version + 1⟩) m.key =
      versionOf kv.cache m.key := by
    unfold versionOf
    rw [← hcache, heq]
  rw [versionOf_insert, if_pos rfl, ← hver] at hsame
  simp at hsame

/-! ## A log with reloads -/

/-- A command, or `Restore(Snapshot())`; the loop of `Snapshot` has the fuel given. -/
inductive Event where
  | doOp (req : Req)
  | reload (fuel : Nat)

def step (kv : KVServer) : Event → Option KVServer
  | .doOp req => some (kv.doOp req).1
  | .reload fuel => (kv.snapshot fuel).map fun data => kv.restore (some data)

/-- All logs, from a new server on. -/
def logs : Lts KVServer Event where
  init kv := kv = empty
  step kv e kv' := kv.step e = some kv'

/-- Whether an event of a log is a `Put` that succeeds at the key. -/
def succeedsAt (key : String) : KVServer × Event → Bool
  | (kv, .doOp (.raftReq m)) => m.key = key && kv.Succeeds m
  | _ => false

theorem reload_cache {kv kv' : KVServer} {fuel : Nat} (h : kv.step (.reload fuel) = some kv') :
    kv'.cache = kv.cache := by
  obtain ⟨data, hdata, rfl⟩ := Option.map_eq_some_iff.mp h
  obtain ⟨tab, -, rfl⟩ := Option.map_eq_some_iff.mp hdata
  rfl

/-- What an event can do to the cache. -/
theorem step_cases {kv kv' : KVServer} {e : Event} (h : kv.step e = some kv') :
    (kv'.cache = kv.cache ∧ ∀ key, succeedsAt key (kv, e) = false) ∨
      ∃ m, e = .doOp (.raftReq m) ∧ kv.Succeeds m ∧ m.version = versionOf kv.cache m.key ∧
        kv'.cache = kv.cache.insert m.key ⟨m.value, m.version + 1⟩ := by
  cases e with
  | reload fuel => exact Or.inl ⟨reload_cache h, fun _ => rfl⟩
  | doOp req =>
    obtain rfl := Option.some.inj h
    rcases kv.doOp_cases req with ⟨hsame, hnot⟩ | ⟨m, rfl, hsucc, hver, hcache⟩
    · refine Or.inl ⟨hsame, fun key => ?_⟩
      cases req with
      | other => rfl
      | raftReq m => simp [succeedsAt, hnot m rfl]
    · exact Or.inr ⟨m, rfl, hsucc, hver, hcache⟩

/-- The version of a key counts the `Put`s that succeed at it. -/
theorem version_counts (key : String) :
    logs.Counts (2 ^ 64) (fun kv => (versionOf kv.cache key).toNat) (succeedsAt key) where
  raises := by
    intro kv e kv' hstep hmark
    rcases step_cases hstep with ⟨-, hnot⟩ | ⟨m, rfl, hsucc, hver, hcache⟩
    · rw [hnot key] at hmark
      contradiction
    · obtain ⟨rfl, -⟩ : m.key = key ∧ kv.Succeeds m := by simpa [succeedsAt] using hmark
      simp [hcache, versionOf_insert, hver, UInt64.toNat_add]
  keeps := by
    intro kv e kv' hstep hmark
    rcases step_cases hstep with ⟨hsame, -⟩ | ⟨m, rfl, hsucc, -, hcache⟩
    · rw [hsame]
    · have hkey : key ≠ m.key := by
        rintro rfl
        simp [succeedsAt, hsucc] at hmark
      rw [hcache, versionOf_insert, if_neg hkey]

/-- A key that is there stays there. -/
theorem step_present {kv kv' : KVServer} {e : Event} (h : kv.step e = some kv') {key : String}
    (hkey : (kv.cache.lookup key).isSome) : (kv'.cache.lookup key).isSome := by
  rcases step_cases h with ⟨hsame, -⟩ | ⟨m, -, -, -, hcache⟩
  · rwa [hsame]
  · rw [hcache, FinMap.lookup_insert_ite]
    split
    · rfl
    · exact hkey

/-! ## What holds of every log -/

/-- A `Put` that succeeded is not let through again, at any later place of the log. -/
theorem succeeds_once {kv : KVServer} {tr : List (KVServer × Event)} (hrun : logs.Run empty tr kv)
    {i j : ℕ} {u u' : KVServer} {m : RaftReqMsg}
    (hfew : tr.countP (succeedsAt m.key) < 2 ^ 64) (hij : i < j)
    (hi : tr[i]? = some (u, .doOp (.raftReq m))) (hj : tr[j]? = some (u', .doOp (.raftReq m)))
    (hu : u.Succeeds m) : ¬ u'.Succeeds m := by
  intro hu'
  have hlt := (version_counts m.key).val_lt rfl hrun hfew hij hi (by simp [succeedsAt, hu])
    (visited_of_step hj)
  rw [← hu.spec.1, ← hu'.spec.1] at hlt
  exact lt_irrefl _ hlt

/-- In any log, with reloads anywhere, in which a client and number stand for one command and fewer
than `2 ^ 64` `Put`s succeed at each key: at most one occurrence of a client and number changes the
cache; a key that is there stays, and its version does not get lower; and a `Put` that succeeds
raises the version of its key by one and leaves every other key as it is. -/
theorem effect_at_most_once {kv : KVServer} {tr : List (KVServer × Event)}
    (hrun : logs.Run empty tr kv)
    (hsame : ∀ (u u' : KVServer) (m m' : RaftReqMsg), (u, Event.doOp (.raftReq m)) ∈ tr →
      (u', Event.doOp (.raftReq m')) ∈ tr →
      m.clientId = m'.clientId → m.seqNum = m'.seqNum → m = m')
    (hfew : ∀ key, tr.countP (succeedsAt key) < 2 ^ 64) :
    (∀ (i j : ℕ) (u u' : KVServer) (m m' : RaftReqMsg), tr[i]? = some (u, .doOp (.raftReq m)) →
      tr[j]? = some (u', .doOp (.raftReq m')) → m.clientId = m'.clientId → m.seqNum = m'.seqNum →
      u.Changes (.raftReq m) → u'.Changes (.raftReq m') → i = j) ∧
    (∀ (i j : ℕ) (u u' : KVServer) (key : String) (p : KVPair), i ≤ j →
      (visited tr kv)[i]? = some u → (visited tr kv)[j]? = some u' → u.cache.lookup key = some p →
      ∃ p', u'.cache.lookup key = some p' ∧ p.version ≤ p'.version) ∧
    (∀ (u : KVServer) (m : RaftReqMsg), (u, Event.doOp (.raftReq m)) ∈ tr → u.Succeeds m →
      (∃ p, (u.doOp (.raftReq m)).1.cache.lookup m.key = some p ∧
        p.version.toNat = (versionOf u.cache m.key).toNat + 1) ∧
      ∀ key, key ≠ m.key →
        (u.doOp (.raftReq m)).1.cache.lookup key = u.cache.lookup key) := by
  refine ⟨?_, ?_, ?_⟩
  · intro i j u u' m m' hi hj hclient hseq hu hu'
    obtain rfl : m = m' :=
      hsame u u' m m' (List.mem_of_getElem? hi) (List.mem_of_getElem? hj) hclient hseq
    rcases lt_trichotomy i j with hij | hij | hij
    · exact absurd hu'.succeeds (succeeds_once hrun (hfew m.key) hij hi hj hu.succeeds)
    · exact hij
    · exact absurd hu.succeeds (succeeds_once hrun (hfew m.key) hij hj hi hu'.succeeds)
  · intro i j u u' key p hij hi hj hp
    have hpresent : (u'.cache.lookup key).isSome :=
      hrun.kept (I := fun kv => (kv.cache.lookup key).isSome) (fun _ _ _ hk hst => step_present hst hk)
        hij hi hj (by rw [hp]; rfl)
    obtain ⟨p', hp'⟩ := Option.isSome_iff_exists.mp hpresent
    have hle := (version_counts key).val_mono rfl hrun (hfew key) hij hi hj
    refine ⟨p', hp', UInt64.le_iff_toNat_le.mpr ?_⟩
    simpa only [versionOf, hp, hp'] using hle
  · intro u m hmem hu
    obtain ⟨hver, hcache⟩ := hu.spec
    refine ⟨⟨_, by rw [hcache, AList.lookup_insert], ?_⟩, ?_⟩
    · obtain ⟨i, hi⟩ := List.mem_iff_getElem?.mp hmem
      obtain ⟨w, hw, hstep⟩ := hrun.visited_succ hi
      have hsucc := (version_counts m.key).val_succ rfl hrun (hfew m.key) hi
        (by simp [succeedsAt, hu]) hw
      obtain rfl := Option.some.inj hstep
      rwa [hcache, versionOf_insert, if_pos rfl] at hsucc
    · intro key hkey
      rw [hcache, AList.lookup_insert_ne hkey]

section Sample

def creates : RaftReqMsg := ⟨.put, "k", "first", 1, 1, 0⟩

/-- The `Put` that creates a key, a reload, a `Get` that moves it out of the window, and the `Put`
again, which is executed a second time. -/
def lateAgain : List Event :=
  [.doOp (.raftReq creates), .reload 11, .doOp (.raftReq ⟨.get, "k", "", 200, 1, 0⟩),
    .doOp (.raftReq creates)]

theorem effect_at_most_once_lateAgain :
    (after step empty (lateAgain.take 3)).cached 1 1 = none ∧
      ¬ (after step empty (lateAgain.take 3)).Changes (.raftReq creates) := by
  refine ⟨by decide, ?_⟩
  intro hagain
  have hrun : logs.Run empty (traceOf step empty lateAgain) (after step empty lateAgain) :=
    Lts.run_of_steps (fun _ _ _ h => h) (by decide)
  have hlabels : (traceOf step empty lateAgain).map Prod.snd = lateAgain :=
    traceOf_labels empty lateAgain
  have hone : ∀ e ∈ lateAgain, ∀ e' ∈ lateAgain, (match e, e' with
      | .doOp (.raftReq m), .doOp (.raftReq m') =>
        m.clientId != m'.clientId || m.seqNum != m'.seqNum || decide (m = m')
      | _, _ => true) = true := by decide
  have hmem : ∀ (u : KVServer) (e : Event), (u, e) ∈ traceOf step empty lateAgain →
      e ∈ lateAgain := by
    intro u e he
    rw [← hlabels]
    exact List.mem_map_of_mem he
  have htwice := (effect_at_most_once hrun
    (fun u u' m m' hm hm' hclient hseq => by
      simpa [hclient, hseq] using hone _ (hmem _ _ hm) _ (hmem _ _ hm'))
    (fun key => lt_of_le_of_lt List.countP_le_length (by decide))).1
    0 3 _ _ _ _ rfl rfl rfl rfl ⟨"k", by decide⟩ hagain
  contradiction

end Sample

end KVServer

end DistSys.Kvraft1
