import DistSys.Kvraft1.Duplicates
import DistSys.Kvraft1.Effects
import Mathlib.Data.Nat.Find

/- Replicas of a log in which no client goes back.

   When the numbers of a client never fall, a command has the highest number of its client when it
   comes up, or a higher one. The reply to the highest number is the one that the table always has:
   the window keeps it, and so does a snapshot. So a replica that was restored from snapshots, any
   number of times and at any points, gives the replies and has the cache of one that executed the
   whole log (`InStep`), and of the copies of a command the first is executed and the others are
   answered with its reply (`exists_first`). -/
namespace DistSys.Kvraft1

open Kvsrv1 Lib

namespace KVServer

/-! ## A replica against the one that executed the whole log -/

/-- The table has no number above the highest. -/
def Bounded (kv : KVServer) : Prop :=
  ∀ c s, (kv.cached c s).isSome → ∃ max, kv.maxSeqNum c = some max ∧ s ≤ max

theorem bounded_empty : empty.Bounded := by
  intro c s h
  simp [KVServer.cached, empty] at h

theorem Bounded.doOp {kv : KVServer} (h : kv.Bounded) (req : Req) : (kv.doOp req).1.Bounded := by
  rcases kv.doOp_spec req with ⟨hkv, -⟩ | ⟨m, cache, reply, -, -, -, hdo⟩
  · rwa [hkv]
  intro c s hs
  rw [hdo] at hs ⊢
  rw [cached_record] at hs
  rw [maxSeqNum_record]
  by_cases hc : c = m.clientId
  · rw [if_pos hc] at hs ⊢
    refine ⟨_, rfl, ?_⟩
    split at hs
    · simp at hs
    · split at hs
      · rename_i hsm
        exact le_raised (Or.inl (Int64.le_of_eq hsm))
      · exact le_raised (Or.inr (h c s hs))
  · rw [if_neg hc] at hs ⊢
    exact h c s hs

/-- `kv` is at the place in the log at which `kv₀` is, which was never restored. -/
structure InStep (kv₀ kv : KVServer) : Prop where
  cache : kv.cache = kv₀.cache
  maxSeqNum : ∀ c, kv.maxSeqNum c = kv₀.maxSeqNum c
  last : ∀ c s, kv₀.maxSeqNum c = some s → kv.cached c s = kv₀.cached c s
  bounded : kv.Bounded

/-- The number of a command is not below the highest of its client. -/
def Follows (kv : KVServer) (m : RaftReqMsg) : Prop :=
  ∀ max, kv.maxSeqNum m.clientId = some max → max ≤ m.seqNum

theorem raised_of_le {max : Option Int64} {s : Int64} (h : ∀ m, max = some m → m ≤ s) :
    raised max s = s := by
  cases max with
  | none => rfl
  | some m =>
    have hle := h m rfl
    simp only [raised]
    split
    · rfl
    · rename_i hlt
      exact Int64.le_antisymm hle (Int64.not_lt.mp hlt)

/-- A number above the highest is not in the table. -/
theorem Bounded.cached_eq_none {kv : KVServer} (h : kv.Bounded) {m : RaftReqMsg}
    (hfollows : kv.Follows m) (hne : kv.maxSeqNum m.clientId ≠ some m.seqNum) :
    kv.cached m.clientId m.seqNum = none := by
  rw [← Option.not_isSome_iff_eq_none]
  intro hsome
  obtain ⟨max, hmax, hle⟩ := h _ _ hsome
  exact hne (by rw [hmax, Int64.le_antisymm (hfollows max hmax) hle])

namespace InStep

variable {kv₀ kv : KVServer} {m : RaftReqMsg}

theorem follows (h : InStep kv₀ kv) (hfollows : kv₀.Follows m) : kv.Follows m := by
  intro max hmax
  exact hfollows max (by rw [← h.maxSeqNum, hmax])

theorem cached (h : InStep kv₀ kv) (h₀ : kv₀.Bounded) (hfollows : kv₀.Follows m) :
    kv.cached m.clientId m.seqNum = kv₀.cached m.clientId m.seqNum := by
  by_cases hmax : kv₀.maxSeqNum m.clientId = some m.seqNum
  · exact h.last _ _ hmax
  · rw [h₀.cached_eq_none hfollows hmax,
      h.bounded.cached_eq_none (h.follows hfollows) (by rwa [h.maxSeqNum])]

/-- A command gets the same reply, and the two stay in step. -/
theorem doOp (h : InStep kv₀ kv) (h₀ : kv₀.Bounded) (hfollows : kv₀.Follows m) :
    (kv.doOp (.raftReq m)).2 = (kv₀.doOp (.raftReq m)).2 ∧
      InStep (kv₀.doOp (.raftReq m)).1 (kv.doOp (.raftReq m)).1 := by
  have hcached := h.cached h₀ hfollows
  have hbounded := h.bounded.doOp (.raftReq m)
  cases hlook : kv₀.cached m.clientId m.seqNum with
  | some reply =>
    rw [hlook] at hcached
    simp only [KVServer.doOp, hlook, hcached]
    exact ⟨trivial, h⟩
  | none =>
    rw [hlook] at hcached
    cases hexec : execute kv₀.cache m with
    | none =>
      simp only [KVServer.doOp, hlook, hcached, h.cache, hexec]
      exact ⟨trivial, h⟩
    | some p =>
      simp only [KVServer.doOp, hlook, hcached, h.cache, hexec] at hbounded ⊢
      refine ⟨trivial, rfl, ?_, ?_, hbounded⟩
      · intro c
        rw [maxSeqNum_record, maxSeqNum_record, h.maxSeqNum]
      · intro c s hs
        rw [maxSeqNum_record] at hs
        rw [cached_record, cached_record, h.maxSeqNum]
        by_cases hc : c = m.clientId
        · -- the new highest number is that of the command
          subst hc
          rw [if_pos rfl, raised_of_le hfollows] at hs
          obtain rfl := Option.some.inj hs
          simp
        · rw [if_neg hc] at hs ⊢
          rw [if_neg hc]
          exact h.last c s hs

/-- Restoring from a snapshot leads to the place of the snapshot, whatever was there before. -/
theorem restore (h : InStep kv₀ kv) (hpos : ∀ c max, kv₀.maxSeqNum c = some max → 0 < max)
    {data : SnapshotData} (hdata : kv.snapshot 11 = some data) (kv' : KVServer) :
    InStep kv₀ (kv'.restore (some data)) := by
  have hmax : ∀ c, kv.maxSeqNum c ≠ some Int64.maxValue := by
    intro c heq
    rw [snapshot_never_returns heq] at hdata
    contradiction
  obtain ⟨data', hdata', hcache, hmaxSeqNum, hcached⟩ := snapshot_spec hmax (le_refl 11) kv'
  obtain rfl : data = data' := Option.some.inj (hdata.symm.trans hdata')
  refine ⟨by rw [hcache, h.cache], fun c => by rw [hmaxSeqNum, h.maxSeqNum], ?_, ?_⟩
  · intro c s hs
    have hkept : recent (kv.maxSeqNum c) s = true := by
      have hs' := hpos c s hs
      have hnine : s - 9 ≤ s := by
        rw [Int64.le_iff_toInt_le, toInt_sub_nine hs']
        omega
      simp [recent, h.maxSeqNum, hs, hs', hnine]
    rw [hcached, hkept, if_pos rfl]
    exact h.last c s hs
  · intro c s hs
    rw [hcached] at hs
    rw [hmaxSeqNum]
    split at hs
    · exact h.bounded c s hs
    · simp at hs

end InStep

end KVServer

/-! ## Logs -/

/-- The numbers of a client never fall, and one number is one command. -/
structure WellNumbered (log : List RaftReqMsg) : Prop where
  inOrder : log.Pairwise fun x y => x.clientId = y.clientId → x.seqNum ≤ y.seqNum
  positive : ∀ m ∈ log, 0 < m.seqNum
  identical : ∀ x ∈ log, ∀ y ∈ log, x.clientId = y.clientId → x.seqNum = y.seqNum → x = y
  known : ∀ m ∈ log, ∀ name, m.command ≠ .other name

/-- The server that executed the first `i` commands of a log. -/
def replayed (log : List RaftReqMsg) (i : Nat) : KVServer :=
  (KVServer.empty.applyAll ((log.take i).map .raftReq)).1

section Log

variable {log : List RaftReqMsg} {i : Nat} {m : RaftReqMsg}

theorem replayed_succ (hi : log[i]? = some m) :
    replayed log (i + 1) = ((replayed log i).doOp (.raftReq m)).1 := by
  unfold replayed
  rw [List.take_add_one, hi, List.map_append, KVServer.applyAll_append]
  rfl

theorem replayed_succ_of_none (hi : log[i]? = none) : replayed log (i + 1) = replayed log i := by
  have hlen := List.getElem?_eq_none_iff.mp hi
  unfold replayed
  rw [List.take_of_length_le hlen, List.take_of_length_le (by omega)]

/-- Later commands do not matter. -/
theorem replayed_append (log' : List RaftReqMsg) (hi : i ≤ log.length) :
    replayed (log ++ log') i = replayed log i := by
  unfold replayed
  rw [List.take_append_of_le_length hi]

theorem bounded_replayed (log : List RaftReqMsg) (i : Nat) : (replayed log i).Bounded := by
  induction i with
  | zero => exact KVServer.bounded_empty
  | succ i ih =>
    cases hi : log[i]? with
    | none => rwa [replayed_succ_of_none hi]
    | some m =>
      rw [replayed_succ hi]
      exact ih.doOp _

/-- The highest number of a client is that of one of its commands. -/
theorem exists_of_maxSeqNum {c max : Int64} (h : (replayed log i).maxSeqNum c = some max) :
    ∃ j m, j < i ∧ log[j]? = some m ∧ m.clientId = c ∧ m.seqNum = max := by
  induction i with
  | zero => simp [replayed, KVServer.applyAll, KVServer.maxSeqNum, KVServer.empty] at h
  | succ i ih =>
    have hold : (replayed log i).maxSeqNum c = some max →
        ∃ j m, j < i + 1 ∧ log[j]? = some m ∧ m.clientId = c ∧ m.seqNum = max := by
      intro h
      obtain ⟨j, m, hj, hm⟩ := ih h
      exact ⟨j, m, Nat.lt_succ_of_lt hj, hm⟩
    cases hi : log[i]? with
    | none => exact hold (by rwa [replayed_succ_of_none hi] at h)
    | some m =>
      rw [replayed_succ hi] at h
      rcases (replayed log i).doOp_spec (.raftReq m) with ⟨hkv, -⟩ | ⟨m', cache, reply, heq, -, -, hdo⟩
      · rw [hkv] at h
        exact hold h
      · obtain rfl := Req.raftReq.inj heq
        rw [hdo, KVServer.maxSeqNum_record] at h
        split at h
        · rename_i hc
          -- the higher one of the command's number and the one before
          unfold KVServer.raised at h
          split at h
          · rename_i old hold'
            split at h
            · exact ⟨i, m, Nat.lt_succ_self i, hi, hc.symm, Option.some.inj h⟩
            · exact hold (by rw [hold', ← h])
          · exact ⟨i, m, Nat.lt_succ_self i, hi, hc.symm, Option.some.inj h⟩
        · exact hold h

namespace WellNumbered

theorem le_of_lt (h : WellNumbered log) {j : Nat} {m' : RaftReqMsg} (hij : i < j)
    (hi : log[i]? = some m) (hj : log[j]? = some m') (hc : m.clientId = m'.clientId) :
    m.seqNum ≤ m'.seqNum := by
  obtain ⟨hi', rfl⟩ := List.getElem?_eq_some_iff.mp hi
  obtain ⟨hj', rfl⟩ := List.getElem?_eq_some_iff.mp hj
  exact List.pairwise_iff_getElem.mp h.inOrder i j hi' hj' hij hc

theorem follows (h : WellNumbered log) (hi : log[i]? = some m) : (replayed log i).Follows m := by
  intro max hmax
  obtain ⟨j, m', hji, hj, hc, rfl⟩ := exists_of_maxSeqNum hmax
  exact h.le_of_lt hji hj hi hc

theorem maxSeqNum_pos (h : WellNumbered log) {c max : Int64}
    (hmax : (replayed log i).maxSeqNum c = some max) : 0 < max := by
  obtain ⟨j, m, -, hj, -, rfl⟩ := exists_of_maxSeqNum hmax
  exact h.positive m (List.mem_of_getElem? hj)

/-- A replica executes the next command of the log. -/
theorem inStep_succ (h : WellNumbered log) (hi : log[i]? = some m) {kv : KVServer}
    (hkv : KVServer.InStep (replayed log i) kv) :
    (kv.doOp (.raftReq m)).2 = ((replayed log i).doOp (.raftReq m)).2 ∧
      KVServer.InStep (replayed log (i + 1)) (kv.doOp (.raftReq m)).1 := by
  rw [replayed_succ hi]
  exact hkv.doOp (bounded_replayed log i) (h.follows hi)

end WellNumbered

theorem not_outOfWindow_self {s : Int64} (h : 0 < s) : ¬ KVServer.OutOfWindow s s := by
  rintro ⟨-, hlt⟩
  have hpos := Int64.lt_iff_toInt_lt.mp h
  have hhigh := Int64.toInt_le s
  rw [Int64.toInt_zero] at hpos
  rw [Int64.toInt_maxValue] at hhigh
  have hsub : (s - 100).toInt = s.toInt - 100 := by
    rw [Int64.toInt_sub, show (100 : Int64).toInt = 100 by decide]
    exact Int.bmod_eq_of_le (by omega) (by omega)
  rw [Int64.lt_iff_toInt_lt, hsub] at hlt
  omega

/-- A command that no earlier one is a copy of is not in the table. -/
theorem not_cached_of_first
    (hfirst : ∀ j < i, ∀ m', log[j]? = some m' →
      ¬ (m'.clientId = m.clientId ∧ m'.seqNum = m.seqNum)) :
    (replayed log i).cached m.clientId m.seqNum = none := by
  rw [← Option.not_isSome_iff_eq_none]
  intro hsome
  rcases KVServer.cached_applyAll hsome with hempty | ⟨m', hm', hc, hs, -⟩
  · simp [KVServer.cached, KVServer.empty] at hempty
  · obtain ⟨m'', hmem, heq⟩ := List.mem_map.mp hm'
    obtain rfl := Req.raftReq.inj heq
    obtain ⟨j, hj, rfl⟩ := List.mem_iff_getElem.mp hmem
    rw [List.length_take] at hj
    refine hfirst j (by omega) _ ?_ ⟨hc, hs⟩
    rw [List.getElem_take, List.getElem?_eq_getElem (by omega)]

/-- The reply to the first of two copies is in the table up to the second. -/
theorem WellNumbered.answers_between (h : WellNumbered log) {j k : Nat} (hj : log[j]? = some m)
    (hk : log[k]? = some m) (hnone : (replayed log j).cached m.clientId m.seqNum = none) {n : Nat}
    (hjn : j + 1 ≤ n) (hnk : n ≤ k) :
    (replayed log n).Answers m.clientId m.seqNum ((replayed log j).doOp (.raftReq m)).2 := by
  have hmem := List.mem_of_getElem? hj
  have hwindow := not_outOfWindow_self (h.positive m hmem)
  induction n, hjn using Nat.le_induction with
  | base =>
    rw [replayed_succ hj]
    exact KVServer.doOp_answers hnone (h.known m hmem) hwindow
  | succ n hjn ih =>
    have hlt : n < log.length := hnk.trans (List.getElem?_eq_some_iff.mp hk).1.le
    have hget := List.getElem?_eq_getElem hlt
    rw [replayed_succ hget]
    refine KVServer.doOp_keeps (ih (by omega)) ?_
    intro m' heq hc
    obtain rfl := Req.raftReq.inj heq
    -- between the copies the client has no other number
    have hlow := h.le_of_lt (by omega) hj hget hc.symm
    have hhigh := h.le_of_lt (by omega) hget hk hc
    rwa [Int64.le_antisymm hhigh hlow]

/-- Of the copies of a command the first is executed, and the others are answered with its reply. -/
theorem WellNumbered.exists_first (h : WellNumbered log) (hi : log[i]? = some m) :
    ∃ j ≤ i, log[j]? = some m ∧ (replayed log j).cached m.clientId m.seqNum = none ∧
      ∀ k, log[k]? = some m → k ≠ j → j < k ∧
        (replayed log k).cached m.clientId m.seqNum =
          some ((replayed log j).doOp (.raftReq m)).2 := by
  have hex : ∃ j, log[j]? = some m := ⟨i, hi⟩
  have hj : log[Nat.find hex]? = some m := Nat.find_spec hex
  have hnone : (replayed log (Nat.find hex)).cached m.clientId m.seqNum = none := by
    refine not_cached_of_first ?_
    intro k hk m' hm' hids
    obtain rfl := h.identical m' (List.mem_of_getElem? hm') m (List.mem_of_getElem? hj)
      hids.1 hids.2
    exact Nat.find_min hex hk hm'
  refine ⟨Nat.find hex, Nat.find_min' hex hi, hj, hnone, ?_⟩
  intro k hk hne
  have hjk : Nat.find hex < k := lt_of_le_of_ne (Nat.find_min' hex hk) (Ne.symm hne)
  exact ⟨hjk, (h.answers_between hj hk hnone hjk (le_refl k)).1⟩

end Log

end DistSys.Kvraft1
