import DistSys.Kvraft1.Snapshot

/- Late duplicates of a command on one server, without a snapshot.

   A command is answered from the table as long as its reply is there. A new
   highest number drops what is more than 100 below it, so a duplicate that comes
   after that is executed again: a `Put` that was answered `ErrVersion` can still take
   effect (`late_duplicate_executed`). The test is computed in int64 and wraps around for a
   number within 100 of the smallest one; there it drops even the reply it stands with.

   Up to the first number that fails the test the reply stays (`doOp_keeps`), and every
   duplicate gets the reply of the first and changes nothing (`duplicate_answered`). -/
namespace DistSys.Kvraft1

open Kvsrv1 Lib

/-! ## Logs -/

/-- The client and sequence number of a command. -/
def Req.ids : Req → Option (Int64 × Int64)
  | .raftReq m => some (m.clientId, m.seqNum)
  | .other => none

/-- Commands with the same client and number are the same. -/
def Identical (log : List Req) : Prop :=
  ∀ x ∈ log, ∀ y ∈ log, x.ids.isSome → x.ids = y.ids → x = y

instance (log : List Req) : Decidable (Identical log) :=
  inferInstanceAs (Decidable (∀ x ∈ log, ∀ y ∈ log, x.ids.isSome → x.ids = y.ids → x = y))

/-- A number that was not seen before is above all of its client. -/
def IncreasingAfter (seen : List (Int64 × Int64)) (y : Int64 × Int64) : Prop :=
  y ∉ seen → ∀ x ∈ seen, x.1 = y.1 → x.2 < y.2

instance (seen : List (Int64 × Int64)) (y : Int64 × Int64) : Decidable (IncreasingAfter seen y) :=
  -- the members are tried, not all pairs of numbers
  have : Decidable (∀ x ∈ seen, x.1 = y.1 → x.2 < y.2) := List.decidableBAll _ _
  inferInstanceAs (Decidable (y ∉ seen → ∀ x ∈ seen, x.1 = y.1 → x.2 < y.2))

/-- The numbers of a client are in increasing order where they are first seen. -/
def FirstSeenIncreasing (ids : List (Int64 × Int64)) : Prop :=
  ∀ i < ids.length, IncreasingAfter (ids.take i) (ids.getD i (0, 0))

instance (ids : List (Int64 × Int64)) : Decidable (FirstSeenIncreasing ids) :=
  inferInstanceAs (Decidable (∀ i < ids.length, IncreasingAfter (ids.take i) (ids.getD i (0, 0))))

theorem execute_eq_none {cache : FinMap String KVPair} {m : RaftReqMsg} :
    execute cache m = none ↔ ∃ name, m.command = .other name := by
  unfold execute
  cases m.command with
  | get =>
    cases hlook : cache.lookup m.key with
    | some kvPair => simp
    | none => simp
  | put =>
    cases hlook : cache.lookup m.key with
    | some kvPair =>
      dsimp only
      split <;> simp
    | none =>
      dsimp only
      split <;> simp
  | other name => simp

namespace KVServer

theorem applyAll_append (kv : KVServer) (p q : List Req) :
    (kv.applyAll (p ++ q)).1 = ((kv.applyAll p).1.applyAll q).1 := by
  induction p generalizing kv with
  | nil => rfl
  | cons req p ih => exact ih _

/-! ## What the table has -/

/-- A reply in the table is for a command of the log that was executed. -/
theorem cached_doOp {kv : KVServer} {req : Req} {c s : Int64}
    (h : ((kv.doOp req).1.cached c s).isSome) :
    (kv.cached c s).isSome ∨ ∃ m, req = .raftReq m ∧ m.clientId = c ∧ m.seqNum = s ∧
      ∀ name, m.command ≠ .other name := by
  rcases kv.doOp_spec req with ⟨hkv, -⟩ | ⟨m, cache, replyMsg, rfl, -, hexec, hdo⟩
  · exact Or.inl (by rwa [hkv] at h)
  · rw [hdo, cached_record] at h
    split at h
    · rename_i hc
      split at h
      · simp at h
      · split at h
        · rename_i hs
          refine Or.inr ⟨m, rfl, hc.symm, hs.symm, fun name hname => ?_⟩
          rw [execute_eq_none.mpr ⟨name, hname⟩] at hexec
          contradiction
        · exact Or.inl h
    · exact Or.inl h

theorem cached_applyAll {kv : KVServer} {p : List Req} {c s : Int64}
    (h : ((kv.applyAll p).1.cached c s).isSome) :
    (kv.cached c s).isSome ∨ ∃ m, .raftReq m ∈ p ∧ m.clientId = c ∧ m.seqNum = s ∧
      ∀ name, m.command ≠ .other name := by
  induction p generalizing kv with
  | nil => exact Or.inl h
  | cons req p ih =>
    rcases ih h with hkv | ⟨m, hm, hids⟩
    · rcases cached_doOp hkv with hkv | ⟨m, rfl, hids⟩
      · exact Or.inl hkv
      · exact Or.inr ⟨m, List.mem_cons_self, hids⟩
    · exact Or.inr ⟨m, List.mem_cons_of_mem _ hm, hids⟩

/-- The table has that reply, and the highest number of the client is not below its number. -/
def Answers (kv : KVServer) (c s : Int64) (reply : RaftReplyMsg) : Prop :=
  kv.cached c s = some reply ∧ ∃ max, kv.maxSeqNum c = some max ∧ s ≤ max

/-- The test by which the table drops the reply to `s` when `x` is recorded. -/
def OutOfWindow (s x : Int64) : Prop := s ≤ x ∧ s < x - 100

instance (s x : Int64) : Decidable (OutOfWindow s x) := inferInstanceAs (Decidable (_ ∧ _))

theorem le_raised {max : Option Int64} {s x : Int64} (h : s ≤ x ∨ ∃ m, max = some m ∧ s ≤ m) :
    s ≤ raised max x := by
  unfold raised
  rcases h with hx | ⟨m, rfl, hm⟩
  · split
    · split
      · exact hx
      · rename_i hlt
        exact Int64.le_trans hx (Int64.not_lt.mp hlt)
    · exact hx
  · dsimp only
    split
    · rename_i hlt
      exact Int64.le_of_lt (Int64.lt_of_le_of_lt hm hlt)
    · exact hm

/-- A command keeps the reply unless it is one of the same client that moves it out of the window. -/
theorem doOp_keeps {kv : KVServer} {c s : Int64} {reply : RaftReplyMsg} (h : kv.Answers c s reply)
    {req : Req} (hreq : ∀ m, req = .raftReq m → m.clientId = c → ¬ OutOfWindow s m.seqNum) :
    (kv.doOp req).1.Answers c s reply := by
  rcases kv.doOp_spec req with ⟨hkv, -⟩ | ⟨m, cache, replyMsg, rfl, hnone, -, hdo⟩
  · rwa [hkv]
  obtain ⟨hcached, max, hmax, hle⟩ := h
  rw [hdo]
  refine ⟨?_, ?_⟩
  · rw [cached_record]
    split
    · rename_i hc
      have hkept : collected (kv.maxSeqNum c) m.seqNum s = false := by
        rw [hmax, collected, Bool.and_eq_false_iff, decide_eq_false_iff_not,
          decide_eq_false_iff_not]
        refine or_iff_not_imp_left.mpr ?_
        intro hraises hdropped
        have hlt : max < m.seqNum := not_not.mp hraises
        exact hreq m rfl hc.symm ⟨Int64.le_of_lt (Int64.lt_of_le_of_lt hle hlt), hdropped⟩
      have hne : s ≠ m.seqNum := by
        rintro rfl
        rw [← hc, hcached] at hnone
        contradiction
      rw [hkept, if_neg Bool.false_ne_true, if_neg hne, hcached]
    · exact hcached
  · rw [maxSeqNum_record]
    split
    · exact ⟨_, rfl, le_raised (Or.inr ⟨max, hmax, hle⟩)⟩
    · exact ⟨max, hmax, hle⟩

theorem applyAll_keeps {kv : KVServer} {c s : Int64} {reply : RaftReplyMsg}
    (h : kv.Answers c s reply) {q : List Req}
    (hq : ∀ m, .raftReq m ∈ q → m.clientId = c → ¬ OutOfWindow s m.seqNum) :
    (kv.applyAll q).1.Answers c s reply := by
  induction q generalizing kv with
  | nil => exact h
  | cons req q ih =>
    refine ih (doOp_keeps h ?_) (fun m hm => hq m (List.mem_cons_of_mem _ hm))
    rintro m rfl
    exact hq m List.mem_cons_self

/-- The first execution leaves its reply in the table. -/
theorem doOp_answers {kv : KVServer} {m : RaftReqMsg}
    (hnone : kv.cached m.clientId m.seqNum = none) (hcommand : ∀ name, m.command ≠ .other name)
    (hwindow : ¬ OutOfWindow m.seqNum m.seqNum) :
    (kv.doOp (.raftReq m)).1.Answers m.clientId m.seqNum (kv.doOp (.raftReq m)).2 := by
  cases hexec : execute kv.cache m with
  | none =>
    obtain ⟨name, hname⟩ := execute_eq_none.mp hexec
    exact absurd hname (hcommand name)
  | some p =>
    simp only [KVServer.doOp, hnone, hexec]
    have hself : collected (kv.maxSeqNum m.clientId) m.seqNum m.seqNum = false := by
      unfold collected
      split
      · have hnot : ¬ m.seqNum < m.seqNum - 100 := fun hlt => hwindow ⟨Int64.le_refl _, hlt⟩
        simp [hnot]
      · rfl
    refine ⟨?_, ?_⟩
    · rw [cached_record, if_pos rfl, hself, if_neg Bool.false_ne_true, if_pos rfl]
    · rw [maxSeqNum_record, if_pos rfl]
      exact ⟨_, rfl, le_raised (Or.inl (Int64.le_refl _))⟩

/-- A command that is first seen after `p` and comes again after `q` gets the same reply and leaves
the cache as it is, when no number of its client from its own on, up to there, has moved it out of
the window. -/
theorem duplicate_answered {p q r : List Req} {m m' : RaftReqMsg}
    (hsame : Identical (p ++ .raftReq m :: (q ++ .raftReq m' :: r)))
    (hids : m'.clientId = m.clientId ∧ m'.seqNum = m.seqNum)
    (hfirst : ∀ x, .raftReq x ∈ p → ¬ (x.clientId = m.clientId ∧ x.seqNum = m.seqNum))
    (hwindow : ∀ x, .raftReq x ∈ .raftReq m :: q → x.clientId = m.clientId →
      ¬ OutOfWindow m.seqNum x.seqNum) :
    ((empty.applyAll (p ++ .raftReq m :: q)).1.doOp (.raftReq m')).2 =
        ((empty.applyAll p).1.doOp (.raftReq m)).2 ∧
      ((empty.applyAll (p ++ .raftReq m :: q)).1.doOp (.raftReq m')).1.cache =
        (empty.applyAll (p ++ .raftReq m :: q)).1.cache := by
  obtain rfl : m' = m := by
    have heq := hsame (.raftReq m') (by simp) (.raftReq m) (by simp) rfl
      (by simp [Req.ids, hids.1, hids.2])
    simpa using heq
  have hnone : (empty.applyAll p).1.cached m'.clientId m'.seqNum = none := by
    rw [← Option.not_isSome_iff_eq_none]
    intro hsome
    rcases cached_applyAll hsome with hempty | ⟨x, hx, hc, hs, -⟩
    · simp [KVServer.cached, empty] at hempty
    · exact hfirst x hx ⟨hc, hs⟩
  by_cases hcommand : ∃ name, m'.command = .other name
  · -- such a command is answered by the default branch both times
    have hnone' : (empty.applyAll (p ++ .raftReq m' :: q)).1.cached m'.clientId m'.seqNum = none := by
      rw [← Option.not_isSome_iff_eq_none]
      intro hsome
      rcases cached_applyAll hsome with hempty | ⟨x, hx, hc, hs, hname⟩
      · simp [KVServer.cached, empty] at hempty
      · have heq := hsame (.raftReq x) (by
          simp only [List.mem_append, List.mem_cons] at hx ⊢
          tauto) (.raftReq m') (by simp) rfl (by simp [Req.ids, hc, hs])
        obtain rfl : x = m' := by simpa using heq
        obtain ⟨name, hother⟩ := hcommand
        exact hname name hother
    have hexec : ∀ cache, execute cache m' = none := fun _ => execute_eq_none.mpr hcommand
    simp [KVServer.doOp, hnone, hnone', hexec]
  · have hstart := doOp_answers hnone (not_exists.mp hcommand)
      (hwindow m' List.mem_cons_self rfl)
    have hend := applyAll_keeps hstart (q := q)
      (fun x hx => hwindow x (List.mem_cons_of_mem _ hx))
    rw [applyAll_append]
    simp only [KVServer.applyAll]
    rw [KVServer.doOp, hend.1]
    exact ⟨rfl, rfl⟩

section Sample

/-- A `Put` with a version ahead of its key. -/
def ahead (seqNum : Int64) : RaftReqMsg := ⟨.put, "k", "late", seqNum, 1, 1⟩

def creating (clientId seqNum : Int64) : Req := .raftReq ⟨.put, "k", "first", seqNum, clientId, 0⟩

def reading (seqNum : Int64) : Req := .raftReq ⟨.get, "k", "", seqNum, 1, 0⟩

theorem duplicate_answered_within :
    ((empty.applyAll [.raftReq (ahead 1), creating 1 2, reading 101]).1.doOp
        (.raftReq (ahead 1))).2.err = .errVersion ∧
      ((empty.applyAll [.raftReq (ahead 1), creating 1 2, reading 101]).1.doOp
        (.raftReq (ahead 1))).1.cache.lookup "k" = some ⟨"first", 1⟩ := by
  obtain ⟨hreply, hcache⟩ := @duplicate_answered [] [creating 1 2, reading 101] []
    (ahead 1) (ahead 1) (by decide) ⟨rfl, rfl⟩ (by simp) (by
      intro x hx hclient
      rcases List.mem_cons.mp hx with heq | hx
      · obtain rfl := Req.raftReq.inj heq
        decide
      · rcases List.mem_cons.mp hx with heq | hx
        · obtain rfl := Req.raftReq.inj heq
          decide
        · obtain rfl := Req.raftReq.inj (List.mem_singleton.mp hx)
          decide)
  rw [List.nil_append] at hreply hcache
  rw [hreply, hcache]
  decide

/-- Number 102 moves number 1 out of the window. -/
def moved : List Req := [.raftReq (ahead 1), creating 1 2, reading 102, .raftReq (ahead 1)]

/-- The second number of a client that starts with the smallest one is dropped as it is recorded. -/
def wrapped : List Req :=
  [reading Int64.minValue, .raftReq (ahead (Int64.minValue + 1)), creating 2 1,
    .raftReq (ahead (Int64.minValue + 1))]

/-- A `Put` answered `ErrVersion` takes effect when it comes again. -/
theorem late_duplicate_executed :
    (Identical moved ∧ FirstSeenIncreasing (moved.filterMap Req.ids) ∧
      (empty.applyAll moved).2.map RaftReplyMsg.err = [.errVersion, .ok, .ok, .ok] ∧
      (empty.applyAll (moved.take 3)).1.cache.lookup "k" = some ⟨"first", 1⟩ ∧
      (empty.applyAll moved).1.cache.lookup "k" = some ⟨"late", 2⟩) ∧
    (Identical wrapped ∧ FirstSeenIncreasing (wrapped.filterMap Req.ids) ∧
      (empty.applyAll wrapped).2.map RaftReplyMsg.err = [.errNoKey, .errVersion, .ok, .ok] ∧
      (empty.applyAll (wrapped.take 3)).1.cache.lookup "k" = some ⟨"first", 1⟩ ∧
      (empty.applyAll wrapped).1.cache.lookup "k" = some ⟨"late", 2⟩) := by
  decide

end Sample

end KVServer

end DistSys.Kvraft1
