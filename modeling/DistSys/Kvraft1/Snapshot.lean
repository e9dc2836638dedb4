import DistSys.Lib.Counter
import DistSys.Kvraft1.Server

/- A server restored from a snapshot against the one it was taken from.

   `Snapshot` keeps the cache, and of the table of each client the highest number
   and the last ten replies; the server itself keeps what is within 100. So a late
   duplicate of a command whose reply was left out is answered from the table by the
   one server and executed again by the other (`late_duplicate_splits`).

   The two are kept in step by a relation: equal caches, equal highest numbers, and
   a restored table that differs from the other only in replies the snapshot left
   out (`Restored`). Each command that does not ask for one of those keeps it and
   gets the same reply, and so does a whole log of them. -/
namespace DistSys.Kvraft1

open Kvsrv1 Lib

/-! ## The table -/

namespace KVServer

/-- The highest sequence number of a client. -/
def maxSeqNum (kv : KVServer) (clientId : Int64) : Option Int64 :=
  (kv.clientMap.lookup clientId).map DupTab.maxSeqNum

end KVServer

/-- Whether a reply goes when `seqNum` is recorded for a client whose highest number is `max`. -/
def collected (max : Option Int64) (seqNum old : Int64) : Bool :=
  match max with
  | some max => max < seqNum && old < seqNum - 100
  | none => false

theorem DupTab.lookup_record (dup : DupTab) (seqNum : Int64) (reply : RaftReplyMsg) (old : Int64) :
    (dup.record seqNum reply).replies.lookup old =
      if collected (some dup.maxSeqNum) seqNum old then none
      else if old = seqNum then some reply else dup.replies.lookup old := by
  unfold DupTab.record
  dsimp only
  split
  · rename_i hmax
    rw [FinMap.lookup_filterMap, FinMap.lookup_insert_ite]
    have hcol : collected (some dup.maxSeqNum) seqNum old = decide (old < seqNum - 100) := by
      simp [collected, show dup.maxSeqNum < seqNum from hmax]
    rw [hcol]
    by_cases hold : old < seqNum - 100
    · simp [hold]
    · simp [hold]
  · rename_i hmax
    rw [FinMap.lookup_insert_ite]
    have hcol : collected (some dup.maxSeqNum) seqNum old = false := by
      simp [collected, show ¬ dup.maxSeqNum < seqNum from hmax]
    rw [hcol]
    rfl

theorem DupTab.maxSeqNum_record (dup : DupTab) (seqNum : Int64) (reply : RaftReplyMsg) :
    (dup.record seqNum reply).maxSeqNum = if dup.maxSeqNum < seqNum then seqNum else dup.maxSeqNum := by
  unfold DupTab.record
  dsimp only
  split <;> rfl

namespace KVServer

/-- What the table has after a reply is recorded. -/
theorem cached_record (kv : KVServer) (raftReq : RaftReqMsg) (reply : RaftReplyMsg)
    (cache : FinMap String KVPair) (c s : Int64) :
    KVServer.cached ⟨cache, record kv.clientMap raftReq reply⟩ c s =
      if c = raftReq.clientId then
        if collected (kv.maxSeqNum c) raftReq.seqNum s then none
        else if s = raftReq.seqNum then some reply else kv.cached c s
      else kv.cached c s := by
  unfold KVServer.cached KVServer.maxSeqNum record
  by_cases hc : c = raftReq.clientId
  · subst hc
    cases hlook : kv.clientMap.lookup raftReq.clientId with
    | some dup => simp [DupTab.lookup_record]
    | none => simp [FinMap.lookup_singleton, collected]
  · cases hlook : kv.clientMap.lookup raftReq.clientId with
    | some dup => simp [hc, AList.lookup_insert_ne hc]
    | none => simp [hc, AList.lookup_insert_ne hc]

/-- The highest number of a client after it asked for `seqNum`. -/
def raised (max : Option Int64) (seqNum : Int64) : Int64 :=
  match max with
  | some max => if max < seqNum then seqNum else max
  | none => seqNum

theorem raised_ne {max : Option Int64} {seqNum m : Int64} (hmax : max ≠ some m) (hs : seqNum ≠ m) :
    raised max seqNum ≠ m := by
  unfold raised
  split
  · split
    · exact hs
    · exact fun heq => hmax (congrArg some heq)
  · exact hs

theorem maxSeqNum_record (kv : KVServer) (raftReq : RaftReqMsg) (reply : RaftReplyMsg)
    (cache : FinMap String KVPair) (c : Int64) :
    KVServer.maxSeqNum ⟨cache, record kv.clientMap raftReq reply⟩ c =
      if c = raftReq.clientId then some (raised (kv.maxSeqNum c) raftReq.seqNum)
      else kv.maxSeqNum c := by
  unfold KVServer.maxSeqNum record
  by_cases hc : c = raftReq.clientId
  · subst hc
    cases hlook : kv.clientMap.lookup raftReq.clientId with
    | some dup => simp [DupTab.maxSeqNum_record, raised]
    | none => simp [raised]
  · cases hlook : kv.clientMap.lookup raftReq.clientId with
    | some dup => simp [hc, AList.lookup_insert_ne hc]
    | none => simp [hc, AList.lookup_insert_ne hc]

end KVServer

/-! ## What a snapshot keeps -/

theorem toInt_sub_nine {a : Int64} (ha : 0 < a) : (a - 9).toInt = a.toInt - 9 := by
  have hpos := Int64.lt_iff_toInt_lt.mp ha
  have hhigh := Int64.toInt_le a
  rw [Int64.toInt_zero] at hpos
  rw [Int64.toInt_maxValue] at hhigh
  rw [Int64.toInt_sub, show (9 : Int64).toInt = 9 by decide]
  exact Int.bmod_eq_of_le (by omega) (by omega)

/-- A range that ends before the largest number is passed in a turn for each of its numbers and one
more, and the loop keeps the replies there are in it. -/
theorem recentReplies_returns (dup : DupTab) (hmax : dup.maxSeqNum ≠ Int64.maxValue) :
    ∀ (fuel : Nat) (seqNum : Int64) (recent : FinMap Int64 RaftReplyMsg),
      (dup.maxSeqNum.toInt + 1 - seqNum.toInt).toNat < fuel →
      ∃ kept, recentReplies dup fuel seqNum recent = some kept ∧
        ∀ s, kept.lookup s = if seqNum ≤ s ∧ s ≤ dup.maxSeqNum ∧ (dup.replies.lookup s).isSome
          then dup.replies.lookup s else recent.lookup s := by
  intro fuel
  induction fuel with
  | zero =>
    intro seqNum recent hfuel
    omega
  | succ fuel ih =>
    intro seqNum recent hfuel
    unfold recentReplies
    by_cases hle : seqNum ≤ dup.maxSeqNum
    · have hsucc := toInt_succ hle hmax
      have hle' := Int64.le_iff_toInt_le.mp hle
      rw [if_pos hle]
      -- the rest of the range, after one more number
      have hrest : ∀ s, s ≠ seqNum → (seqNum + 1 ≤ s ↔ seqNum ≤ s) := by
        intro s hne
        have hne' : s.toInt ≠ seqNum.toInt := fun heq => hne (Int64.toInt_inj.mp heq)
        rw [Int64.le_iff_toInt_le, Int64.le_iff_toInt_le, hsucc]
        omega
      have hself : ¬ seqNum + 1 ≤ seqNum := by
        rw [Int64.le_iff_toInt_le, hsucc]
        omega
      cases hlook : dup.replies.lookup seqNum with
      | some reply =>
        obtain ⟨kept, hkept, hget⟩ := ih (seqNum + 1) (recent.insert seqNum reply) (by omega)
        refine ⟨kept, hkept, fun s => ?_⟩
        rw [hget]
        by_cases hs : s = seqNum
        · subst hs
          simp [hself, hle, hlook]
        · rw [AList.lookup_insert_ne hs]
          simp only [hrest s hs]
      | none =>
        obtain ⟨kept, hkept, hget⟩ := ih (seqNum + 1) recent (by omega)
        refine ⟨kept, hkept, fun s => ?_⟩
        rw [hget]
        by_cases hs : s = seqNum
        · subst hs
          simp [hlook]
        · simp only [hrest s hs]
    · rw [if_neg hle]
      refine ⟨recent, rfl, fun s => ?_⟩
      rw [if_neg]
      rintro ⟨hs, hs', -⟩
      exact hle (Int64.le_trans hs hs')

/-- At the largest number the loop never ends. -/
theorem recentReplies_never_returns (dup : DupTab) (hmax : dup.maxSeqNum = Int64.maxValue) :
    ∀ (fuel : Nat) (seqNum : Int64) (recent : FinMap Int64 RaftReplyMsg),
      recentReplies dup fuel seqNum recent = none := by
  intro fuel
  induction fuel with
  | zero =>
    intro seqNum recent
    rfl
  | succ fuel ih =>
    intro seqNum recent
    have hle : seqNum ≤ dup.maxSeqNum := hmax ▸ Int64.le_maxValue seqNum
    unfold recentReplies
    rw [if_pos hle]
    split
    · exact ih _ _
    · exact ih _ _

/-- Whether a snapshot keeps a reply of a client with that highest number. -/
def recent (max : Option Int64) (seqNum : Int64) : Bool :=
  match max with
  | some max => 0 < max && max - 9 ≤ seqNum && seqNum ≤ max
  | none => false

theorem compactDup_spec {dup : DupTab} (hmax : dup.maxSeqNum ≠ Int64.maxValue) {fuel : Nat}
    (hfuel : 11 ≤ fuel) :
    ∃ dup', compactDup fuel dup = some dup' ∧ dup'.maxSeqNum = dup.maxSeqNum ∧
      ∀ s, dup'.replies.lookup s =
        if recent (some dup.maxSeqNum) s then dup.replies.lookup s else none := by
  unfold compactDup
  by_cases hpos : dup.maxSeqNum > 0
  · have hnine := toInt_sub_nine hpos
    obtain ⟨kept, hkept, hget⟩ :=
      recentReplies_returns dup hmax fuel (dup.maxSeqNum - 9) ∅ (by omega)
    rw [if_pos hpos, hkept]
    refine ⟨_, rfl, rfl, fun s => ?_⟩
    dsimp only
    rw [hget]
    have hpos' : 0 < dup.maxSeqNum := hpos
    by_cases hs : dup.maxSeqNum - 9 ≤ s ∧ s ≤ dup.maxSeqNum
    · cases hlook : dup.replies.lookup s with
      | some reply => simp [recent, hpos', hs]
      | none => simp
    · have hrecent : recent (some dup.maxSeqNum) s = false := by
        simpa [recent, hpos'] using hs
      rw [if_neg (fun h => hs ⟨h.1, h.2.1⟩), hrecent]
      rfl
  · rw [if_neg hpos]
    refine ⟨_, rfl, rfl, fun s => ?_⟩
    have hpos' : ¬ 0 < dup.maxSeqNum := hpos
    simp [recent, hpos']

namespace KVServer

/-- The table has a reply that a snapshot leaves out. -/
def Dropped (kv : KVServer) (clientId seqNum : Int64) : Prop :=
  (kv.cached clientId seqNum).isSome ∧ recent (kv.maxSeqNum clientId) seqNum = false

instance (kv : KVServer) (clientId seqNum : Int64) : Decidable (kv.Dropped clientId seqNum) :=
  inferInstanceAs (Decidable (_ ∧ _))

/-- A snapshot returns when no client is at the largest number; a server restored from it has the
cache, the highest numbers and the recent replies. -/
theorem snapshot_spec {kv : KVServer} (hmax : ∀ c, kv.maxSeqNum c ≠ some Int64.maxValue) {fuel : Nat}
    (hfuel : 11 ≤ fuel) (kv' : KVServer) :
    ∃ data, kv.snapshot fuel = some data ∧ (kv'.restore (some data)).cache = kv.cache ∧
      (∀ c, (kv'.restore (some data)).maxSeqNum c = kv.maxSeqNum c) ∧
      ∀ c s, (kv'.restore (some data)).cached c s =
        if recent (kv.maxSeqNum c) s then kv.cached c s else none := by
  have hdup : ∀ c dup, kv.clientMap.lookup c = some dup → dup.maxSeqNum ≠ Int64.maxValue := by
    intro c dup hlook heq
    refine hmax c ?_
    rw [KVServer.maxSeqNum, hlook]
    exact congrArg some heq
  have htraverse : kv.clientMap.traverse (fun _ dup => compactDup fuel dup) =
      some (FinMap.filterMap (fun _ dup => compactDup fuel dup) kv.clientMap) := by
    refine FinMap.traverse_eq_some ?_
    intro c dup hlook
    obtain ⟨dup', hdup', -⟩ := compactDup_spec (hdup c dup hlook) hfuel
    rw [hdup']
    rfl
  refine ⟨⟨kv.cache, FinMap.filterMap (fun _ dup => compactDup fuel dup) kv.clientMap⟩, ?_, rfl,
    ?_, ?_⟩
  · rw [KVServer.snapshot, htraverse]
    rfl
  · intro c
    cases hlook : kv.clientMap.lookup c with
    | none => simp [KVServer.maxSeqNum, KVServer.restore, hlook]
    | some dup =>
      obtain ⟨dup', hdup', hmax', -⟩ := compactDup_spec (hdup c dup hlook) hfuel
      simp [KVServer.maxSeqNum, KVServer.restore, hlook, hdup', hmax']
  · intro c s
    cases hlook : kv.clientMap.lookup c with
    | none => simp [KVServer.cached, KVServer.restore, hlook]
    | some dup =>
      obtain ⟨dup', hdup', -, hget⟩ := compactDup_spec (hdup c dup hlook) hfuel
      simp [KVServer.cached, KVServer.maxSeqNum, KVServer.restore, hlook, hdup', hget]

/-- With a client at the largest number, `Snapshot` does not return. -/
theorem snapshot_never_returns {kv : KVServer} {c : Int64}
    (hmax : kv.maxSeqNum c = some Int64.maxValue) (fuel : Nat) : kv.snapshot fuel = none := by
  obtain ⟨dup, hlook, hdup⟩ := Option.map_eq_some_iff.mp hmax
  have hcompact : compactDup fuel dup = none := by
    unfold compactDup
    rw [if_pos (show dup.maxSeqNum > 0 by rw [hdup]; decide),
      recentReplies_never_returns dup hdup]
    rfl
  rw [KVServer.snapshot, FinMap.traverse_eq_none hlook hcompact]
  rfl

/-! ## The two servers in step -/

/-- `restored` was restored from a snapshot of `kv₀`, and both went on with the same commands. -/
structure Restored (kv₀ kv restored : KVServer) : Prop where
  cache : restored.cache = kv.cache
  maxSeqNum : ∀ c, restored.maxSeqNum c = kv.maxSeqNum c
  cached : ∀ c s, restored.cached c s = kv.cached c s ∨
    (restored.cached c s = none ∧ kv₀.Dropped c s)

namespace Restored

variable {kv₀ kv restored : KVServer}

/-- Recording the same reply in both. -/
theorem record (h : Restored kv₀ kv restored) (cache : FinMap String KVPair) (raftReq : RaftReqMsg)
    (reply : RaftReplyMsg) :
    Restored kv₀ ⟨cache, Kvraft1.record kv.clientMap raftReq reply⟩
      ⟨cache, Kvraft1.record restored.clientMap raftReq reply⟩ := by
  refine ⟨rfl, ?_, ?_⟩
  · intro c
    rw [maxSeqNum_record, maxSeqNum_record, h.maxSeqNum]
  · intro c s
    rw [cached_record, cached_record, h.maxSeqNum]
    split
    · split
      · exact Or.inl rfl
      · split
        · exact Or.inl rfl
        · exact h.cached c s
    · exact h.cached c s

/-- One command that does not ask for a reply only the one server has. -/
theorem doOp (h : Restored kv₀ kv restored) {req : Req}
    (hreq : ∀ m, req = .raftReq m → kv₀.Dropped m.clientId m.seqNum →
      kv.cached m.clientId m.seqNum = none) :
    (restored.doOp req).2 = (kv.doOp req).2 ∧
      Restored kv₀ (kv.doOp req).1 (restored.doOp req).1 := by
  cases req with
  | other => exact ⟨rfl, h⟩
  | raftReq m =>
    have hsame : restored.cached m.clientId m.seqNum = kv.cached m.clientId m.seqNum := by
      rcases h.cached m.clientId m.seqNum with heq | ⟨hnone, hdropped⟩
      · exact heq
      · rw [hnone, hreq m rfl hdropped]
    simp only [KVServer.doOp, hsame, h.cache]
    split
    · exact ⟨rfl, h⟩
    · split
      · exact ⟨rfl, h.record _ m _⟩
      · exact ⟨rfl, h⟩

theorem applyAll {q : List Req} (h : Restored kv₀ kv restored)
    (hq : ∀ q₁ m q₂, q = q₁ ++ .raftReq m :: q₂ → kv₀.Dropped m.clientId m.seqNum →
      (kv.applyAll q₁).1.cached m.clientId m.seqNum = none) :
    (restored.applyAll q).2 = (kv.applyAll q).2 ∧
      Restored kv₀ (kv.applyAll q).1 (restored.applyAll q).1 := by
  induction q generalizing kv restored with
  | nil => exact ⟨rfl, h⟩
  | cons req q ih =>
    have hreq : ∀ m, req = .raftReq m → kv₀.Dropped m.clientId m.seqNum →
        kv.cached m.clientId m.seqNum = none := by
      intro m hm hdropped
      exact hq [] m q (by rw [hm]; rfl) hdropped
    obtain ⟨hreply, hnext⟩ := h.doOp hreq
    obtain ⟨hreplies, hlast⟩ := ih hnext (fun q₁ m q₂ hsplit hdropped =>
      hq (req :: q₁) m q₂ (by rw [hsplit]; rfl) hdropped)
    refine ⟨?_, hlast⟩
    simp only [KVServer.applyAll, hreply, hreplies]

end Restored

/-- No client gets to the largest number without asking for it. -/
theorem maxSeqNum_applyAll {p : List Req} (hp : ∀ m, .raftReq m ∈ p → m.seqNum ≠ Int64.maxValue)
    {kv : KVServer} (hkv : ∀ c, kv.maxSeqNum c ≠ some Int64.maxValue) (c : Int64) :
    (kv.applyAll p).1.maxSeqNum c ≠ some Int64.maxValue := by
  induction p generalizing kv with
  | nil => exact hkv c
  | cons req p ih =>
    refine ih (fun m hm => hp m (List.mem_cons_of_mem _ hm)) ?_
    intro d
    cases req with
    | other => exact hkv d
    | raftReq m =>
      dsimp only
      split
      · exact hkv d
      · split
        · rw [maxSeqNum_record]
          split
          · have hne := raised_ne (hkv d) (hp m List.mem_cons_self)
            simpa using hne
          · exact hkv d
        · exact hkv d

/-- Applying `q` to a server and to one restored from its snapshot gives the same replies and the
same cache, when a command whose reply the snapshot left out comes only after the server dropped
that reply too. `Snapshot` returns when no client used the largest sequence number. -/
theorem restored_in_step (p q : List Req) {fuel : Nat} (hfuel : 11 ≤ fuel)
    (hp : ∀ m, .raftReq m ∈ p → m.seqNum ≠ Int64.maxValue)
    (hq : ∀ q₁ m q₂, q = q₁ ++ .raftReq m :: q₂ →
      (empty.applyAll p).1.Dropped m.clientId m.seqNum →
      ((empty.applyAll p).1.applyAll q₁).1.cached m.clientId m.seqNum = none) :
    ∃ data, (empty.applyAll p).1.snapshot fuel = some data ∧
      ((empty.restore (some data)).applyAll q).2 = ((empty.applyAll p).1.applyAll q).2 ∧
      ((empty.restore (some data)).applyAll q).1.cache =
        ((empty.applyAll p).1.applyAll q).1.cache := by
  have hmax : ∀ c, (empty.applyAll p).1.maxSeqNum c ≠ some Int64.maxValue :=
    maxSeqNum_applyAll hp (by simp [KVServer.maxSeqNum, empty])
  obtain ⟨data, hdata, hcache, hmaxes, hcached⟩ := snapshot_spec hmax hfuel empty
  have hstart : Restored (empty.applyAll p).1 (empty.applyAll p).1 (empty.restore (some data)) := by
    refine ⟨hcache, hmaxes, ?_⟩
    intro c s
    rw [hcached]
    cases hrecent : recent ((empty.applyAll p).1.maxSeqNum c) s with
    | true => exact Or.inl rfl
    | false =>
      cases hlook : (empty.applyAll p).1.cached c s with
      | none => exact Or.inl rfl
      | some reply => exact Or.inr ⟨rfl, by rw [hlook]; rfl, hrecent⟩
  obtain ⟨hreplies, hend⟩ := hstart.applyAll hq
  exact ⟨data, hdata, hreplies, hend.cache⟩

/-! ## A client with twelve commands

Its first, a `Put` with a version ahead of the key, fails. The second creates the key; ten `Get`s
move the first out of the last ten. -/

section Sample

def command (command : Method) (seqNum : Int64) (value : String) (version : Tversion) : Req :=
  .raftReq ⟨command, "k", value, seqNum, 1, version⟩

def early : Req := command .put 1 "late" 1

def twelve : List Req :=
  [early, command .put 2 "first" 0, command .get 3 "" 0, command .get 4 "" 0, command .get 5 "" 0,
    command .get 6 "" 0, command .get 7 "" 0, command .get 8 "" 0, command .get 9 "" 0,
    command .get 10 "" 0, command .get 11 "" 0, command .get 12 "" 0]

/-- A duplicate of the third command, which is in both tables, and a new one. -/
def goingOn : List Req := [command .get 3 "" 0, command .put 13 "next" 1]

theorem restored_in_step_sample :
    ∃ data, (empty.applyAll twelve).1.snapshot 11 = some data ∧
      ((empty.restore (some data)).applyAll goingOn).2 =
        ((empty.applyAll twelve).1.applyAll goingOn).2 ∧
      ((empty.restore (some data)).applyAll goingOn).1.cache =
        ((empty.applyAll twelve).1.applyAll goingOn).1.cache := by
  have hnumbers : ∀ req ∈ twelve, (match req with
      | .raftReq m => m.seqNum != Int64.maxValue
      | .other => true) = true := by decide
  have hkept : ∀ req ∈ goingOn, (match req with
      | .raftReq m => !decide ((empty.applyAll twelve).1.Dropped m.clientId m.seqNum)
      | .other => true) = true := by decide
  refine restored_in_step twelve goingOn le_rfl ?_ ?_
  · intro m hm
    simpa using hnumbers _ hm
  · intro q₁ m q₂ hsplit hdropped
    have hm := hkept (.raftReq m) (by rw [hsplit]; simp)
    simp [hdropped] at hm

/-- A late duplicate of the first command: the server answers `ErrVersion` from its table, the
restored one executes the `Put`, answers OK and has another value from then on. -/
theorem late_duplicate_splits :
    ∃ data, (empty.applyAll twelve).1.snapshot 11 = some data ∧
      ((empty.applyAll twelve).1.applyAll [early]).2.map RaftReplyMsg.err = [.errVersion] ∧
      ((empty.restore (some data)).applyAll [early]).2.map RaftReplyMsg.err = [.ok] ∧
      ((empty.applyAll twelve).1.applyAll [early]).1.cache.lookup "k" = some ⟨"first", 1⟩ ∧
      ((empty.restore (some data)).applyAll [early]).1.cache.lookup "k" = some ⟨"late", 2⟩ := by
  have hsome : ((empty.applyAll twelve).1.snapshot 11).isSome := by decide
  obtain ⟨data, hdata⟩ := Option.isSome_iff_exists.mp hsome
  have hrestored : ((empty.applyAll twelve).1.snapshot 11).map (fun data =>
      (((empty.restore (some data)).applyAll [early]).2.map RaftReplyMsg.err,
        ((empty.restore (some data)).applyAll [early]).1.cache.lookup "k")) =
      some ([.ok], some ⟨"late", 2⟩) := by decide
  rw [hdata] at hrestored
  obtain ⟨hreply, hcache⟩ := Prod.mk.inj (Option.some.inj hrestored)
  exact ⟨data, hdata, by decide, hreply, by decide, hcache⟩

end Sample

end KVServer

end DistSys.Kvraft1
