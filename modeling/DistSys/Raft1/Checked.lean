import DistSys.Raft1.Peer
import DistSys.Raft1.Shape

/- The functions that index the log, with Go's bounds checks.

   Indices are integers here, as in the source, and `none` is a panic: an access `logs[i]`
   or a slice expression outside the slice. A slice `logs[:i]` may in Go go up to the
   capacity; here it may not go beyond the length. Each function is written once more with
   these accesses, and under the shape of a log, with what else it needs of its arguments,
   it does not panic and computes what the function without the checks computes. -/
namespace DistSys.Raft1

variable {n : Nat} {C D : Type}

/-! ## Slices -/

section Slices

variable {α : Type}

/-- `l[i]`. -/
def at? (l : List α) (i : Int) : Option α := if i < 0 then none else l[i.toNat]?

/-- `l[i:]`. -/
def sliceFrom? (l : List α) (i : Int) : Option (List α) :=
  if 0 ≤ i ∧ i ≤ l.length then some (l.drop i.toNat) else none

/-- `l[:i]`. -/
def sliceTo? (l : List α) (i : Int) : Option (List α) :=
  if 0 ≤ i ∧ i ≤ l.length then some (l.take i.toNat) else none

theorem at?_eq [Inhabited α] {l : List α} {i : Nat} (h : i < l.length) : at? l i = some (l.getD i default) := by
  have hpos : ¬ (i : Int) < 0 := by omega
  rw [at?, if_neg hpos, Int.toNat_natCast, List.getElem?_eq_getElem h, List.getD_eq_getElem _ _ h]

theorem sliceFrom?_eq {l : List α} {i : Nat} (h : i ≤ l.length) : sliceFrom? l i = some (l.drop i) := by
  rw [sliceFrom?, if_pos (by omega), Int.toNat_natCast]

theorem sliceTo?_eq {l : List α} {i : Nat} (h : i ≤ l.length) : sliceTo? l i = some (l.take i) := by
  rw [sliceTo?, if_pos (by omega), Int.toNat_natCast]

end Slices

/-! ## The functions -/

namespace Raft

def getFirstLog? (rf : Raft n C D) : Option (LogEntry C) := at? rf.logs 0

def getLatestLog? (rf : Raft n C D) : Option (LogEntry C) := at? rf.logs ((rf.logs.length : Int) - 1)

def isValidLogIndex? (rf : Raft n C D) (index : Int) : Option Bool := do
  let firstLogIdx := (← rf.getFirstLog?).index
  return 0 ≤ index - firstLogIdx && index - firstLogIdx < rf.logs.length

def isLogMatched? (rf : Raft n C D) (index : Int) (term : Nat) : Option Bool := do
  let firstLogIdx := (← rf.getFirstLog?).index
  let lastLogIdx := (← rf.getLatestLog?).index
  if index < firstLogIdx ∨ index > lastLogIdx then return false
  else if !(← rf.isValidLogIndex? index) then return false
  else return term == (← at? rf.logs (index - firstLogIdx)).term

/-- `sort.Search` with a test that may panic. -/
def sortSearchLoop? (f : Nat → Option Bool) : Nat → Nat → Nat → Option Nat
  | 0, i, _ => some i
  | fuel + 1, i, j =>
    if i < j then do
      let h := (i + j) / 2
      if !(← f h) then sortSearchLoop? f fuel (h + 1) j else sortSearchLoop? f fuel i h
    else some i

/-- For a negative size the search ends at once, at 0. -/
def sortSearch? (size : Int) (f : Nat → Option Bool) : Option Nat :=
  sortSearchLoop? f size.toNat 0 size.toNat

def genAppendEntryArgs? (rf : Raft n C D) (prevLogIndex : Int) : Option (AppendEntryArgs n C) := do
  let firstLogIndex : Int := (← rf.getFirstLog?).index
  let lastLogIndex : Int := (← rf.getLatestLog?).index
  let prevLogIndex := if prevLogIndex < firstLogIndex - 1 then firstLogIndex - 1 else prevLogIndex
  let prevLogIndex := if prevLogIndex > lastLogIndex then lastLogIndex else prevLogIndex
  let prevLogTerm ←
    if prevLogIndex ≥ firstLogIndex ∧ prevLogIndex - firstLogIndex < rf.logs.length then
      (at? rf.logs (prevLogIndex - firstLogIndex)).map LogEntry.term
    else some 0
  let entries ← sliceFrom? rf.logs (prevLogIndex - firstLogIndex + 1)
  return {
    term := rf.currentTerm
    leaderId := rf.me
    prevLogIndex := prevLogIndex.toNat
    prevLogTerm := prevLogTerm
    entries := entries
    leaderCommit := rf.commitIndex }

def conflictReply? (rf : Raft n C D) (prevLogIndex : Nat) : Option AppendEntryReply := do
  let firstLogIdx := (← rf.getFirstLog?).index
  let lastLogIdx := (← rf.getLatestLog?).index
  let reply := rf.rejectAppendEntry
  if lastLogIdx < prevLogIndex then
    return { reply with conflictIndex := lastLogIdx + 1, conflictTerm := -1 }
  else if !(← rf.isValidLogIndex? prevLogIndex) then
    return { reply with conflictIndex := firstLogIdx, conflictTerm := -1 }
  else
    let conflictTerm := (← at? rf.logs ((prevLogIndex : Int) - firstLogIdx)).term
    let offset ← sortSearch? ((prevLogIndex : Int) - firstLogIdx + 1) fun index =>
      if index ≥ rf.logs.length then some true
      else (at? rf.logs index).map fun entry => decide (entry.term ≥ conflictTerm)
    return { reply with conflictIndex := firstLogIdx + offset, conflictTerm := conflictTerm }

def appendNewEntries? (firstLogIdx : Int) (logs : List (LogEntry C)) :
    List (LogEntry C) → Option (Option (List (LogEntry C)))
  | [] => some none
  | entry :: rest => do
    if entry.index - firstLogIdx ≥ logs.length then
      return some ((← sliceTo? logs (entry.index - firstLogIdx)) ++ entry :: rest)
    else if (← at? logs (entry.index - firstLogIdx)).term ≠ entry.term then
      return some ((← sliceTo? logs (entry.index - firstLogIdx)) ++ entry :: rest)
    else appendNewEntries? firstLogIdx logs rest

def appendAsFollower? (rf : Raft n C D) (args : AppendEntryArgs n C) :
    Option (Raft n C D × AppendEntryReply) := do
  let firstLogIdx := (← rf.getFirstLog?).index
  if args.prevLogIndex < firstLogIdx then
    return (rf, { rf.rejectAppendEntry with conflictIndex := firstLogIdx, conflictTerm := -1 })
  else if !(← rf.isLogMatched? args.prevLogIndex args.prevLogTerm) then
    return (rf, ← rf.conflictReply? args.prevLogIndex)
  else
    let rf := match ← appendNewEntries? firstLogIdx rf.logs args.entries with
      | some logs => persistState { rf with logs := logs }
      | none => rf
    let newCommitIdx := min args.leaderCommit (← rf.getLatestLog?).index
    let rf := if newCommitIdx > rf.commitIndex then { rf with commitIndex := newCommitIdx } else rf
    return (rf, { term := rf.currentTerm, success := true })

def appendEntryHandler? (rf : Raft n C D) (args : AppendEntryArgs n C) :
    Option (Raft n C D × AppendEntryReply) :=
  if args.term < rf.currentTerm then some (rf, rf.rejectAppendEntry)
  else
    let rf := updateTermAndStepDown rf args.term
    let rf := if rf.state ≠ .follower then changeState rf .follower else rf
    appendAsFollower? rf args

def rollBackToConflictTerm? (rf : Raft n C D) (peer : Fin n) (args : AppendEntryArgs n C)
    (reply : AppendEntryReply) : Option (Raft n C D) := do
  let first := (← rf.getFirstLog?).index
  let next ←
    if reply.conflictTerm ≠ -1 then do
      let offset ← sortSearch? ((args.prevLogIndex : Int) - first) fun i =>
        (at? rf.logs i).map fun entry => decide ((entry.term : Int) ≥ reply.conflictTerm)
      let idx := first + offset
      if idx ≤ args.prevLogIndex then
        if ((← at? rf.logs ((idx : Int) - first)).term : Int) = reply.conflictTerm then pure (idx + 1)
        else pure reply.conflictIndex
      else pure reply.conflictIndex
    else pure reply.conflictIndex
  let lastLogIdx := (← rf.getLatestLog?).index + 1
  let next := if next < first then first else next
  let next := if next > lastLogIdx then lastLogIdx else next
  return { rf with nextIndex := Function.update rf.nextIndex peer next }

def snapshot? (rf : Raft n C D) (index : Nat) (snapshot : D) : Option (Raft n C D) := do
  let firstLogIdx := (← rf.getFirstLog?).index
  if index ≤ firstLogIdx ∨ index > (← rf.getLatestLog?).index then return rf
  else
    let newBeginEntry : Int := index - firstLogIdx
    let entry ← at? rf.logs newBeginEntry
    let logs ← sliceFrom? rf.logs newBeginEntry
    let begin_ ← at? logs 0
    return persist { rf with
      lastIncludedIndex := entry.index
      lastIncludedTerm := entry.term
      logs := { begin_ with command := none } :: logs.tail } (some snapshot)

def installedLogs? (rf : Raft n C D) (index term : Nat) : Option (List (LogEntry C)) := do
  let firstLogIndex := (← rf.getFirstLog?).index
  if index ≥ (← rf.getLatestLog?).index then
    return [{ command := none, term := term, index := index }]
  else if index ≥ firstLogIndex then
    let logIndex : Int := index - firstLogIndex
    let conflict ←
      if logIndex < rf.logs.length then (at? rf.logs logIndex).map fun entry => decide (entry.term ≠ term)
      else some false
    if conflict then return generateSingleLog index term
    else
      let offset : Int := index - firstLogIndex + 1
      if offset < rf.logs.length then
        return generateSingleLog index term ++ (← sliceFrom? rf.logs offset)
      else return generateSingleLog index term
  else return rf.logs

def installSnapShot? (rf : Raft n C D) (args : InstallSnapShotArgs n D) :
    Option (Raft n C D × InstallSnapShotReply) :=
  let reply : InstallSnapShotReply := { term := rf.currentTerm }
  if args.term < rf.currentTerm then some (rf, reply)
  else
    let rf := followSnapShot rf args.term
    if args.lastIncludedIndex ≤ rf.lastApplied then some (rf, reply)
    else (installedLogs? rf args.lastIncludedIndex args.lastIncludedTerm).map fun logs =>
      let rf := persist { rf with
        lastIncludedIndex := args.lastIncludedIndex
        lastIncludedTerm := args.lastIncludedTerm
        logs := logs
        commitIndex := max rf.commitIndex args.lastIncludedIndex
        lastApplied := max rf.lastApplied args.lastIncludedIndex } args.data
      ({ rf with
        pendingSnapshot := some {
          snapshotValid := true
          snapshot := args.data
          snapshotTerm := args.lastIncludedTerm
          snapshotIndex := args.lastIncludedIndex } }, reply)

def applier? (rf : Raft n C D) : Option (Raft n C D × Option (ApplyMsg C D)) :=
  match rf.pendingSnapshot with
  | some msg => some ({ rf with pendingSnapshot := none }, some msg)
  | none =>
    if rf.commitIndex ≤ rf.lastApplied then some (rf, none)
    else do
      let firstLogIdx := (← rf.getFirstLog?).index
      if rf.lastApplied < firstLogIdx then return ({ rf with lastApplied := firstLogIdx }, none)
      else
        let nextIndex := rf.lastApplied + 1
        if nextIndex > rf.commitIndex then return (rf, none)
        else
          let logArrayIndex : Int := nextIndex - firstLogIdx
          if logArrayIndex < 0 ∨ logArrayIndex ≥ rf.logs.length then
            return ({ rf with lastApplied := firstLogIdx }, none)
          else
            let entry ← at? rf.logs logArrayIndex
            return ({ rf with lastApplied := nextIndex },
              some { commandValid := true, command := entry.command, commandIndex := entry.index })

end Raft

/-! ## No panics -/

open Raft

theorem sortSearchLoop?_eq {f : Nat → Bool} {f? : Nat → Option Bool} {fuel i j : Nat}
    (hf : ∀ k < j, f? k = some (f k)) :
    sortSearchLoop? f? fuel i j = some (sortSearchLoop f fuel i j) := by
  induction fuel generalizing i j with
  | zero => rfl
  | succ fuel ih =>
    unfold sortSearchLoop? sortSearchLoop
    split
    · simp only [hf ((i + j) / 2) (by omega), Option.bind_eq_bind, Option.bind_some]
      split
      · exact ih hf
      · exact ih fun k hk => hf k (by omega)
    · rfl

theorem sortSearch?_eq {f : Nat → Bool} {f? : Nat → Option Bool} (size : Int)
    (hf : ∀ k < size.toNat, f? k = some (f k)) :
    sortSearch? size f? = some (sortSearch size.toNat f) :=
  sortSearchLoop?_eq hf

theorem getLatestLog?_eq {rf : Raft n C D} (hpos : 0 < rf.logs.length) :
    rf.getLatestLog? = some rf.getLatestLog := by
  rw [Raft.getLatestLog?, show (rf.logs.length : Int) - 1 = ((rf.logs.length - 1 : Nat) : Int) by omega,
    at?_eq (by omega), Raft.getLatestLog, List.getLastD_eq_getLast?, List.getLast?_eq_getElem?,
    List.getD_eq_getElem?_getD]

namespace Shape

variable {rf : Raft n C D}

theorem getFirstLog? (h : Shape rf.logs) : rf.getFirstLog? = some rf.getFirstLog := by
  have hpos := h.pos
  rw [Raft.getFirstLog?, show (0 : Int) = ((0 : Nat) : Int) from rfl, at?_eq hpos, Raft.getFirstLog]
  cases rf.logs <;> rfl

theorem getLatestLog? (h : Shape rf.logs) : rf.getLatestLog? = some rf.getLatestLog :=
  getLatestLog?_eq h.pos

theorem isValidLogIndex? (h : Shape rf.logs) (index : Nat) :
    rf.isValidLogIndex? index = some (rf.isValidLogIndex index) := by
  unfold Raft.isValidLogIndex?
  rw [h.getFirstLog?]
  apply congrArg some
  rw [Bool.eq_iff_iff, Raft.isValidLogIndex]
  simp only [Bool.and_eq_true, decide_eq_true_eq]
  omega

/-- An access to an index that the log has. -/
theorem at? (h : Shape rf.logs) {i : Nat} (hfirst : rf.getFirstLog.index ≤ i)
    (hlast : i ≤ rf.getLatestLog.index) :
    Raft1.at? rf.logs ((i : Int) - rf.getFirstLog.index) =
      some (rf.logs.getD (i - rf.getFirstLog.index) default) := by
  have hpos := h.pos
  have hlen := h.latest
  rw [show (i : Int) - rf.getFirstLog.index = ((i - rf.getFirstLog.index : Nat) : Int) by omega,
    at?_eq (by omega)]

theorem isLogMatched? (h : Shape rf.logs) (index term : Nat) :
    rf.isLogMatched? index term = some (rf.isLogMatched index term) := by
  simp only [Raft.isLogMatched?, h.getFirstLog?, h.getLatestLog?, h.isValidLogIndex?,
    Option.bind_eq_bind, Option.bind_some, Option.pure_def]
  unfold Raft.isLogMatched
  by_cases hrange : index < rf.getFirstLog.index ∨ index > rf.getLatestLog.index
  · rw [if_pos hrange, if_pos (by omega)]
  · rw [if_neg hrange, if_neg (by omega), h.at? (by omega) (by omega)]
    split <;> rfl

theorem conflictReply? (h : Shape rf.logs) {prevLogIndex : Nat}
    (hfirst : rf.getFirstLog.index ≤ prevLogIndex) :
    rf.conflictReply? prevLogIndex = some (rf.conflictReply prevLogIndex) := by
  have hpos := h.pos
  have hlen := h.latest
  simp only [Raft.conflictReply?, h.getFirstLog?, h.getLatestLog?, h.isValidLogIndex?,
    Option.bind_eq_bind, Option.bind_some, Option.pure_def]
  unfold Raft.conflictReply
  simp only
  split
  · rfl
  · rename_i hlast
    split
    · rfl
    · rw [h.at? hfirst (by omega), Option.bind_some,
        sortSearch?_eq (f := fun index => index ≥ rf.logs.length ||
          (rf.logs.getD index default).term ≥
            (rf.logs.getD (prevLogIndex - rf.getFirstLog.index) default).term),
        show ((prevLogIndex : Int) - rf.getFirstLog.index + 1).toNat =
          prevLogIndex - rf.getFirstLog.index + 1 by omega]
      · rfl
      · intro k hk
        rw [if_neg (by omega), at?_eq (by omega)]
        apply congrArg some
        rw [Bool.eq_iff_iff, Bool.or_eq_true, decide_eq_true_eq, decide_eq_true_eq]
        exact ⟨Or.inr, fun hor => hor.resolve_left (by omega)⟩

/-- The clamping of `prevLogIndex` and the zero `prevLogTerm` are for other arguments. -/
theorem genAppendEntryArgs? (h : Shape rf.logs) {prevLogIndex : Nat}
    (hfirst : rf.getFirstLog.index ≤ prevLogIndex) (hlast : prevLogIndex ≤ rf.getLatestLog.index) :
    rf.genAppendEntryArgs? prevLogIndex = some (rf.genAppendEntryArgs prevLogIndex) := by
  have hpos := h.pos
  have hlen := h.latest
  simp only [Raft.genAppendEntryArgs?, h.getFirstLog?, h.getLatestLog?, Option.bind_eq_bind,
    Option.bind_some, Option.pure_def]
  rw [if_neg (show ¬ (prevLogIndex : Int) < rf.getFirstLog.index - 1 by omega),
    if_neg (show ¬ (prevLogIndex : Int) > rf.getLatestLog.index by omega), if_pos (by omega),
    h.at? hfirst hlast, Option.map_some, Option.bind_some,
    show (prevLogIndex : Int) - rf.getFirstLog.index + 1 =
      ((prevLogIndex + 1 - rf.getFirstLog.index : Nat) : Int) by omega,
    sliceFrom?_eq (by omega), Option.bind_some]
  unfold Raft.genAppendEntryArgs
  simp only
  rw [if_neg (show ¬ prevLogIndex < rf.getFirstLog.index - 1 by omega), if_neg (not_lt.mpr hlast),
    if_pos (by omega), Int.toNat_natCast]

theorem snapshot? (h : Shape rf.logs) (index : Nat) (data : D) :
    rf.snapshot? index data = some (rf.snapshot index data) := by
  have hpos := h.pos
  have hlen := h.latest
  simp only [Raft.snapshot?, h.getFirstLog?, h.getLatestLog?, Option.bind_eq_bind,
    Option.bind_some, Option.pure_def]
  unfold Raft.snapshot
  simp only
  split
  · rfl
  · rename_i hrange
    rw [h.at? (by omega) (by omega), Option.bind_some,
      show (index : Int) - rf.getFirstLog.index = ((index - rf.getFirstLog.index : Nat) : Int) by omega,
      sliceFrom?_eq (by omega), Option.bind_some, show (0 : Int) = ((0 : Nat) : Int) from rfl,
      at?_eq (by rw [List.length_drop]; omega), Option.bind_some]
    cases rf.logs.drop (index - rf.getFirstLog.index) <;> rfl

theorem installedLogs? (h : Shape rf.logs) (index term : Nat) :
    rf.installedLogs? index term = some (rf.installedLogs index term) := by
  have hpos := h.pos
  have hlen := h.latest
  simp only [Raft.installedLogs?, h.getFirstLog?, h.getLatestLog?, Option.bind_eq_bind,
    Option.bind_some, Option.pure_def]
  unfold Raft.installedLogs
  simp only
  split
  · rfl
  · rename_i hlast
    split
    · rename_i hfirst
      have hin : index - rf.getFirstLog.index < rf.logs.length := by omega
      rw [if_pos (by omega), h.at? hfirst (by omega), Option.map_some, Option.bind_some]
      by_cases hterm : (rf.logs.getD (index - rf.getFirstLog.index) default).term = term
      · have hkeeps : ¬ (index - rf.getFirstLog.index < rf.logs.length ∧
            (rf.logs.getD (index - rf.getFirstLog.index) default).term ≠ term) :=
          fun hand => hand.2 hterm
        rw [if_neg (by simpa using hterm), if_neg hkeeps, if_pos (by omega),
          show (index : Int) - rf.getFirstLog.index + 1 =
            ((index - rf.getFirstLog.index + 1 : Nat) : Int) by omega,
          sliceFrom?_eq (by omega), if_pos (by omega)]
        rfl
      · rw [if_pos (by simpa using hterm), if_pos ⟨hin, hterm⟩]
    · rfl

theorem applier? (h : Shape rf.logs) (hfirst : rf.getFirstLog.index ≤ rf.lastApplied)
    (hlast : rf.commitIndex ≤ rf.getLatestLog.index) : rf.applier? = some rf.applier := by
  have hpos := h.pos
  have hlen := h.latest
  unfold Raft.applier? Raft.applier
  cases rf.pendingSnapshot with
  | some msg => rfl
  | none =>
    simp only [h.getFirstLog?, Option.bind_eq_bind, Option.bind_some, Option.pure_def]
    by_cases hnew : rf.commitIndex ≤ rf.lastApplied
    · rw [if_pos hnew, if_pos hnew]
    · have hat := h.at? (show rf.getFirstLog.index ≤ rf.lastApplied + 1 by omega) (by omega)
      push_cast at hat ⊢
      rw [if_neg hnew, if_neg hnew, if_neg (not_lt.mpr hfirst), if_neg (not_lt.mpr hfirst),
        if_neg (by omega), if_neg (by omega), if_neg (by omega), if_neg (by omega), hat]
      rfl

theorem installSnapShot? (h : Shape rf.logs) (args : InstallSnapShotArgs n D) :
    rf.installSnapShot? args = some (rf.installSnapShot args) := by
  have hlogs : (followSnapShot rf args.term).logs = rf.logs := by
    unfold followSnapShot
    rw [changeState_follower]
    split <;> rfl
  unfold Raft.installSnapShot? Raft.installSnapShot
  simp only
  split
  · rfl
  · split
    · rfl
    · rw [installedLogs? (by rwa [hlogs])]
      rfl

theorem rollBackToConflictTerm? (h : Shape rf.logs) (peer : Fin n) (args : AppendEntryArgs n C)
    (reply : AppendEntryReply) (hlast : args.prevLogIndex ≤ rf.getLatestLog.index) :
    rf.rollBackToConflictTerm? peer args reply = some (rf.rollBackToConflictTerm peer args reply) := by
  have hpos := h.pos
  have hlen := h.latest
  simp only [Raft.rollBackToConflictTerm?, h.getFirstLog?, h.getLatestLog?, Option.bind_eq_bind,
    Option.bind_some, Option.pure_def]
  unfold Raft.rollBackToConflictTerm
  simp only
  split
  · rw [sortSearch?_eq
        (f := fun i => decide (((rf.logs.getD i default).term : Int) ≥ reply.conflictTerm)),
      Int.toNat_sub, Option.bind_some]
    · generalize sortSearch _ _ = offset
      by_cases hidx : rf.getFirstLog.index + offset ≤ args.prevLogIndex
      · rw [if_pos hidx, h.at? (Nat.le_add_right _ _) (hidx.trans hlast), Option.bind_some]
        simp only [hidx, true_and]
        split <;> rfl
      · simp only [hidx, false_and, if_false]
    · intro k hk
      rw [Int.toNat_sub] at hk
      rw [at?_eq (by omega)]
      rfl
  · rfl

end Shape

/-- The entries of a message have consecutive indices after `prevLogIndex`. -/
def Consecutive (prevLogIndex : Nat) (entries : List (LogEntry C)) : Prop :=
  ∀ k < entries.length, (entries.getD k default).index = prevLogIndex + 1 + k

theorem appendNewEntries?_eq {firstLogIdx prev : Nat} {logs entries : List (LogEntry C)}
    (hentries : Consecutive prev entries) (hfirst : firstLogIdx ≤ prev)
    (hprev : prev - firstLogIdx < logs.length) :
    appendNewEntries? firstLogIdx logs entries = some (appendNewEntries firstLogIdx logs entries) := by
  induction entries generalizing prev with
  | nil => rfl
  | cons entry rest ih =>
    have hindex : entry.index = prev + 1 := hentries 0 (Nat.zero_lt_succ _)
    have hrest : Consecutive (prev + 1) rest := by
      intro k hk
      have hnext := hentries (k + 1) (Nat.succ_lt_succ hk)
      rw [List.getD_cons_succ] at hnext
      omega
    unfold appendNewEntries? appendNewEntries
    have hpos : (entry.index : Int) - firstLogIdx = ((entry.index - firstLogIdx : Nat) : Int) := by omega
    rw [hpos]
    by_cases hend : entry.index - firstLogIdx ≥ logs.length
    · rw [if_pos (by omega), if_pos (Or.inl hend), sliceTo?_eq (by omega)]
      rfl
    · rw [if_neg (by omega), at?_eq (by omega), sliceTo?_eq (by omega)]
      simp only [Option.bind_eq_bind, Option.bind_some, Option.pure_def]
      split
      · rename_i hterm
        rw [if_pos (Or.inr hterm)]
      · rename_i hterm
        rw [if_neg (not_or.mpr ⟨hend, hterm⟩)]
        exact ih hrest (by omega) (by omega)

theorem appendNewEntries_pos {firstLogIdx : Nat} {logs entries logs' : List (LogEntry C)}
    (h : appendNewEntries firstLogIdx logs entries = some logs') : 0 < logs'.length := by
  induction entries with
  | nil => contradiction
  | cons entry rest ih =>
    unfold appendNewEntries at h
    split at h
    · obtain rfl := Option.some.inj h
      exact List.length_pos_iff.mpr (List.append_ne_nil_of_right_ne_nil _ (List.cons_ne_nil _ _))
    · exact ih h

theorem storeEntries_pos {rf : Raft n C D} (hpos : 0 < rf.logs.length) (entries : List (LogEntry C)) :
    0 < (storeEntries rf entries).logs.length := by
  unfold storeEntries
  split
  · rename_i logs hlogs
    exact appendNewEntries_pos hlogs
  · exact hpos

theorem Shape.appendAsFollower? {rf : Raft n C D} {args : AppendEntryArgs n C} (h : Shape rf.logs)
    (hentries : Consecutive args.prevLogIndex args.entries) :
    rf.appendAsFollower? args = some (rf.appendAsFollower args) := by
  have hpos := h.pos
  have hlen := h.latest
  unfold Raft.appendAsFollower? Raft.appendAsFollower
  simp only [h.getFirstLog?, h.isLogMatched?, Option.bind_eq_bind, Option.bind_some, Option.pure_def]
  split
  · rfl
  · rename_i hfirst
    rw [not_lt] at hfirst
    cases hmatched : rf.isLogMatched args.prevLogIndex args.prevLogTerm with
    | false =>
      rw [h.conflictReply? hfirst]
      rfl
    | true =>
      obtain ⟨-, hlast, -⟩ := h.isLogMatched.mp hmatched
      have hlatest := getLatestLog?_eq (storeEntries_pos hpos args.entries)
      rw [appendNewEntries?_eq hentries hfirst (by omega), Option.bind_some]
      change ((storeEntries rf args.entries).getLatestLog?.bind fun _ => _) = _
      rw [hlatest]
      rfl

theorem Shape.appendEntryHandler? {rf : Raft n C D} {args : AppendEntryArgs n C} (h : Shape rf.logs)
    (hentries : Consecutive args.prevLogIndex args.entries) :
    rf.appendEntryHandler? args = some (rf.appendEntry args) := by
  have hterm : (updateTermAndStepDown rf args.term).logs = rf.logs := by
    unfold updateTermAndStepDown
    rw [changeState_follower]
    split <;> rfl
  unfold Raft.appendEntryHandler? Raft.appendEntry
  simp only [changeState_follower]
  split
  · rfl
  · refine Shape.appendAsFollower? ?_ hentries
    split <;> rwa [hterm]

end DistSys.Raft1
