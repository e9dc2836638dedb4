import DistSys.Raft1.QuickSelect
import DistSys.Raft1.Types

/- One peer: the functions of raft1/raft.go that run while `rf.mu` is held, in
   the order of the source. Each takes the peer and returns it changed, with the
   reply it fills in. Slices are lists; `rf.logs[i]` is `rf.logs.getD i default`,
   the default never being read where the index is in range. -/
namespace DistSys.Raft1

variable {n : Nat} {C D : Type}

namespace Raft

def getLatestLog (rf : Raft n C D) : LogEntry C := rf.logs.getLastD default

def getFirstLog (rf : Raft n C D) : LogEntry C := rf.logs.headD default

/-- `GetState`. -/
def getState (rf : Raft n C D) : Nat × Bool := (rf.currentTerm, rf.state = .leader)

def updateLogIndices (rf : Raft n C D) (peer : Fin n) (matchIdx : Nat) : Raft n C D :=
  { rf with
    matchIndex := Function.update rf.matchIndex peer matchIdx
    nextIndex := Function.update rf.nextIndex peer (matchIdx + 1) }

def changeState (rf : Raft n C D) (newstate : ServerState) : Raft n C D :=
  if rf.state = newstate then rf
  else match newstate with
    | .follower => { rf with state := .follower }
    | .candidate => { rf with state := .candidate }
    | .leader =>
      let last := rf.getLatestLog.index
      updateLogIndices
        { rf with state := .leader, nextIndex := fun _ => last + 1, matchIndex := fun _ => 0 }
        rf.me last

/-! ## Persistence -/

/-- The fields that go into the persister. -/
def raftState (rf : Raft n C D) : RaftState n C where
  currentTerm := rf.currentTerm
  voteFor := rf.voteFor
  logs := rf.logs
  lastIncludedIndex := rf.lastIncludedIndex
  lastIncludedTerm := rf.lastIncludedTerm

/-- Without a snapshot the one already saved is saved again. -/
def persist (rf : Raft n C D) (snapshot : Option D) : Raft n C D :=
  match snapshot with
  | some _ => { rf with persister := rf.persister.save rf.raftState snapshot }
  | none => { rf with persister := rf.persister.save rf.raftState rf.persister.readSnapshot }

def persistState (rf : Raft n C D) : Raft n C D := rf.persist none

def readPersist (rf : Raft n C D) : Raft n C D :=
  match rf.persister.readRaftState with
  | none => rf
  | some data =>
    let rf := { rf with
      currentTerm := data.currentTerm, voteFor := data.voteFor, logs := data.logs }
    { rf with
      lastApplied := rf.getFirstLog.index
      commitIndex := rf.getFirstLog.index
      lastIncludedIndex := data.lastIncludedIndex
      lastIncludedTerm := data.lastIncludedTerm }

/-- `Make`: a follower with the dummy entry, and then what the persister holds. -/
def make (me : Fin n) (persister : Persister n C D) : Raft n C D :=
  readPersist {
    persister := persister
    me := me
    currentTerm := 0
    voteFor := none
    commitIndex := 0
    lastApplied := 0
    state := .follower
    nextIndex := fun _ => 1
    matchIndex := fun _ => 0
    logs := [default]
    lastIncludedIndex := 0
    lastIncludedTerm := 0
    pendingSnapshot := none }

def updateTermAndStepDown (rf : Raft n C D) (newTerm : Nat) : Raft n C D :=
  if newTerm > rf.currentTerm then
    persistState (changeState { rf with currentTerm := newTerm, voteFor := none } .follower)
  else rf

/-! ## Log positions -/

def generateSingleLog (lastIncludedIndex lastIncludedTerm : Nat) : List (LogEntry C) :=
  [{ command := none, term := lastIncludedTerm, index := lastIncludedIndex }]

/-- Whether `index - firstLogIdx` is a position of `logs`. -/
def isValidLogIndex (rf : Raft n C D) (index : Nat) : Bool :=
  rf.getFirstLog.index ≤ index && index - rf.getFirstLog.index < rf.logs.length

def isLogMatched (rf : Raft n C D) (index term : Nat) : Bool :=
  if index < rf.getFirstLog.index ∨ index > rf.getLatestLog.index then false
  else if !rf.isValidLogIndex index then false
  else term == (rf.logs.getD (index - rf.getFirstLog.index) default).term

def isLogUpdateToDate (rf : Raft n C D) (index term : Nat) : Bool :=
  term > rf.getLatestLog.term || (term == rf.getLatestLog.term && index ≥ rf.getLatestLog.index)

def isValidLeader (rf : Raft n C D) (term : Nat) : Bool :=
  rf.state = .leader && rf.currentTerm == term

def isValidCandidate (rf : Raft n C D) (term : Nat) : Bool :=
  rf.state = .candidate && rf.currentTerm == term

/-- The loop of `sort.Search` on the interval `i..j`. -/
def sortSearchLoop (f : Nat → Bool) : Nat → Nat → Nat → Nat
  | 0, i, _ => i
  | fuel + 1, i, j =>
    if i < j then
      let h := (i + j) / 2
      if !f h then sortSearchLoop f fuel (h + 1) j else sortSearchLoop f fuel i h
    else i

/-- `sort.Search(size, f)`. Every turn of its loop shortens the interval, so
`size` turns are enough. -/
def sortSearch (size : Nat) (f : Nat → Bool) : Nat := sortSearchLoop f size 0 size

/-! ## Snapshots -/

/-- `Snapshot(index, snapshot)`, called by the service. -/
def snapshot (rf : Raft n C D) (index : Nat) (snapshot : D) : Raft n C D :=
  let firstLogIdx := rf.getFirstLog.index
  if index ≤ firstLogIdx ∨ index > rf.getLatestLog.index then rf
  else
    let newBeginEntry := index - firstLogIdx
    let entry := rf.logs.getD newBeginEntry default
    let logs := rf.logs.drop newBeginEntry
    persist { rf with
      lastIncludedIndex := entry.index
      lastIncludedTerm := entry.term
      logs := { logs.headD default with command := none } :: logs.tail } (some snapshot)

/-- What `InstallSnapShot` leaves of the log: the snapshot replaces it, or the
entries after the snapshot are kept. -/
def installedLogs (rf : Raft n C D) (index term : Nat) : List (LogEntry C) :=
  let firstLogIndex := rf.getFirstLog.index
  if index ≥ rf.getLatestLog.index then
    [{ command := none, term := term, index := index }]
  else if index ≥ firstLogIndex then
    let logIndex := index - firstLogIndex
    if logIndex < rf.logs.length ∧ (rf.logs.getD logIndex default).term ≠ term then
      generateSingleLog index term
    else
      let offset := index - firstLogIndex + 1
      if offset < rf.logs.length then generateSingleLog index term ++ rf.logs.drop offset
      else generateSingleLog index term
  else rf.logs

/-- `InstallSnapShot` up to the check of the index: the raised term is not saved here. -/
def followSnapShot (rf : Raft n C D) (term : Nat) : Raft n C D :=
  changeState (if term > rf.currentTerm then { rf with currentTerm := term, voteFor := none } else rf)
    .follower

/-- The part of `InstallSnapShot` for a snapshot beyond what is applied. -/
def replaceBySnapShot (rf : Raft n C D) (args : InstallSnapShotArgs n D) : Raft n C D :=
  let logs := installedLogs rf args.lastIncludedIndex args.lastIncludedTerm
  let rf := persist { rf with
    lastIncludedIndex := args.lastIncludedIndex
    lastIncludedTerm := args.lastIncludedTerm
    logs := logs
    commitIndex := max rf.commitIndex args.lastIncludedIndex
    lastApplied := max rf.lastApplied args.lastIncludedIndex } args.data
  { rf with
    pendingSnapshot := some {
      snapshotValid := true
      snapshot := args.data
      snapshotTerm := args.lastIncludedTerm
      snapshotIndex := args.lastIncludedIndex } }

def installSnapShot (rf : Raft n C D) (args : InstallSnapShotArgs n D) :
    Raft n C D × InstallSnapShotReply :=
  let reply : InstallSnapShotReply := { term := rf.currentTerm }
  if args.term < rf.currentTerm then (rf, reply)
  else
    let rf := followSnapShot rf args.term
    if args.lastIncludedIndex ≤ rf.lastApplied then (rf, reply)
    else (replaceBySnapShot rf args, reply)

def makeInstallSnapShotArgs (rf : Raft n C D) : InstallSnapShotArgs n D where
  term := rf.currentTerm
  leaderId := rf.me
  lastIncludedIndex := rf.getFirstLog.index
  lastIncludedTerm := rf.getFirstLog.term
  data := rf.persister.readSnapshot

/-! ## Votes -/

def rejectVote (rf : Raft n C D) : RequestVoteReply := { term := rf.currentTerm, voteGranted := false }

def requestVote (rf : Raft n C D) (args : RequestVoteArgs n) : Raft n C D × RequestVoteReply :=
  if args.term < rf.currentTerm ∨
      (args.term = rf.currentTerm ∧ rf.voteFor ≠ none ∧ rf.voteFor ≠ some args.candidateId) then
    (rf, rf.rejectVote)
  else
    let rf := updateTermAndStepDown rf args.term
    if !rf.isLogUpdateToDate args.lastLogIndex args.lastLogTerm then (rf, rf.rejectVote)
    else
      let rf := persistState { rf with voteFor := some args.candidateId }
      (rf, { term := rf.currentTerm, voteGranted := true })

/-- `LaunchElection` up to the point where the requests are sent. -/
def launchElection (rf : Raft n C D) : Raft n C D × RequestVoteArgs n :=
  let rf := persistState { rf with voteFor := some rf.me }
  (rf, {
    term := rf.currentTerm
    candidateId := rf.me
    lastLogIndex := rf.getLatestLog.index
    lastLogTerm := rf.getLatestLog.term })

/-- The election branch of `ticker`. -/
def electionTimeout (rf : Raft n C D) : Raft n C D × RequestVoteArgs n :=
  let rf := changeState rf .candidate
  let rf := persistState { rf with currentTerm := rf.currentTerm + 1 }
  launchElection rf

/-- What the goroutine of `LaunchElection` does with a reply to `voteArgs`;
`grantedVotes` is the variable its closures share. -/
def handleVoteReply (rf : Raft n C D) (grantedVotes : Nat) (voteArgs : RequestVoteArgs n)
    (voteReply : RequestVoteReply) : Raft n C D × Nat :=
  if rf.isValidCandidate voteArgs.term then
    if voteReply.voteGranted then
      if grantedVotes + 1 > n / 2 then (changeState rf .leader, grantedVotes + 1)
      else (rf, grantedVotes + 1)
    else if voteReply.term > rf.currentTerm then
      (updateTermAndStepDown rf voteReply.term, grantedVotes)
    else (rf, grantedVotes)
  else (rf, grantedVotes)

/-! ## Replication -/

def genAppendEntryArgs (rf : Raft n C D) (prevLogIndex : Nat) : AppendEntryArgs n C :=
  let firstLogIndex := rf.getFirstLog.index
  let lastLogIndex := rf.getLatestLog.index
  let prevLogIndex := if prevLogIndex < firstLogIndex - 1 then firstLogIndex - 1 else prevLogIndex
  let prevLogIndex := if prevLogIndex > lastLogIndex then lastLogIndex else prevLogIndex
  let prevLogTerm :=
    if prevLogIndex ≥ firstLogIndex ∧ prevLogIndex - firstLogIndex < rf.logs.length then
      (rf.logs.getD (prevLogIndex - firstLogIndex) default).term
    else 0
  { term := rf.currentTerm
    leaderId := rf.me
    prevLogIndex := prevLogIndex
    prevLogTerm := prevLogTerm
    entries := rf.logs.drop (prevLogIndex + 1 - firstLogIndex)
    leaderCommit := rf.commitIndex }

def rejectAppendEntry (rf : Raft n C D) : AppendEntryReply := { term := rf.currentTerm, success := false }

/-- The loop that appends the entries not already in the log; `none` when all are. -/
def appendNewEntries (firstLogIdx : Nat) (logs : List (LogEntry C)) :
    List (LogEntry C) → Option (List (LogEntry C))
  | [] => none
  | entry :: rest =>
    if entry.index - firstLogIdx ≥ logs.length ∨
        (logs.getD (entry.index - firstLogIdx) default).term ≠ entry.term then
      some (logs.take (entry.index - firstLogIdx) ++ entry :: rest)
    else appendNewEntries firstLogIdx logs rest

/-- The reply to an `AppendEntry` whose previous entry the log does not hold. -/
def conflictReply (rf : Raft n C D) (prevLogIndex : Nat) : AppendEntryReply :=
  let firstLogIdx := rf.getFirstLog.index
  let lastLogIdx := rf.getLatestLog.index
  let reply := rf.rejectAppendEntry
  if lastLogIdx < prevLogIndex then
    { reply with conflictIndex := lastLogIdx + 1, conflictTerm := -1 }
  else if !rf.isValidLogIndex prevLogIndex then
    { reply with conflictIndex := firstLogIdx, conflictTerm := -1 }
  else
    let conflictTerm := (rf.logs.getD (prevLogIndex - firstLogIdx) default).term
    let offset := sortSearch (prevLogIndex - firstLogIdx + 1) fun index =>
      index ≥ rf.logs.length || (rf.logs.getD index default).term ≥ conflictTerm
    { reply with conflictIndex := firstLogIdx + offset, conflictTerm := conflictTerm }

/-- `AppendEntry` once the previous entry is found: the log is saved only if it changed. -/
def storeEntries (rf : Raft n C D) (entries : List (LogEntry C)) : Raft n C D :=
  match appendNewEntries rf.getFirstLog.index rf.logs entries with
  | some logs => persistState { rf with logs := logs }
  | none => rf

/-- The last part of `AppendEntry`. -/
def advanceCommit (rf : Raft n C D) (leaderCommit : Nat) : Raft n C D :=
  let newCommitIdx := min leaderCommit rf.getLatestLog.index
  if newCommitIdx > rf.commitIndex then { rf with commitIndex := newCommitIdx } else rf

/-- `AppendEntry` of a follower in the term of the request. -/
def appendAsFollower (rf : Raft n C D) (args : AppendEntryArgs n C) :
    Raft n C D × AppendEntryReply :=
  if args.prevLogIndex < rf.getFirstLog.index then
    (rf, { rf.rejectAppendEntry with conflictIndex := rf.getFirstLog.index, conflictTerm := -1 })
  else if !rf.isLogMatched args.prevLogIndex args.prevLogTerm then
    (rf, rf.conflictReply args.prevLogIndex)
  else
    let rf := advanceCommit (storeEntries rf args.entries) args.leaderCommit
    (rf, { term := rf.currentTerm, success := true })

def appendEntry (rf : Raft n C D) (args : AppendEntryArgs n C) : Raft n C D × AppendEntryReply :=
  if args.term < rf.currentTerm then (rf, rf.rejectAppendEntry)
  else
    let rf := updateTermAndStepDown rf args.term
    let rf := if rf.state ≠ .follower then changeState rf .follower else rf
    appendAsFollower rf args

def acceptNewLogEntries (rf : Raft n C D) (peer : Fin n) (args : AppendEntryArgs n C) :
    Raft n C D :=
  let matchIdx := args.prevLogIndex + args.entries.length
  let rf := updateLogIndices rf peer matchIdx
  let k := n - (n / 2 + 1)
  match quickSelect (Array.ofFn rf.matchIndex) k with
  | none => rf
  | some (newCommitIdx, _) =>
    if newCommitIdx > rf.commitIndex ∧ rf.isLogMatched newCommitIdx rf.currentTerm then
      { rf with commitIndex := newCommitIdx }
    else rf

def rollBackToConflictTerm (rf : Raft n C D) (peer : Fin n) (args : AppendEntryArgs n C)
    (reply : AppendEntryReply) : Raft n C D :=
  let first := rf.getFirstLog.index
  let next :=
    if reply.conflictTerm ≠ -1 then
      let size := args.prevLogIndex - first
      let offset := sortSearch size fun i =>
        decide (((rf.logs.getD i default).term : Int) ≥ reply.conflictTerm)
      let idx := first + offset
      if idx ≤ args.prevLogIndex ∧
          ((rf.logs.getD (idx - first) default).term : Int) = reply.conflictTerm then idx + 1
      else reply.conflictIndex
    else reply.conflictIndex
  let lastLogIdx := rf.getLatestLog.index + 1
  let next := if next < first then first else next
  let next := if next > lastLogIdx then lastLogIdx else next
  { rf with nextIndex := Function.update rf.nextIndex peer next }

/-- What `doSendAppendEntry` sends. -/
inductive Outgoing (n : Nat) (C D : Type) where
  | append (args : AppendEntryArgs n C)
  | snapshot (args : InstallSnapShotArgs n D)

/-- `doSendAppendEntry` up to the call: `nextIndex[peer] - 1` is the previous
index, and lies before the first one exactly when `nextIndex[peer]` does not
pass it. -/
def doSendAppendEntry (rf : Raft n C D) (peer : Fin n) : Option (Outgoing n C D) :=
  if rf.state ≠ .leader then none
  else if rf.nextIndex peer ≤ rf.getFirstLog.index then some (.snapshot rf.makeInstallSnapShotArgs)
  else some (.append (rf.genAppendEntryArgs (rf.nextIndex peer - 1)))

/-- `doSendAppendEntry` after a reply to an append. -/
def handleAppendReply (rf : Raft n C D) (peer : Fin n) (args : AppendEntryArgs n C)
    (reply : AppendEntryReply) : Raft n C D :=
  if !rf.isValidLeader args.term then rf
  else if !reply.success then
    if reply.term > rf.currentTerm then updateTermAndStepDown rf reply.term
    else rollBackToConflictTerm rf peer args reply
  else acceptNewLogEntries rf peer args

/-- `doSendAppendEntry` after a reply to a snapshot. -/
def handleSnapShotReply (rf : Raft n C D) (peer : Fin n) (args : InstallSnapShotArgs n D)
    (reply : InstallSnapShotReply) : Raft n C D :=
  if rf.state = .leader ∧ rf.currentTerm = args.term then
    if reply.term > rf.currentTerm then updateTermAndStepDown rf reply.term
    else updateLogIndices rf peer args.lastIncludedIndex
  else rf

/-- `Start(command)`: the index and term of the new entry, or `none` where the
source returns (-1, -1, false). -/
def start (rf : Raft n C D) (command : Option C) : Raft n C D × Option (Nat × Nat) :=
  if rf.state ≠ .leader then (rf, none)
  else
    let newLatestLogIdx := rf.getLatestLog.index + 1
    let newLogEntry := { command := command, term := rf.currentTerm, index := newLatestLogIdx }
    let rf := persistState { rf with logs := rf.logs ++ [newLogEntry] }
    let rf := updateLogIndices rf rf.me newLatestLogIdx
    (rf, some (newLatestLogIdx, rf.currentTerm))

/-! ## The applier -/

/-- One turn of the loop of `applier` between taking and releasing the lock:
the peer, and the message the goroutine then sends. -/
def applier (rf : Raft n C D) : Raft n C D × Option (ApplyMsg C D) :=
  match rf.pendingSnapshot with
  | some msg => ({ rf with pendingSnapshot := none }, some msg)
  | none =>
    if rf.commitIndex ≤ rf.lastApplied then (rf, none)
    else
      let firstLogIdx := rf.getFirstLog.index
      if rf.lastApplied < firstLogIdx then ({ rf with lastApplied := firstLogIdx }, none)
      else
        let nextIndex := rf.lastApplied + 1
        if nextIndex > rf.commitIndex then (rf, none)
        else if nextIndex < firstLogIdx ∨ nextIndex - firstLogIdx ≥ rf.logs.length then
          ({ rf with lastApplied := firstLogIdx }, none)
        else
          let entry := rf.logs.getD (nextIndex - firstLogIdx) default
          ({ rf with lastApplied := nextIndex },
            some { commandValid := true, command := entry.command, commandIndex := entry.index })

end Raft

end DistSys.Raft1
