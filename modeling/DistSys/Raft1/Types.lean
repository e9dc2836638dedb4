import Mathlib.Logic.Function.Basic

/- The data of raft1/raft.go, raftapi/raftapi.go and tester1/persister.go.

   `n` is the number of peers, `C` the type of commands, `D` the type of
   snapshots. A Go interface that may be nil, and a byte slice that may be
   empty, is an `Option`; the -1 of `voteFor` is `none`. Indices and terms are
   natural numbers where the source has `int`. It only ever subtracts after a
   comparison, and the model writes the comparison so that it needs no negative
   number. Nothing overflows in a run of fewer than `2 ^ 63 - 1` steps, since no
   term or index is larger than the number of steps (`numbers_within_steps`).

   Timers, condition variables, the mutex and the debug output are left out:
   every step of the cluster may happen at any time it is enabled, so nothing
   depends on when a timer fires or who is woken. `dead` is left out too: a
   killed peer is a crashed one.

   Correspondence (Go ↔ Lean):
     `persister.Save(raftstate, snapshot)`  ↔ `Persister.save`
     `persister.ReadRaftState()`            ↔ `Persister.readRaftState`
     `persister.ReadSnapshot()`             ↔ `Persister.readSnapshot`
   The gob encoding of the five persisted fields is taken to round-trip. -/
namespace DistSys.Raft1

variable {n : Nat} {C D : Type}

inductive ServerState where
  | follower
  | candidate
  | leader
  deriving DecidableEq, Repr

structure LogEntry (C : Type) where
  command : Option C
  term : Nat
  index : Nat
  deriving DecidableEq, Repr

/-- The zero value of `LogEntry`: what `make([]LogEntry, 1)` puts at `logs[0]`. -/
instance : Inhabited (LogEntry C) := ⟨⟨none, 0, 0⟩⟩

structure ApplyMsg (C D : Type) where
  commandValid : Bool := false
  command : Option C := none
  commandIndex : Nat := 0
  snapshotValid : Bool := false
  snapshot : Option D := none
  snapshotTerm : Nat := 0
  snapshotIndex : Nat := 0
  deriving DecidableEq, Repr

/-! ## The persister -/

/-- The five fields that `persist` encodes and `readPersist` decodes. -/
structure RaftState (n : Nat) (C : Type) where
  currentTerm : Nat
  voteFor : Option (Fin n)
  logs : List (LogEntry C)
  lastIncludedIndex : Nat
  lastIncludedTerm : Nat
  deriving DecidableEq, Repr

/-- The persister, as the list of all saves made to it, newest first: what it
holds is the newest one. The older ones are kept because a crash may come
between two saves of one handler. -/
structure Persister (n : Nat) (C D : Type) where
  saves : List (RaftState n C × Option D)
  deriving DecidableEq, Repr

def makePersister : Persister n C D := ⟨[]⟩

def Persister.save (ps : Persister n C D) (raftstate : RaftState n C) (snapshot : Option D) :
    Persister n C D :=
  ⟨(raftstate, snapshot) :: ps.saves⟩

/-- `none` while nothing has been saved. -/
def Persister.readRaftState (ps : Persister n C D) : Option (RaftState n C) :=
  ps.saves.head?.map Prod.fst

/-- What `readPersist` restores; an empty persister stands for the initial state. -/
def Persister.state (ps : Persister n C D) : RaftState n C :=
  ps.readRaftState.getD ⟨0, none, [default], 0, 0⟩

/-- `none` for the empty snapshot. -/
def Persister.readSnapshot (ps : Persister n C D) : Option D :=
  ps.saves.head?.bind Prod.snd

/-! ## The peer -/

structure Raft (n : Nat) (C D : Type) where
  persister : Persister n C D
  me : Fin n
  currentTerm : Nat
  voteFor : Option (Fin n)
  commitIndex : Nat
  lastApplied : Nat
  state : ServerState
  nextIndex : Fin n → Nat
  matchIndex : Fin n → Nat
  logs : List (LogEntry C)
  lastIncludedIndex : Nat
  lastIncludedTerm : Nat
  pendingSnapshot : Option (ApplyMsg C D)

/-! ## The messages -/

structure RequestVoteArgs (n : Nat) where
  term : Nat
  candidateId : Fin n
  lastLogIndex : Nat
  lastLogTerm : Nat
  deriving DecidableEq, Repr

structure RequestVoteReply where
  term : Nat := 0
  voteGranted : Bool := false
  deriving DecidableEq, Repr

structure AppendEntryArgs (n : Nat) (C : Type) where
  term : Nat
  leaderId : Fin n
  prevLogIndex : Nat
  prevLogTerm : Nat
  entries : List (LogEntry C)
  leaderCommit : Nat
  deriving DecidableEq, Repr

/-- `conflictTerm` is -1 where the follower has no entry at the index asked for. -/
structure AppendEntryReply where
  term : Nat := 0
  success : Bool := false
  conflictIndex : Nat := 0
  conflictTerm : Int := 0
  deriving DecidableEq, Repr

structure InstallSnapShotArgs (n : Nat) (D : Type) where
  term : Nat
  leaderId : Fin n
  lastIncludedIndex : Nat
  lastIncludedTerm : Nat
  data : Option D
  deriving DecidableEq, Repr

structure InstallSnapShotReply where
  term : Nat := 0
  deriving DecidableEq, Repr

end DistSys.Raft1
