import DistSys.Raft1.Cluster
import DistSys.Raft1.Compact

/- The cluster as leader-based log replication with compaction.

   `Coupled svc s g` relates a state of the cluster to a state `g` of the
   protocol on whole logs and durable terms. Per peer: the retained log is the
   compaction of the whole one, the persister holds the durable term, vote and
   log, the commit index ends an agreed prefix, a leader's `matchIndex` repeats
   confirmations, and what was or is about to be sent on `applyCh` continues
   the agreed sequence without a gap. Per message: a request repeats facts of
   its sender's term, a reply facts about its server.

   The term in memory may be ahead of the saved one: `InstallSnapShot` raises it
   without saving on the path that ignores an old snapshot. Such a peer has no
   vote in the term and is a follower, and nothing it does there is durable, so
   for the protocol it is still in the saved term (`Durable.volatile`). -/
namespace DistSys.Raft1

open Lib

variable {n : Nat} {C D : Type}

/-- The protocol state behind a cluster, and the snapshots that the services hand over in the run. -/
structure Ghost (n : Nat) (C D : Type) where
  core : Repl (Fin n) (Option C)
  produced : Nat → D → Prop

instance : Preorder (Ghost n C D) where
  le := fun g g' => g.core ≤ g'.core ∧ ∀ i d, g.produced i d → g'.produced i d
  le_refl := fun _ => ⟨le_rfl, fun _ _ h => h⟩
  le_trans := fun _ _ _ h h' => ⟨h.1.trans h'.1, fun i d hp => h'.2 i d (h.2 i d hp)⟩

/-! ## Snapshots and messages to the service -/

/-- A snapshot for index `i` restores the state after an agreed prefix of that length. -/
def SnapOk (svc : Service C D) (g : Ghost n C D) (i : Nat) (d : D) : Prop :=
  g.produced i d ∧ ∃ p, g.core.Agreed p ∧ p.length = i ∧
    svc.restore d = svc.run (p.map Entry.cmd)

/-- The snapshot beside a log whose placeholder has index `i`. -/
def SnapFor (svc : Service C D) (g : Ghost n C D) (i : Nat) : Option D → Prop
  | none => i = 0
  | some d => SnapOk svc g i d

/-- The index a message to the service brings it to. -/
def ApplyMsg.at (m : ApplyMsg C D) : Nat :=
  if m.commandValid then m.commandIndex else m.snapshotIndex

/-- A message may follow one for index `last`. -/
def ApplyMsg.Follows (last : Nat) (m : ApplyMsg C D) : Prop :=
  if m.commandValid then m.commandIndex = last + 1 else last < m.snapshotIndex

/-- The messages follow one another from index `last` on. -/
def Gapless : Nat → List (ApplyMsg C D) → Prop
  | _, [] => True
  | last, m :: ms => m.Follows last ∧ Gapless m.at ms

/-- The index the last message brought the service to. -/
def lastIndex (boot : Nat) (ms : List (ApplyMsg C D)) : Nat := ms.foldl (fun _ m => m.at) boot

/-- What a message carries is the agreed command at its index, or a snapshot of the agreed
prefix. -/
def MsgOk (svc : Service C D) (g : Ghost n C D) (m : ApplyMsg C D) : Prop :=
  if m.commandValid then
    ∃ p e, g.core.Agreed (p ++ [e]) ∧ p.length + 1 = m.commandIndex ∧ e.cmd = m.command
  else SnapFor svc g m.snapshotIndex m.snapshot

/-! ## One peer -/

structure LogInv (g : Repl (Fin n) (Option C)) (me : Fin n) (rf : Raft n C D) : Prop where
  logs : rf.logs = compact (g.log me) rf.lastIncludedIndex
  term : rf.lastIncludedTerm = termAt (g.log me) rf.lastIncludedIndex
  first_le : rf.lastIncludedIndex ≤ rf.lastApplied
  applied_le : rf.lastApplied ≤ rf.commitIndex
  commit_le : rf.commitIndex ≤ (g.log me).length
  cert : g.AgreedBy (g.term me) ((g.log me).take rf.commitIndex)

/-- The snapshot held belongs to a log that starts at index `i`, and so did every
one saved before to the log and index saved with it. -/
structure Saves (svc : Service C D) (g : Ghost n C D) (ps : Persister n C D) (i : Nat) : Prop where
  snap : SnapFor svc g i ps.readSnapshot
  all : ∀ sv ∈ ps.saves, (sv.1.logs.headD default).index = sv.1.lastIncludedIndex ∧
    SnapFor svc g sv.1.lastIncludedIndex sv.2

structure Durable (svc : Service C D) (g : Ghost n C D) (me : Fin n) (rf : Raft n C D) :
    Prop where
  term : rf.persister.state.currentTerm = g.core.term me
  vote : rf.persister.state.voteFor = g.core.vote me
  logs : rf.persister.state.logs = rf.logs
  index : rf.persister.state.lastIncludedIndex = rf.lastIncludedIndex
  lastTerm : rf.persister.state.lastIncludedTerm = rf.lastIncludedTerm
  saves : Saves svc g rf.persister rf.lastIncludedIndex
  /-- In memory the peer is in its saved term with its saved vote, or ahead of it
  as a follower that has not voted. -/
  volatile : (rf.currentTerm = g.core.term me ∧ rf.voteFor = g.core.vote me) ∨
    (g.core.term me < rf.currentTerm ∧ rf.voteFor = none ∧ rf.state = .follower)

structure Role (g : Repl (Fin n) (Option C)) (me : Fin n) (incarnation : Nat) (rf : Raft n C D) :
    Prop where
  candidate : rf.state = .candidate → g.camp rf.currentTerm me = some (g.log me) ∧
    ∀ e, g.leader rf.currentTerm ≠ some (me, e)
  leader : rf.state = .leader → g.leader rf.currentTerm = some (me, incarnation) ∧
    ∀ p, rf.matchIndex p ≤ g.acked p rf.currentTerm

/-- After index `y` the applier has either applied everything up to
`lastApplied`, or a snapshot for that index is pending. -/
def Pending (svc : Service C D) (g : Ghost n C D) (rf : Raft n C D) (y : Nat) : Prop :=
  match rf.pendingSnapshot with
  | none => y = rf.lastApplied
  | some m => m.commandValid = false ∧ m.snapshotValid = true ∧ m.snapshotIndex = rf.lastApplied ∧
      y < rf.lastApplied ∧ MsgOk svc g m

structure Applying (svc : Service C D) (g : Ghost n C D) (p : Process n C D) : Prop where
  boot : SnapFor svc g p.bootIndex p.bootSnapshot
  order : Gapless p.bootIndex p.applyCh
  content : ∀ m ∈ p.applyCh, MsgOk svc g m
  next : match p.sending with
    | none => Pending svc g p.rf (lastIndex p.bootIndex p.applyCh)
    | some m => m.Follows (lastIndex p.bootIndex p.applyCh) ∧ MsgOk svc g m ∧ Pending svc g p.rf m.at

structure NodeInv (svc : Service C D) (g : Ghost n C D) (me : Fin n) (p : Process n C D) :
    Prop where
  self : p.rf.me = me
  log : LogInv g.core me p.rf
  dur : Durable svc g me p.rf
  role : Role g.core me p.incarnation p.rf
  app : Applying svc g p

/-! ## The network -/

/-- A piece `P` of the log of the leader of the term, from the previous index on,
with a committed prefix inside it that reaches `leaderCommit`. -/
def AppendOk (g : Repl (Fin n) (Option C)) (args : AppendEntryArgs n C)
    (P : List (Entry (Option C))) : Prop :=
  g.leader args.term ≠ none ∧ P <+: g.llog args.term ∧ args.prevLogIndex ≤ P.length ∧
    args.prevLogTerm = termAt P args.prevLogIndex ∧
    args.entries = tag args.prevLogIndex (P.drop args.prevLogIndex) ∧
    (args.leaderCommit = 0 ∨ ∃ T N, T ≤ args.term ∧ g.Committed T N ∧ args.leaderCommit ≤ N ∧
      (g.llog T).take N <+: P)

/-- The snapshot is of an agreed prefix that the leader of the term has. -/
def SnapReqOk (svc : Service C D) (g : Ghost n C D) (args : InstallSnapShotArgs n D) : Prop :=
  g.core.leader args.term ≠ none ∧ args.lastIncludedIndex ≤ (g.core.llog args.term).length ∧
    args.lastIncludedTerm = termAt (g.core.llog args.term) args.lastIncludedIndex ∧
    g.core.AgreedBy args.term ((g.core.llog args.term).take args.lastIncludedIndex) ∧
    SnapFor svc g args.lastIncludedIndex args.data

def RpcOk (svc : Service C D) (g : Ghost n C D) (m : Rpc n C D) : Prop :=
  match m.payload with
  | .voteReq args => args.candidateId = m.caller ∧ ∃ K, g.core.camp args.term m.caller = some K ∧
      args.lastLogIndex = K.length ∧ args.lastLogTerm = lastTerm K
  | .voteRep args reply => (∃ K, g.core.camp args.term m.caller = some K) ∧
      (reply.voteGranted = true → g.core.ballot m.server args.term = some m.caller)
  | .appendReq args => ∃ P, AppendOk g.core args P
  | .appendRep args reply => (∃ P, AppendOk g.core args P) ∧ (reply.success = true →
      args.prevLogIndex + args.entries.length ≤ g.core.acked m.server args.term)
  | .snapReq args => SnapReqOk svc g args
  | .snapRep args reply => SnapReqOk svc g args ∧ (reply.term ≤ args.term →
      args.lastIncludedIndex ≤ g.core.acked m.server args.term)

/-- The election an RPC belongs to: its candidate, term and voter. -/
def Rpc.voteKey (m : Rpc n C D) : Option (Fin n × Nat × Fin n) :=
  match m.payload with
  | .voteReq args => some (m.caller, args.term, m.server)
  | .voteRep args _ => some (m.caller, args.term, m.server)
  | _ => none

def voteKeys (net : List (Rpc n C D)) : List (Fin n × Nat × Fin n) := net.filterMap Rpc.voteKey

/-- The votes a candidate counted came from different peers, and no RPC of its
election with one of them is left. -/
def Counted (g : Repl (Fin n) (Option C)) (me : Fin n) (p : Process n C D)
    (net : List (Rpc n C D)) : Prop :=
  p.rf.state = .candidate → ∃ S : Finset (Fin n), me ∈ S ∧ S.card = p.grantedVotes ∧
    (∀ v ∈ S, g.ballot v p.rf.currentTerm = some me) ∧
    ∀ v ∈ S, (me, p.rf.currentTerm, v) ∉ voteKeys net

structure Coupled (svc : Service C D) (s : Cluster n C D) (g : Ghost n C D) : Prop where
  inv : g.core.Inv
  node : ∀ me, NodeInv svc g me (s.proc me)
  net : ∀ m ∈ s.net, RpcOk svc g m
  keys : (voteKeys s.net).Nodup
  counted : ∀ me, Counted g.core me (s.proc me) s.net

end DistSys.Raft1
