import DistSys.Raft1.PlainStep

/- Compaction refines Raft without compaction.

   Every run of the cluster without crashes is tracked by a run of the protocol of
   `Plain` (`compaction_refines`): at each state the peers look the same, and the
   retained log is the end of the whole one. -/
namespace DistSys.Raft1

open Lib

variable {n : Nat} {C D : Type} {svc : Service C D} {s t a : Cluster n C D} {g : Ghost n C D}

/-! ## Events and runs -/

theorem Tracked.handle (h : Tracked g s a) (hc : Coupled svc s g) (hnet : NetInv s) {k : Nat}
    {m : Rpc n C D} (hm : s.net[k]? = some m) :
    ∃ b, Reaches svc g (s.handle m (s.net.eraseIdx k)) a b ∧
      Installs (s, .event (.handle k)) a b := by
  -- only a snapshot request is one that `Installs` speaks of
  have hother : (∀ args, m.payload ≠ .snapReq args) → ∀ b, Installs (s, .event (.handle k)) a b := by
    intro hne b k₁ m₁ args hk₁ hm₁ hp₁
    obtain rfl : k = k₁ := by simpa using hk₁
    obtain rfl : m = m₁ := Option.some.inj (hm.symm.trans hm₁)
    exact absurd hp₁ (hne args)
  cases hp : m.payload with
  | voteReq args =>
    obtain ⟨b, hb⟩ := tracked_requestVote h hc hm hp
    exact ⟨b, hb, hother (by simp [hp]) b⟩
  | voteRep args reply =>
    obtain ⟨b, hb⟩ := tracked_voteReply h hc hm hp
    exact ⟨b, hb, hother (by simp [hp]) b⟩
  | appendReq args =>
    obtain ⟨b, hb⟩ := tracked_appendEntry h hc hm hp
    exact ⟨b, hb, hother (by simp [hp]) b⟩
  | appendRep args reply =>
    obtain ⟨b, hb⟩ := tracked_appendReply h hc hnet hm hp
    exact ⟨b, hb, hother (by simp [hp]) b⟩
  | snapReq args => exact tracked_installSnapShot h hc hm hp
  | snapRep args reply =>
    obtain ⟨b, hb⟩ := tracked_snapShotReply h hc hnet hm hp
    exact ⟨b, hb, hother (by simp [hp]) b⟩

/-- Every event of the cluster is some events of the protocol. -/
theorem Tracked.exec (h : Tracked g s a) (hc : Coupled svc s g) (hnet : NetInv s)
    {e : Event n C D} (ht : s.exec e = some t) (ha : e.Allowed svc s)
    (hprod : ∀ me i d, e = .snapshot me i d → g.produced i d) :
    ∃ b, Reaches svc g t a b ∧ Installs (s, .event e) a b := by
  have hlocal : (∀ k, e ≠ .handle k) → (∃ b, Reaches svc g t a b) →
      ∃ b, Reaches svc g t a b ∧ Installs (s, .event e) a b := by
    rintro hne ⟨b, hb⟩
    exact ⟨b, hb, fun k m args hk => absurd (by simpa using hk) (hne k)⟩
  cases e with
  | electionTimeout me => exact hlocal (by simp) (tracked_electionTimeout h hc me ht)
  | start me command => exact hlocal (by simp) (tracked_start h hc me command ht)
  | send me peer => exact hlocal (by simp) (tracked_send h hc me peer ht)
  | handle k =>
    simp only [Cluster.exec, Option.map_eq_some_iff] at ht
    obtain ⟨m, hm, rfl⟩ := ht
    exact h.handle hc hnet hm
  | lose k => exact hlocal (by simp) (tracked_lose h hc ht)
  | snapshot me index data =>
    exact hlocal (by simp) (tracked_snapshot h hc me ht ha (hprod me index data rfl))
  | applier me => exact hlocal (by simp) (tracked_applier h hc me ht)
  | deliver me => exact hlocal (by simp) (tracked_deliver h hc me ht)

theorem tracked_initial (produced : Nat → D → Prop) :
    Tracked (Ghost.initial n C D produced) (Cluster.initial n C D) (Cluster.initial n C D) where
  node := fun me => by
    have hs : Shows [] ((Cluster.initial n C D).proc me).rf := ⟨rfl, rfl, le_rfl⟩
    exact ⟨rfl, rfl, rfl, rfl, rfl, rfl, hs, hs, rfl⟩
  life := fun _ => rfl
  votes := fun _ => rfl
  settled := fun me hs => by
    simp [Cluster.initial, Process.boot, Raft.make, Raft.readPersist, makePersister,
      Persister.readRaftState] at hs
  net := rfl

/-- What the two sides of the refinement show of one peer: `rf` compacts its log, `qf` does not. -/
structure SameView (rf qf : Raft n C D) : Prop where
  currentTerm : qf.currentTerm = rf.currentTerm
  voteFor : qf.voteFor = rf.voteFor
  state : qf.state = rf.state
  commitIndex : qf.commitIndex = rf.commitIndex
  matchIndex : rf.state = .leader → qf.matchIndex = rf.matchIndex
  untrimmed : ∀ i, i < qf.logs.length → (qf.logs.getD i default).index = i
  within : rf.getFirstLog.index < qf.logs.length
  firstTerm : (qf.logs.getD rf.getFirstLog.index default).term = rf.getFirstLog.term
  retained : qf.logs.drop (rf.getFirstLog.index + 1) = rf.logs.tail

theorem Twin.sameView {ℓ : List (Entry (Option C))} {rf qf : Raft n C D} (h : Twin ℓ rf qf) :
    SameView rf qf := by
  have hlen := h.whole.length
  have hget : ∀ i, i ≤ ℓ.length → (qf.logs.getD i default).term = termAt ℓ i ∧
      (qf.logs.getD i default).index = i := by
    intro i hi
    have := h.whole.getD (i := i) (by rw [h.base]; exact Nat.zero_le i) hi
    rwa [h.base, Nat.sub_zero] at this
  rw [h.base, Nat.sub_zero] at hlen
  have hfirst := h.kept.first_len
  refine ⟨h.term, h.vote, h.state, h.commit, fun _ => h.matchIndex, fun i hi => ?_, ?_, ?_, ?_⟩
  · exact (hget i (by omega)).2
  · rw [h.kept.first]
    simp only
    omega
  · rw [h.kept.first]
    exact (hget _ hfirst).1.trans h.kept.term.symm
  · have hdrop := compact_drop_succ (C := C) (ℓ := ℓ) (Nat.zero_le rf.lastIncludedIndex)
    rw [h.kept.first, h.whole.logs, h.base]
    rw [Nat.sub_zero] at hdrop
    rw [hdrop, h.kept.logs]
    rfl

/-- Whether an action is a crash. -/
def Action.isCrash : Action n C D → Bool
  | .event _ => false
  | .crash _ => true
  | .crashIn _ _ _ => true

/-- Every run of the cluster without crashes is matched by a run of the protocol without compaction:
each state of the one has its state of the other, in order, where every peer looks the same and the
retained log is the end of the whole one; an accepted snapshot is an append of the entries it
covers; and every append request of the protocol carries a piece of the log of a leader. -/
theorem compaction_refines {tr : List (Cluster n C D × Action n C D)} (h : Run svc tr s)
    (hcrash : ∀ x ∈ tr, x.2.isCrash = false) :
    ∃ ntr b f, (plain n C D).Run (Cluster.initial n C D) ntr b ∧
      Tracks (fun u c => ∀ me, SameView (u.proc me).rf (c.proc me).rf) Installs tr s ntr b f ∧
      ∀ c ∈ visited ntr b, ∀ m ∈ c.net, ∀ args, m.payload = .appendReq args →
        SentIn (visited ntr b) m args := by
  let I : Cluster n C D → Cluster n C D → Prop := fun u c => NetInv u ∧
    ∃ gu, gu.produced = HandedOver tr ∧ Coupled svc u gu ∧ Tracked gu u c
  have h₀ : I (Cluster.initial n C D) (Cluster.initial n C D) :=
    ⟨⟨fun m hm => by simp [Cluster.initial] at hm, fun m hm => by simp [Cluster.initial] at hm⟩,
      Ghost.initial n C D (HandedOver tr), rfl, coupled_initial _, tracked_initial _⟩
  have hstep : ∀ u x w c, (u, x) ∈ tr → I u c → (system n svc).step u x w →
      ∃ ntr c', (plain n C D).Run c ntr c' ∧ I w c' ∧ Installs (u, x) c c' := by
    rintro u x w c hmem ⟨hnet, gu, hprod, hc, htr⟩ ⟨hallowed, hst⟩
    cases x with
    | event e =>
      obtain ⟨c', ⟨⟨ntr, hrun⟩, gw, hgw, hcw, htw⟩, hinst⟩ := htr.exec hc hnet hst hallowed
        (fun me i d he => hprod ▸ ⟨_, hmem, by rw [he]; exact ⟨rfl, rfl⟩⟩)
      exact ⟨ntr, c', hrun, ⟨hnet.exec hc hst, gw, hgw.trans hprod, hcw, htw⟩, hinst⟩
    | crash me => exact absurd (hcrash _ hmem) (by simp [Action.isCrash])
    | crashIn me e k => exact absurd (hcrash _ hmem) (by simp [Action.isCrash])
  obtain ⟨ntr, b, f, hrun, -, -, htracks⟩ := Lts.Run.simulated h h₀ hstep
  refine ⟨ntr, b, f, hrun, ⟨htracks.mono, fun i u hu => ?_, htracks.steps⟩, fun c hcv => ?_⟩
  · obtain ⟨c, hcv, -, gu, -, -, htr⟩ := htracks.states i u hu
    exact ⟨c, hcv, fun me => (htr.node me).sameView⟩
  · obtain ⟨tr₁, tr₂, heq, h₁, h₂⟩ := hrun.to_visited hcv
    intro m hm args hp
    refine (plain_sent h₁ rfl m hm args hp).mono ?_
    rw [heq]
    exact h₂.visited_extends.subset

section Sample

/-- Three peers: 0 commits a command with 1, while 2 hears of nothing. -/
def laggingStart : Cluster 3 Nat (List (Option Nat)) := Cluster.initial 3 Nat (List (Option Nat))

def committingWithOne : List (Action 3 Nat (List (Option Nat))) :=
  [.event (.electionTimeout 0), .event (.handle 0), .event (.handle 0), .event (.start 0 (some 7)),
    .event (.send 0 1), .event (.handle 0), .event (.handle 0), .event (.applier 0),
    .event (.deliver 0)]

/-- Peer 0 compacts its log and sends 2 the snapshot, which accepts it. -/
def compacting : Action 3 Nat (List (Option Nat)) := .event (.snapshot 0 1 [some 7])

def installing : List (Action 3 Nat (List (Option Nat))) :=
  [.event (.send 0 2), .event (.handle 0)]

theorem lagging_run : Run logService (laggingStart.traceOf (committingWithOne ++ compacting :: installing))
    (laggingStart.after (committingWithOne ++ compacting :: installing)) := by
  have hbefore : laggingStart.enabled committingWithOne = true := by decide
  have hsome : ((laggingStart.after committingWithOne).step compacting).isSome = true := by decide
  have hafter : (((laggingStart.after committingWithOne).step compacting).getD
      (laggingStart.after committingWithOne)).enabled installing = true := by decide
  obtain ⟨w, hw⟩ := Option.isSome_iff_exists.mp hsome
  rw [Cluster.traceOf, Cluster.after, traceOf_append, after_append, traceOf, after]
  rw [hw] at hafter ⊢
  have hallowed : compacting.Allowed logService (laggingStart.after committingWithOne) :=
    ⟨1, by decide, rfl⟩
  have hstep : (system 3 logService).Run _ [(_, compacting)] w := Lts.Run.single ⟨hallowed, hw⟩
  exact Lts.Run.append (Cluster.run_of_enabled hbefore)
    (hstep.append (Cluster.run_of_enabled hafter))

theorem compaction_refines_sample :
    ((laggingStart.after (committingWithOne ++ compacting :: installing)).proc 2).rf.logs =
      [⟨none, 1, 1⟩] ∧
    ∃ ntr b f, (plain 3 Nat (List (Option Nat))).Run laggingStart ntr b ∧
      Tracks (fun u c => ∀ me, SameView (u.proc me).rf (c.proc me).rf) Installs
        (laggingStart.traceOf (committingWithOne ++ compacting :: installing))
        (laggingStart.after (committingWithOne ++ compacting :: installing)) ntr b f ∧
      ∀ c ∈ visited ntr b, ∀ m ∈ c.net, ∀ args, m.payload = .appendReq args →
        SentIn (visited ntr b) m args :=
  ⟨by decide, compaction_refines lagging_run (by decide)⟩

end Sample

end DistSys.Raft1
