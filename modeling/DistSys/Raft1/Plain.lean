import DistSys.Raft1.Simulation

/- Raft without compaction.

   The same peers, handlers and network, with a log that is never trimmed: no
   `Snapshot`, no `InstallSnapShot`. In exchange a leader may send any piece of its
   log in an `AppendEntry`, whatever its `nextIndex` says, and a peer may take over
   the term of an `AppendEntry` and drop the request. A piece that ends before the
   log does passes the commit index on only as far as the piece reaches. -/
namespace DistSys.Raft1

open Lib

variable {n : Nat} {C D : Type}

/-! ## The protocol -/

/-- The request for the entries after index `i` up to index `j`. Positions in the log are indices. -/
def Raft.pieceArgs (rf : Raft n C D) (i j : Nat) : AppendEntryArgs n C where
  term := rf.currentTerm
  leaderId := rf.me
  prevLogIndex := i
  prevLogTerm := (rf.logs.getD i default).term
  entries := (rf.logs.drop (i + 1)).take (j - i)
  leaderCommit := min rf.commitIndex j

/-- What `AppendEntry` does before it looks at the log. -/
def Raft.adoptTerm (rf : Raft n C D) (term : Nat) : Raft n C D :=
  (rf.updateTermAndStepDown term).changeState .follower

inductive PlainEvent (n : Nat) (C : Type) where
  | electionTimeout (me : Fin n)
  | start (me : Fin n) (command : Option C)
  /-- A leader sends the entries after `i` up to `j`. -/
  | send (me peer : Fin n) (i j : Nat)
  | handle (k : Nat)
  | lose (k : Nat)
  /-- The server of the request at position `k` takes over its term and drops it. -/
  | adopt (k : Nat)

/-- One event of the protocol; `none` when it is not enabled. -/
def Cluster.plainExec (a : Cluster n C D) : PlainEvent n C → Option (Cluster n C D)
  | .electionTimeout me => a.exec (.electionTimeout me)
  | .start me command => a.exec (.start me command)
  | .send me peer i j =>
    let p := a.proc me
    if me ≠ peer ∧ p.rf.state = .leader ∧ i ≤ j ∧ j < p.rf.logs.length then
      some { a with net := ⟨me, p.incarnation, peer, .appendReq (p.rf.pieceArgs i j)⟩ :: a.net }
    else none
  | .handle k => a.exec (.handle k)
  | .lose k => a.exec (.lose k)
  | .adopt k =>
    match a.net[k]? with
    | none => none
    | some m =>
      match m.payload with
      | .appendReq args =>
        let p := a.proc m.server
        if args.term < p.rf.currentTerm then none
        else some (a.set m.server { p with rf := p.rf.adoptTerm args.term } (a.net.eraseIdx k))
      | _ => none

/-- The runs of the protocol. -/
def plain (n : Nat) (C D : Type) : Lts (Cluster n C D) (PlainEvent n C) where
  init := fun a => a = Cluster.initial n C D
  step := fun a e b => a.plainExec e = some b

/-! ## Requests are pieces of leaders' logs -/

/-- The request carries a piece of the log that a leader of its term had in one of the states. -/
def SentIn (bs : List (Cluster n C D)) (m : Rpc n C D) (args : AppendEntryArgs n C) : Prop :=
  ∃ b ∈ bs, ∃ i j, i ≤ j ∧ j < (b.proc m.caller).rf.logs.length ∧
    (b.proc m.caller).rf.state = .leader ∧ args = (b.proc m.caller).rf.pieceArgs i j

theorem SentIn.mono {bs bs' : List (Cluster n C D)} {m : Rpc n C D} {args : AppendEntryArgs n C}
    (h : SentIn bs m args) (hsub : bs ⊆ bs') : SentIn bs' m args := by
  obtain ⟨b, hb, rest⟩ := h
  exact ⟨b, hsub hb, rest⟩

/-- An event puts no append request on the network except by `send`. -/
theorem plainExec_net {a b : Cluster n C D} {e : PlainEvent n C} (h : a.plainExec e = some b)
    {m : Rpc n C D} (hm : m ∈ b.net) {args : AppendEntryArgs n C} (hp : m.payload = .appendReq args) :
    m ∈ a.net ∨ SentIn [a] m args := by
  cases e with
  | electionTimeout me =>
    simp only [Cluster.plainExec, Cluster.exec, Option.some.injEq] at h
    subst h
    rcases List.mem_append.mp hm with hm | hm
    · obtain ⟨peer, -, rfl⟩ := List.mem_map.mp hm
      simp at hp
    · exact Or.inl hm
  | start me command =>
    simp only [Cluster.plainExec, Cluster.exec, Option.some.injEq] at h
    subst h
    exact Or.inl hm
  | send me peer i j =>
    simp only [Cluster.plainExec] at h
    split at h
    · rename_i hc
      obtain rfl := Option.some.inj h
      rcases List.mem_cons.mp hm with rfl | hm
      · obtain rfl : (a.proc me).rf.pieceArgs i j = args := by simpa using hp
        exact Or.inr ⟨a, by simp, i, j, hc.2.2.1, hc.2.2.2, hc.2.1, rfl⟩
      · exact Or.inl hm
    · simp at h
  | handle k =>
    simp only [Cluster.plainExec, Cluster.exec, Option.map_eq_some_iff] at h
    obtain ⟨m', hm', rfl⟩ := h
    have hrest : ∀ {x}, x ∈ a.net.eraseIdx k → x ∈ a.net := fun hx => List.mem_of_mem_eraseIdx hx
    have hrep : ∀ {f : Process n C D → Process n C D},
        m ∈ (a.handleReply m' (a.net.eraseIdx k) f).net → m ∈ a.net := by
      intro f hx
      unfold Cluster.handleReply at hx
      split at hx <;> exact hrest hx
    have hreq : ∀ {rf : Raft n C D} {reply : Payload n C D}, (∀ x, reply ≠ .appendReq x) →
        m ∈ (a.handleRequest m' rf reply (a.net.eraseIdx k)).net → m ∈ a.net := by
      intro rf reply hne hx
      rcases List.mem_cons.mp hx with rfl | hx
      · exact absurd hp (hne args)
      · exact hrest hx
    left
    unfold Cluster.handle at hm
    split at hm
    · exact hreq (by simp) hm
    · exact hreq (by simp) hm
    · exact hreq (by simp) hm
    · exact hrep hm
    · exact hrep hm
    · exact hrep hm
  | lose k =>
    simp only [Cluster.plainExec, Cluster.exec] at h
    split at h
    · obtain rfl := Option.some.inj h
      exact Or.inl (List.mem_of_mem_eraseIdx hm)
    · simp at h
  | adopt k =>
    simp only [Cluster.plainExec] at h
    split at h
    · simp at h
    · split at h
      · split at h
        · simp at h
        · obtain rfl := Option.some.inj h
          exact Or.inl (List.mem_of_mem_eraseIdx hm)
      · simp at h

/-- In a run every append request under way carries a piece of a leader's log. -/
theorem plain_sent {a b : Cluster n C D} {ntr : List (Cluster n C D × PlainEvent n C)}
    (h : (plain n C D).Run a ntr b) (h₀ : a.net = []) :
    ∀ m ∈ b.net, ∀ args, m.payload = .appendReq args → SentIn (visited ntr b) m args := by
  induction h with
  | nil =>
    intro m hm
    rw [h₀] at hm
    simp at hm
  | @snoc ntr u w e _ hst ih =>
    intro m hm args hp
    rcases plainExec_net hst hm hp with hold | hsent
    · refine (ih m hold args hp).mono fun x hx => ?_
      simp only [visited, List.map_append, List.mem_append] at hx ⊢
      simpa using Or.inl hx
    · exact hsent.mono (by simp [visited])

end DistSys.Raft1
