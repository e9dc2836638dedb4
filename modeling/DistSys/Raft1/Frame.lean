import DistSys.Raft1.Coupling

/- What one peer's step leaves alone.

   A step of the cluster changes one process and the network. On the protocol
   side it is some steps of that peer (`Frame`): the other peers keep their
   durable state, and whatever was true of leaders, ballots, confirmations and
   agreed prefixes stays true. So the coupling of the other peers and of the
   messages already under way carries over, and a step only has to be looked at
   where it happens (`Coupled.set`). -/
namespace DistSys.Raft1

open Lib

variable {n : Nat} {C D : Type} {svc : Service C D}

/-! ## Facts that only grow -/

section Mono
variable {g g' : Ghost n C D}

theorem SnapOk.mono (hg : g ≤ g') {i : Nat} {d : D} (h : SnapOk svc g i d) : SnapOk svc g' i d := by
  obtain ⟨hp, p, ha, hl, hr⟩ := h
  exact ⟨hg.2 i d hp, p, ha.ext hg.1, hl, hr⟩

theorem SnapFor.mono (hg : g ≤ g') {i : Nat} {o : Option D} (h : SnapFor svc g i o) :
    SnapFor svc g' i o := by
  cases o with
  | none => exact h
  | some d => exact SnapOk.mono hg h

theorem Saves.mono (hg : g ≤ g') {ps : Persister n C D} {i : Nat} (h : Saves svc g ps i) :
    Saves svc g' ps i :=
  ⟨h.snap.mono hg, fun sv hsv => ⟨(h.all sv hsv).1, (h.all sv hsv).2.mono hg⟩⟩

theorem MsgOk.mono (hg : g ≤ g') {m : ApplyMsg C D} (h : MsgOk svc g m) : MsgOk svc g' m := by
  unfold MsgOk at h ⊢
  split
  · rename_i hc
    rw [if_pos hc] at h
    obtain ⟨p, e, ha, hl, he⟩ := h
    exact ⟨p, e, ha.ext hg.1, hl, he⟩
  · rename_i hc
    rw [if_neg hc] at h
    exact h.mono hg

theorem Pending.mono (hg : g ≤ g') {rf : Raft n C D} {y : Nat} (h : Pending svc g rf y) :
    Pending svc g' rf y := by
  unfold Pending at h ⊢
  split
  · rename_i hp
    rw [hp] at h
    exact h
  · rename_i m hp
    rw [hp] at h
    obtain ⟨h₁, h₂, h₃, h₄, h₅⟩ := h
    exact ⟨h₁, h₂, h₃, h₄, h₅.mono hg⟩

theorem Applying.mono (hg : g ≤ g') {p : Process n C D} (h : Applying svc g p) :
    Applying svc g' p where
  boot := h.boot.mono hg
  order := h.order
  content := fun m hm => (h.content m hm).mono hg
  next := by
    have := h.next
    split
    · rename_i hs
      rw [hs] at this
      exact this.mono hg
    · rename_i m hs
      rw [hs] at this
      exact ⟨this.1, this.2.1.mono hg, this.2.2.mono hg⟩

theorem AppendOk.mono {c c' : Repl (Fin n) (Option C)} (hg : c.Ext c') {args : AppendEntryArgs n C}
    {P : List (Entry (Option C))} (h : AppendOk c args P) : AppendOk c' args P := by
  obtain ⟨h₁, h₂, h₃, h₄, h₅, h₆⟩ := h
  refine ⟨hg.led h₁, h₂.trans (hg.llog _), h₃, h₄, h₅, ?_⟩
  rcases h₆ with h₆ | ⟨T, N, hT, hc, hN, hp⟩
  · exact Or.inl h₆
  · exact Or.inr ⟨T, N, hT, hc.ext hg, hN, by rwa [Repl.take_ext hc.le hg]⟩

theorem SnapReqOk.mono (hg : g ≤ g') {args : InstallSnapShotArgs n D} (h : SnapReqOk svc g args) :
    SnapReqOk svc g' args := by
  obtain ⟨h₁, h₂, h₃, h₄, h₅⟩ := h
  have hext : g.core.Ext g'.core := hg.1
  refine ⟨hext.led h₁, h₂.trans (hext.llog _).length_le, ?_, ?_, h₅.mono hg⟩
  · rw [termAt_prefix_eq (hext.llog _) h₂]; exact h₃
  · rw [Repl.take_ext h₂ hext]; exact h₄.ext hext

theorem RpcOk.mono (hg : g ≤ g') {m : Rpc n C D} (h : RpcOk svc g m) : RpcOk svc g' m := by
  have hext : g.core.Ext g'.core := hg.1
  unfold RpcOk at h ⊢
  split <;> rename_i heq <;> rw [heq] at h
  · obtain ⟨h₁, K, hK, h₂⟩ := h
    exact ⟨h₁, K, hext.camp hK, h₂⟩
  · obtain ⟨⟨K, hK⟩, h₂⟩ := h
    exact ⟨⟨K, hext.camp hK⟩, fun hgr => hext.ballot (h₂ hgr)⟩
  · obtain ⟨P, hP⟩ := h
    exact ⟨P, hP.mono hext⟩
  · obtain ⟨⟨P, hP⟩, h₂⟩ := h
    exact ⟨⟨P, hP.mono hext⟩, fun hs => (h₂ hs).trans (hext.acked _ _)⟩
  · exact h.mono hg
  · exact ⟨h.1.mono hg, fun ht => (h.2 ht).trans (hext.acked _ _)⟩

end Mono

/-! ## Steps of one peer -/

/-- `g'` comes from `g` by steps of `me` only. -/
structure Frame (me : Fin n) (g g' : Repl (Fin n) (Option C)) : Prop where
  ext : g.Ext g'
  log : ∀ j, j ≠ me → g'.log j = g.log j
  term : ∀ j, j ≠ me → g'.term j = g.term j
  vote : ∀ j, j ≠ me → g'.vote j = g.vote j
  leader : ∀ {T k e}, g'.leader T = some (k, e) → g.leader T = some (k, e) ∨ k = me

namespace Frame

variable {me : Fin n} {g g' g'' : Repl (Fin n) (Option C)}

theorem refl (me : Fin n) (g : Repl (Fin n) (Option C)) : Frame me g g where
  ext := Repl.Ext.refl g
  log := fun _ _ => rfl
  term := fun _ _ => rfl
  vote := fun _ _ => rfl
  leader := Or.inl

theorem trans (h : Frame me g g') (h' : Frame me g' g'') : Frame me g g'' where
  ext := h.ext.trans h'.ext
  log := fun j hj => (h'.log j hj).trans (h.log j hj)
  term := fun j hj => (h'.term j hj).trans (h.term j hj)
  vote := fun j hj => (h'.vote j hj).trans (h.vote j hj)
  leader := fun hk => by
    rcases h'.leader hk with hk | hk
    · exact h.leader hk
    · exact Or.inr hk

theorem bump {T : Nat} {v : Option (Fin n)} (hT : g.term me < T) : Frame me g (g.bump me T v) where
  ext := Repl.ext_bump hT
  log := fun _ _ => rfl
  term := fun j hj => by simp [Repl.bump, hj]
  vote := fun j hj => by simp [Repl.bump, hj]
  leader := Or.inl

theorem campaign (hi : g.Inv) {T : Nat} (hT : g.term me < T) : Frame me g (g.campaign me T) where
  ext := Repl.ext_campaign hi hT
  log := fun _ _ => rfl
  term := fun j hj => by simp [Repl.campaign, hj]
  vote := fun j hj => by simp [Repl.campaign, hj]
  leader := Or.inl

theorem grant (hi : g.Inv) {k : Fin n} {T : Nat} (hT : g.term me = T)
    (hv : g.vote me = none ∨ g.vote me = some k) : Frame me g (g.grant me k T) where
  ext := Repl.ext_grant hi hT hv
  log := fun _ _ => rfl
  term := fun _ _ => rfl
  vote := fun j hj => by simp [Repl.grant, hj]
  leader := Or.inl

theorem lead (hi : g.Inv) {T e : Nat} (hnone : g.leader T = none) : Frame me g (g.lead me T e) where
  ext := Repl.ext_lead hi hnone
  log := fun _ _ => rfl
  term := fun _ _ => rfl
  vote := fun _ _ => rfl
  leader := by
    intro U k e' hk
    by_cases hU : U = T
    · subst hU
      have hk' : me = k ∧ e = e' := by simpa [Repl.lead] using hk
      exact Or.inr hk'.1.symm
    · left; simpa [Repl.lead, hU] using hk

theorem append (hi : g.Inv) {T e : Nat} {a : Option C} (hT : g.term me = T)
    (hk : g.leader T = some (me, e)) : Frame me g (g.append me T a) where
  ext := Repl.ext_append hi hT hk
  log := fun j hj => by simp [Repl.append, hj]
  term := fun _ _ => rfl
  vote := fun _ _ => rfl
  leader := Or.inl

theorem ack {T m : Nat} : Frame me g (g.ack me T m) where
  ext := Repl.ext_ack
  log := fun _ _ => rfl
  term := fun _ _ => rfl
  vote := fun _ _ => rfl
  leader := Or.inl

theorem adopt {T : Nat} {P : List (Entry (Option C))} : Frame me g (g.adopt me T P) where
  ext := Repl.ext_adopt
  log := fun j hj => by simp [Repl.adopt, hj]
  term := fun _ _ => rfl
  vote := fun _ _ => rfl
  leader := Or.inl

end Frame

/-! ## The other peers -/

section Others
variable {me j : Fin n} {g g' : Ghost n C D} {p : Process n C D}

theorem LogInv.frame {rf : Raft n C D} (h : LogInv g.core j rf) (hF : Frame me g.core g'.core)
    (hj : j ≠ me) : LogInv g'.core j rf where
  logs := by rw [hF.log j hj]; exact h.logs
  term := by rw [hF.log j hj]; exact h.term
  first_le := h.first_le
  applied_le := h.applied_le
  commit_le := by rw [hF.log j hj]; exact h.commit_le
  cert := by rw [hF.log j hj, hF.term j hj]; exact h.cert.ext hF.ext

theorem Durable.frame {rf : Raft n C D} (h : Durable svc g j rf) (hF : Frame me g.core g'.core)
    (hg : g ≤ g') (hj : j ≠ me) : Durable svc g' j rf where
  term := by rw [hF.term j hj]; exact h.term
  vote := by rw [hF.vote j hj]; exact h.vote
  logs := h.logs
  index := h.index
  lastTerm := h.lastTerm
  saves := h.saves.mono hg
  volatile := by rw [hF.term j hj, hF.vote j hj]; exact h.volatile

theorem Role.frame {inc : Nat} {rf : Raft n C D} (h : Role g.core j inc rf)
    (hF : Frame me g.core g'.core) (hj : j ≠ me) : Role g'.core j inc rf where
  candidate := by
    intro hs
    obtain ⟨h₁, h₂⟩ := h.candidate hs
    refine ⟨by rw [hF.log j hj]; exact hF.ext.camp h₁, fun e he => ?_⟩
    rcases hF.leader he with he | he
    · exact h₂ e he
    · exact hj he
  leader := by
    intro hs
    obtain ⟨h₁, h₂⟩ := h.leader hs
    exact ⟨hF.ext.leader h₁, fun q => (h₂ q).trans (hF.ext.acked _ _)⟩

theorem NodeInv.frame (h : NodeInv svc g j p) (hF : Frame me g.core g'.core) (hg : g ≤ g')
    (hj : j ≠ me) : NodeInv svc g' j p where
  self := h.self
  log := h.log.frame hF hj
  dur := h.dur.frame hF hg hj
  role := h.role.frame hF hj
  app := h.app.mono hg

end Others

/-! ## A step of the cluster -/

/-- The same snapshots over another protocol state. -/
def Ghost.withCore (g : Ghost n C D) (c : Repl (Fin n) (Option C)) : Ghost n C D := { g with core := c }

/-- `g'` comes from `g` by protocol steps of `me`. -/
structure Evolves (me : Fin n) (g g' : Ghost n C D) : Prop where
  steps : Repl.Steps g.core g'.core
  frame : Frame me g.core g'.core
  produced : g'.produced = g.produced

/-- The same, without a `Start`: no leader put an entry into its log. -/
structure Moves (me : Fin n) (g g' : Ghost n C D) : Prop extends Evolves me g g' where
  quiet : Repl.Quiet g.core g'.core

theorem Evolves.le {me : Fin n} {g g' : Ghost n C D} (h : Evolves me g g') : g ≤ g' :=
  ⟨h.frame.ext, fun _ _ hp => h.produced ▸ hp⟩

theorem Evolves.single {me : Fin n} {g : Ghost n C D} {c : Repl (Fin n) (Option C)}
    (hs : Repl.Step g.core c) (hF : Frame me g.core c) : Evolves me g (g.withCore c) :=
  ⟨Repl.Steps.single hs, hF, rfl⟩

namespace Moves

variable {me : Fin n} {g g' g'' : Ghost n C D}

theorem refl (me : Fin n) (g : Ghost n C D) : Moves me g g :=
  ⟨⟨Relation.ReflTransGen.refl, Frame.refl me g.core, rfl⟩, .of_same rfl rfl⟩

theorem trans (h : Moves me g g') (h' : Moves me g' g'') : Moves me g g'' :=
  ⟨⟨Relation.ReflTransGen.trans h.steps h'.steps, h.frame.trans h'.frame,
    h'.produced.trans h.produced⟩, h.quiet.trans h'.quiet⟩

theorem le (h : Moves me g g') : g ≤ g' := h.toEvolves.le

theorem single {c : Repl (Fin n) (Option C)} (hs : Repl.Step g.core c) (hF : Frame me g.core c)
    (hq : Repl.Quiet g.core c) : Moves me g (g.withCore c) :=
  ⟨.single hs hF, hq⟩

theorem bump {T : Nat} (v : Option (Fin n)) (hT : g.core.term me < T) :
    Moves me g (g.withCore (g.core.bump me T v)) :=
  single (.bump me T v hT) (Frame.bump hT) (.of_same rfl rfl)

end Moves

/-- The election RPCs of other candidates that the new network holds were there before. -/
def KeysFrom (me : Fin n) (net net' : List (Rpc n C D)) : Prop :=
  ∀ x ∈ voteKeys net', x.1 ≠ me → x ∈ voteKeys net

/-- To couple the cluster after a step of `me` it is enough to look at `me` and at the network. -/
theorem Coupled.set {s : Cluster n C D} {g g' : Ghost n C D} {me : Fin n} {p : Process n C D}
    {net : List (Rpc n C D)} (h : Coupled svc s g) (hmv : Evolves me g g')
    (hp : NodeInv svc g' me p) (hnet : ∀ m ∈ net, RpcOk svc g' m)
    (hkeys : (voteKeys net).Nodup) (hfrom : KeysFrom me s.net net)
    (hcount : Counted g'.core me p net) : Coupled svc (s.set me p net) g' where
  inv := (hmv.steps.inv_ext h.inv).1
  node := by
    intro j
    by_cases hj : j = me
    · subst hj; simpa [Cluster.set] using hp
    · simpa [Cluster.set, hj] using (h.node j).frame hmv.frame hmv.le hj
  net := hnet
  keys := hkeys
  counted := by
    intro j
    by_cases hj : j = me
    · subst hj; simpa [Cluster.set] using hcount
    · intro hs
      have hs' : (s.proc j).rf.state = .candidate := by simpa [Cluster.set, hj] using hs
      obtain ⟨S, h₁, h₂, h₃, h₄⟩ := h.counted j hs'
      refine ⟨S, h₁, by simpa [Cluster.set, hj] using h₂, fun v hv => ?_, fun v hv hm => ?_⟩
      · simpa [Cluster.set, hj] using hmv.frame.ext.ballot (h₃ v hv)
      · have hm' : (j, (s.proc j).rf.currentTerm, v) ∈ voteKeys net := by
          simpa [Cluster.set, hj] using hm
        exact h₄ v hv (hfrom _ hm' hj)

/-- Messages only disappear. -/
theorem Coupled.setNet {s : Cluster n C D} {g : Ghost n C D} {net : List (Rpc n C D)}
    (h : Coupled svc s g) (hsub : net.Sublist s.net) : Coupled svc { s with net := net } g where
  inv := h.inv
  node := h.node
  net := fun m hm => h.net m (hsub.subset hm)
  keys := h.keys.sublist (hsub.filterMap _)
  counted := by
    intro j hs
    obtain ⟨S, h₁, h₂, h₃, h₄⟩ := h.counted j hs
    exact ⟨S, h₁, h₂, h₃, fun v hv hm => h₄ v hv ((hsub.filterMap _).subset hm)⟩

/-- A message that belongs to no election is put on the network. -/
theorem Coupled.addNet {s : Cluster n C D} {g : Ghost n C D} {m : Rpc n C D}
    (h : Coupled svc s g) (hm : RpcOk svc g m) (hk : m.voteKey = none) :
    Coupled svc { s with net := m :: s.net } g := by
  have hkeys : voteKeys (m :: s.net) = voteKeys s.net := by simp [voteKeys, hk]
  refine ⟨h.inv, h.node, fun m' hm' => ?_, ?_, fun j hs => ?_⟩
  · rcases List.mem_cons.mp hm' with rfl | hm'
    · exact hm
    · exact h.net m' hm'
  · simpa only [hkeys] using h.keys
  · simpa only [hkeys] using h.counted j hs

/-- More snapshots may be handed over than was said. -/
theorem Coupled.produce {s : Cluster n C D} {g : Ghost n C D} {produced : Nat → D → Prop}
    (h : Coupled svc s g) (hle : ∀ i d, g.produced i d → produced i d) :
    Coupled svc s { g with produced := produced } := by
  have hg : g ≤ { g with produced := produced } := ⟨le_rfl, hle⟩
  refine ⟨h.inv, fun j => ?_, fun m hm => (h.net m hm).mono hg, h.keys, h.counted⟩
  have hn := h.node j
  have hd := hn.dur
  exact ⟨hn.self, hn.log, ⟨hd.term, hd.vote, hd.logs, hd.index, hd.lastTerm, hd.saves.mono hg,
    hd.volatile⟩, hn.role, hn.app.mono hg⟩

/-! ## Taking a message from the network -/

section Taken
variable {s : Cluster n C D} {g g' : Ghost n C D} {m : Rpc n C D} {rest : List (Rpc n C D)}

theorem perm_eraseIdx {k : Nat} (hk : s.net[k]? = some m) : (m :: s.net.eraseIdx k).Perm s.net := by
  obtain ⟨hlt, rfl⟩ := List.getElem?_eq_some_iff.mp hk
  exact List.getElem_cons_eraseIdx_perm hlt

/-- A candidate that stays one in the same election keeps its count. -/
theorem Counted.keep {me : Fin n} {p p' : Process n C D} {net net' : List (Rpc n C D)}
    (h : Counted g.core me p net) (he : g.core.Ext g'.core)
    (hc : p'.rf.state = .candidate → p.rf.state = .candidate ∧
      p'.rf.currentTerm = p.rf.currentTerm ∧ p'.grantedVotes = p.grantedVotes)
    (hk : ∀ x ∈ voteKeys net', x ∈ voteKeys net) : Counted g'.core me p' net' := by
  intro hs
  obtain ⟨hs', ht, hv⟩ := hc hs
  obtain ⟨S, h₁, h₂, h₃, h₄⟩ := h hs'
  rw [ht, hv]
  exact ⟨S, h₁, h₂, fun v hvS => he.ballot (h₃ v hvS), fun v hvS hm => h₄ v hvS (hk _ hm)⟩

/-- A server answers a request. -/
theorem Coupled.answered (h : Coupled svc s g) (hperm : (m :: rest).Perm s.net) {rf : Raft n C D}
    {reply : Payload n C D} (hmv : Moves m.server g g')
    (hp : NodeInv svc g' m.server { s.proc m.server with rf := rf })
    (hok : RpcOk svc g' { m with payload := reply })
    (hkey : Rpc.voteKey { m with payload := reply } = m.voteKey)
    (hc : rf.state = .candidate → (s.proc m.server).rf.state = .candidate ∧
      rf.currentTerm = (s.proc m.server).rf.currentTerm) :
    Coupled svc (s.handleRequest m rf reply rest) g' := by
  have hkeys : (voteKeys ({ m with payload := reply } :: rest)).Perm (voteKeys s.net) := by
    have : voteKeys ({ m with payload := reply } :: rest) = voteKeys (m :: rest) := by
      simp [voteKeys, List.filterMap_cons, hkey]
    rw [this]
    exact hperm.filterMap _
  refine h.set hmv.toEvolves hp ?_ (hkeys.nodup_iff.mpr h.keys) (fun x hx _ => hkeys.mem_iff.mp hx) ?_
  · intro m' hm'
    rcases List.mem_cons.mp hm' with rfl | hm'
    · exact hok
    · exact (h.net m' (hperm.subset (List.mem_cons_of_mem _ hm'))).mono hmv.le
  · refine (h.counted m.server).keep hmv.frame.ext (fun hs => ?_) (fun x hx => hkeys.mem_iff.mp hx)
    exact ⟨(hc hs).1, (hc hs).2, rfl⟩

/-- The keys of the network without one message are among its keys. -/
theorem voteKeys_rest (hperm : (m :: rest).Perm s.net) : ∀ x ∈ voteKeys rest, x ∈ voteKeys s.net := by
  intro x hx
  obtain ⟨m', hm', hk⟩ := List.mem_filterMap.mp hx
  exact List.mem_filterMap.mpr ⟨m', hperm.subset (List.mem_cons_of_mem _ hm'), hk⟩

theorem Coupled.keys_rest (h : Coupled svc s g) (hperm : (m :: rest).Perm s.net) :
    (voteKeys (m :: rest)).Nodup :=
  (hperm.filterMap Rpc.voteKey).nodup_iff.mpr h.keys

/-- A reply reaches its caller. -/
theorem Coupled.replied (h : Coupled svc s g) (hperm : (m :: rest).Perm s.net)
    {p : Process n C D} (hmv : Moves m.caller g g') (hp : NodeInv svc g' m.caller p)
    (hcount : Counted g'.core m.caller p rest) : Coupled svc (s.set m.caller p rest) g' := by
  refine h.set hmv.toEvolves hp ?_ ?_ (fun x hx _ => voteKeys_rest hperm x hx) hcount
  · intro m' hm'
    exact (h.net m' (hperm.subset (List.mem_cons_of_mem _ hm'))).mono hmv.le
  · exact (h.keys_rest hperm).sublist ((List.sublist_cons_self m rest).filterMap _)

/-- A message is lost. -/
theorem Coupled.lost (h : Coupled svc s g) {k : Nat} :
    Coupled svc { s with net := s.net.eraseIdx k } g :=
  h.setNet (List.eraseIdx_sublist _ _)

end Taken

end DistSys.Raft1
