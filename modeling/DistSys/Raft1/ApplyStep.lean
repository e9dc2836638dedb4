import DistSys.Raft1.SnapshotStep

/- Delivery: the applier, the channel to the service, and the service's `Snapshot`.

   The applier moves `lastApplied` before it sends, and `InstallSnapShot` may move
   it again while the send is blocked. What makes the sequence on `applyCh`
   gap-free is where the next message can come from: the one being sent follows
   the last one sent, and `lastApplied` is where it ends or where the pending
   snapshot ends (`Applying.next`).

   A service that takes these messages is always in the state after an agreed
   prefix, so the snapshots it hands over are snapshots of agreed prefixes. -/
namespace DistSys.Raft1

open Lib

variable {n : Nat} {C D : Type} {svc : Service C D} {s : Cluster n C D} {g : Ghost n C D}

/-! ## Sequences of messages -/

@[simp] theorem lastIndex_nil (b : Nat) : lastIndex b ([] : List (ApplyMsg C D)) = b := rfl

@[simp] theorem lastIndex_cons (b : Nat) (m : ApplyMsg C D) (ms : List (ApplyMsg C D)) :
    lastIndex b (m :: ms) = lastIndex m.at ms := rfl

@[simp] theorem lastIndex_append (b : Nat) (ms ms' : List (ApplyMsg C D)) :
    lastIndex b (ms ++ ms') = lastIndex (lastIndex b ms) ms' := by
  simp [lastIndex]

/-- The index of the last message that the service has taken, or where it booted. -/
def Process.position (p : Process n C D) : Nat := lastIndex p.bootIndex p.applyCh

theorem ApplyMsg.Follows.lt {last : Nat} {m : ApplyMsg C D} (h : m.Follows last) : last < m.at := by
  unfold ApplyMsg.Follows at h
  unfold ApplyMsg.at
  split at h
  · rename_i hc; rw [if_pos hc]; omega
  · rename_i hc; rw [if_neg hc]; exact h

theorem Gapless.append {b : Nat} {ms ms' : List (ApplyMsg C D)} :
    Gapless b (ms ++ ms') ↔ Gapless b ms ∧ Gapless (lastIndex b ms) ms' := by
  induction ms generalizing b with
  | nil => simp [Gapless]
  | cons m ms ih => simp [Gapless, ih, and_assoc]

theorem Gapless.le_last {b : Nat} {ms : List (ApplyMsg C D)} (h : Gapless b ms) :
    b ≤ lastIndex b ms := by
  induction ms generalizing b with
  | nil => exact le_rfl
  | cons m ms ih => exact h.1.lt.le.trans (ih h.2)

theorem Gapless.take {b : Nat} {ms : List (ApplyMsg C D)} (h : Gapless b ms) (k : Nat) :
    Gapless b (ms.take k) ∧ lastIndex b (ms.take k) ≤ lastIndex b ms := by
  rw [← List.take_append_drop k ms, Gapless.append] at h
  refine ⟨h.1, ?_⟩
  conv_rhs => rw [← List.take_append_drop k ms, lastIndex_append]
  exact h.2.le_last

/-! ## The applier -/

/-- With no snapshot pending and an index to apply, the applier sends the entry after
`lastApplied`: it is in the retained log, after the placeholder, and none of the fast-forward
branches is taken. -/
theorem LogInv.applier_next {c : Repl (Fin n) (Option C)} {me : Fin n} {rf : Raft n C D}
    (h : LogInv c me rf) (hp : rf.pendingSnapshot = none) (hlt : rf.lastApplied < rf.commitIndex) :
    ∃ e k, (c.log me)[rf.lastApplied]? = some e ∧ 1 ≤ k ∧
      rf.logs[k]? = some ⟨e.cmd, e.term, rf.lastApplied + 1⟩ ∧
      rf.applier = ({ rf with lastApplied := rf.lastApplied + 1 },
        some { commandValid := true, command := e.cmd, commandIndex := rf.lastApplied + 1 }) := by
  have hfirst := h.first_le
  have hcommit := h.commit_le
  have hidx : rf.lastApplied < (c.log me).length := by omega
  have he : (c.log me)[rf.lastApplied]? = some (c.log me)[rf.lastApplied] :=
    List.getElem?_eq_getElem hidx
  have hpos : rf.lastApplied + 1 - rf.lastIncludedIndex =
      (rf.lastApplied - rf.lastIncludedIndex) + 1 := by omega
  have hentry : rf.logs[rf.lastApplied + 1 - rf.lastIncludedIndex]? =
      some ⟨(c.log me)[rf.lastApplied].cmd, (c.log me)[rf.lastApplied].term, rf.lastApplied + 1⟩ := by
    rw [h.logs, hpos, compact_getElem?,
      show rf.lastIncludedIndex + (rf.lastApplied - rf.lastIncludedIndex) = rf.lastApplied by omega, he]
    simp only [Option.map_some, Option.some.injEq, LogEntry.mk.injEq, true_and]
    omega
  refine ⟨_, _, he, by omega, hentry, ?_⟩
  unfold Raft.applier
  simp only [hp, h.first, h.shows.length]
  rw [if_neg (by omega), if_neg (by omega), if_neg (by omega), if_neg (by omega),
    List.getD_eq_getElem?_getD, hentry]
  rfl

theorem Raft.applier_idle {rf : Raft n C D} (hp : rf.pendingSnapshot = none)
    (hle : rf.commitIndex ≤ rf.lastApplied) : rf.applier = (rf, none) := by
  unfold Raft.applier
  simp only [hp, if_pos hle]

theorem Raft.applier_snapshot {rf : Raft n C D} {m : ApplyMsg C D} (hp : rf.pendingSnapshot = some m) :
    rf.applier = ({ rf with pendingSnapshot := none }, some m) := by
  unfold Raft.applier
  rw [hp]

/-- A process that only moved its applier. -/
theorem NodeInv.applied {me : Fin n} {p : Process n C D} (h : NodeInv svc g me p) {a : Nat}
    {o : Option (ApplyMsg C D)} {p' : Process n C D}
    (hrf : p'.rf = { p.rf with lastApplied := a, pendingSnapshot := o })
    (hinc : p'.incarnation = p.incarnation) (h₁ : p.rf.lastApplied ≤ a) (h₂ : a ≤ p.rf.commitIndex)
    (happ : Applying svc g p') : NodeInv svc g me p' where
  self := by rw [hrf]; exact h.self
  log := by
    rw [hrf]
    exact ⟨h.log.logs, h.log.term, h.log.first_le.trans h₁, h₂, h.log.commit_le, h.log.cert⟩
  dur := by
    rw [hrf]
    exact ⟨h.dur.term, h.dur.vote, h.dur.logs, h.dur.index, h.dur.lastTerm, h.dur.saves,
      h.dur.volatile⟩
  role := by rw [hrf, hinc]; exact ⟨h.role.candidate, h.role.leader⟩
  app := happ

/-- A step of one process that leaves the protocol, its role and the network alone. -/
theorem Coupled.local (h : Coupled svc s g) {me : Fin n} {p : Process n C D}
    (hp : NodeInv svc g me p) (hs : p.rf.state = (s.proc me).rf.state)
    (ht : p.rf.currentTerm = (s.proc me).rf.currentTerm)
    (hv : p.grantedVotes = (s.proc me).grantedVotes) : Coupled svc (s.set me p s.net) g :=
  h.set (Moves.refl me g).toEvolves hp h.net h.keys (fun _ hx _ => hx)
    ((h.counted me).keep (Repl.Ext.refl _) (fun hc => ⟨hs ▸ hc, ht, hv⟩) (fun _ hx => hx))

theorem NodeInv.applier {me : Fin n} {p : Process n C D} (h : NodeInv svc g me p)
    (hsend : p.sending = none) :
    NodeInv svc g me { p with rf := p.rf.applier.1, sending := p.rf.applier.2 } ∧
      p.rf.applier.1.state = p.rf.state ∧ p.rf.applier.1.currentTerm = p.rf.currentTerm := by
  have hnext := h.app.next
  simp only [hsend] at hnext
  cases hp : p.rf.pendingSnapshot with
  | some m =>
    unfold Pending at hnext
    simp only [hp] at hnext
    obtain ⟨hc, -, hidx, hlt, hok⟩ := hnext
    have hat : m.at = p.rf.lastApplied := by unfold ApplyMsg.at; simp [hc, hidx]
    rw [Raft.applier_snapshot hp]
    refine ⟨h.applied rfl rfl le_rfl h.log.applied_le ⟨h.app.boot, h.app.order, h.app.content, ?_⟩,
      rfl, rfl⟩
    refine ⟨?_, hok, hat⟩
    unfold ApplyMsg.Follows
    simp only [hc, Bool.false_eq_true, if_false]
    omega
  | none =>
    unfold Pending at hnext
    simp only [hp] at hnext
    rcases Nat.lt_or_ge p.rf.lastApplied p.rf.commitIndex with hlt | hge
    · obtain ⟨e, k, he, -, -, heq⟩ := h.log.applier_next hp hlt
      rw [heq]
      refine ⟨h.applied (o := none) (by rw [hp]) rfl (Nat.le_succ _) hlt
        ⟨h.app.boot, h.app.order, h.app.content, ?_⟩, rfl, rfl⟩
      have hagreed : g.core.Agreed ((g.core.log me).take p.rf.lastApplied ++ [e]) := by
        refine h.log.cert.agreed.shorten ?_
        have htake : (g.core.log me).take (p.rf.lastApplied + 1) =
            (g.core.log me).take p.rf.lastApplied ++ [e] := by
          rw [List.take_add_one, he]
          rfl
        rw [← htake]
        exact List.take_prefix_take_left hlt
      refine ⟨?_, ⟨_, e, hagreed, ?_, rfl⟩, ?_⟩
      · simp only [ApplyMsg.Follows, if_true]
        rw [hnext]
      · have := h.log.commit_le
        simp only [List.length_take]
        omega
      · simp [Pending, hp, ApplyMsg.at]
    · rw [Raft.applier_idle hp hge]
      refine ⟨?_, rfl, rfl⟩
      have : p.sending = none := hsend
      rw [← this]
      exact h

theorem coupled_applier (h : Coupled svc s g) (me : Fin n) {t : Cluster n C D}
    (ht : s.exec (.applier me) = some t) : Coupled svc t g := by
  simp only [Cluster.exec] at ht
  split at ht
  · simp at ht
  · rename_i hsend
    obtain rfl := Option.some.inj ht
    obtain ⟨hn, hs, hterm⟩ := (h.node me).applier hsend
    exact h.local hn hs hterm rfl

theorem coupled_deliver (h : Coupled svc s g) (me : Fin n) {t : Cluster n C D}
    (ht : s.exec (.deliver me) = some t) : Coupled svc t g := by
  have hn := h.node me
  simp only [Cluster.exec] at ht
  split at ht
  · simp at ht
  · rename_i m hsend
    obtain rfl := Option.some.inj ht
    have hnext := hn.app.next
    simp only [hsend] at hnext
    obtain ⟨hf, hok, hpend⟩ := hnext
    refine h.local (hn.applied (o := (s.proc me).rf.pendingSnapshot) rfl rfl le_rfl hn.log.applied_le
      ⟨hn.app.boot, ?_, ?_, ?_⟩) rfl rfl rfl
    · exact Gapless.append.mpr ⟨hn.app.order, hf, trivial⟩
    · intro m' hm'
      rcases List.mem_append.mp hm' with hm' | hm'
      · exact hn.app.content m' hm'
      · obtain rfl : m' = m := by simpa using hm'
        exact hok
    · simpa using hpend

/-! ## The service -/

/-- An index and a state of the service that an agreed prefix explains. -/
def Explained (svc : Service C D) (g : Ghost n C D) (st : Nat × svc.State) : Prop :=
  ∃ q, g.core.Agreed q ∧ q.length = st.1 ∧ st.2 = svc.run (q.map Entry.cmd)

theorem Explained.boot {i : Nat} {o : Option D} (h : SnapFor svc g i o) :
    Explained svc g (i, svc.boot o) := by
  cases o with
  | none =>
    obtain rfl : i = 0 := h
    exact ⟨[], Repl.AgreedBy.nil (t := 0).agreed, rfl, rfl⟩
  | some d =>
    obtain ⟨-, q, hq, hlen, hst⟩ := h
    exact ⟨q, hq, hlen, hst⟩

/-- Taking a message that follows keeps the service on the agreed sequence. -/
theorem Explained.deliver (hi : g.core.Inv) {st : Nat × svc.State} (h : Explained svc g st)
    {m : ApplyMsg C D} (hf : m.Follows st.1) (hok : MsgOk svc g m) :
    Explained svc g (svc.deliver st m) := by
  unfold ApplyMsg.Follows at hf
  unfold MsgOk at hok
  unfold Service.deliver
  split at hf
  · rename_i hc
    rw [if_pos hc] at hok ⊢
    obtain ⟨q, hq, hlen, hst⟩ := h
    obtain ⟨q', e, hq', hlen', hcmd⟩ := hok
    obtain rfl : q = q' :=
      hq.eq_of_length hi (hq'.shorten (List.prefix_append _ _)) (by omega)
    refine ⟨q ++ [e], hq', by simpa using hlen', ?_⟩
    simp only [Service.run, List.map_append, List.map_cons, List.map_nil, List.foldl_append,
      List.foldl_cons, List.foldl_nil] at hst ⊢
    rw [hst, hcmd]
  · rename_i hc
    rw [if_neg hc] at hok ⊢
    exact Explained.boot hok

/-- The index a service is at is the one of the last message it took. -/
theorem deliver_fst (st : Nat × svc.State) (m : ApplyMsg C D) : (svc.deliver st m).1 = m.at := by
  unfold Service.deliver ApplyMsg.at
  split <;> rfl

theorem Explained.run (hi : g.core.Inv) {ms : List (ApplyMsg C D)} {st : Nat × svc.State}
    (h : Explained svc g st) (hg : Gapless st.1 ms) (hok : ∀ m ∈ ms, MsgOk svc g m) :
    Explained svc g (ms.foldl svc.deliver st) ∧
      (ms.foldl svc.deliver st).1 = lastIndex st.1 ms := by
  induction ms generalizing st with
  | nil => exact ⟨h, rfl⟩
  | cons m ms ih =>
    have h' := h.deliver hi hg.1 (hok m List.mem_cons_self)
    have hat := deliver_fst st m
    simp only [List.foldl_cons, lastIndex_cons]
    rw [← hat]
    exact ih h' (hat ▸ hg.2) (fun m' hm' => hok m' (List.mem_cons_of_mem _ hm'))

/-- At every point a service has taken a prefix of its messages, it is in the state after an agreed
prefix, at an index not beyond the last one. -/
theorem Applying.service (hi : g.core.Inv) {p : Process n C D} (h : Applying svc g p) (k : Nat) :
    Explained svc g (p.service svc k) ∧
      (p.service svc k).1 ≤ lastIndex p.bootIndex p.applyCh := by
  obtain ⟨hg, hle⟩ := h.order.take k
  have hrun := Explained.run hi (Explained.boot h.boot) hg
    (fun m hm => h.content m ((List.take_subset k p.applyCh) hm))
  unfold Process.service
  exact ⟨hrun.1, hrun.2.le.trans hle⟩

/-- With all its messages taken a service is at the last index. -/
theorem Applying.service_all (hi : g.core.Inv) {p : Process n C D} (h : Applying svc g p) :
    Explained svc g (p.service svc p.applyCh.length) ∧
      (p.service svc p.applyCh.length).1 = p.position := by
  unfold Process.service
  rw [List.take_length]
  exact Explained.run hi (Explained.boot h.boot) h.order h.content

/-- The index a service hands over a snapshot for is applied. -/
theorem NodeInv.produced_le {me : Fin n} {p : Process n C D} (h : NodeInv svc g me p)
    (hi : g.core.Inv) {index : Nat} {data : D} (hprod : Produced svc p index data) :
    index ≤ p.rf.lastApplied := by
  obtain ⟨k, -, hk⟩ := hprod
  have hle := (h.app.service hi k).2
  rw [hk] at hle
  exact hle.trans h.app.next_le

/-! ## Snapshot -/

/-- `Snapshot` compacts the log at an applied index. It saves the whole state, so a term that was
only in memory becomes durable with it. -/
theorem NodeInv.snapshot {me : Fin n} {p : Process n C D} (h : NodeInv svc g me p)
    (hi : g.core.Inv) {index : Nat} {data : D} (hprod : Produced svc p index data)
    (hg : g.produced index data) :
    ∃ g', Moves me g g' ∧ NodeInv svc g' me { p with rf := p.rf.snapshot index data } ∧
      (p.rf.snapshot index data).state = p.rf.state ∧
      (p.rf.snapshot index data).currentTerm = p.rf.currentTerm := by
  have hdel : index ≤ p.rf.lastApplied := h.produced_le hi hprod
  obtain ⟨k, -, hk⟩ := hprod
  obtain ⟨⟨q, hq, hlen, hst⟩, -⟩ := h.app.service hi k
  rw [hk] at hlen hst
  have hok : SnapOk svc g index data := ⟨hg, q, hq, hlen, hst⟩
  unfold Raft.snapshot
  simp only [h.log.first, h.log.latest.1]
  split
  · exact ⟨g, Moves.refl _ _, h, rfl, rfl⟩
  · rename_i hc
    obtain ⟨g₁, hmv, hsame, hu⟩ := h.unsaved hi
    obtain ⟨hc₁, hc₂⟩ : p.rf.lastIncludedIndex < index ∧ index ≤ (g₁.core.log me).length := by
      rw [hsame]
      constructor <;> omega
    obtain ⟨hterm, hidx⟩ := hu.log.shows.getD hc₁.le hc₂
    have hlogs := compact_advance (C := C) hc₁.le hc₂
    rw [← hu.log.logs] at hlogs
    simp only [Raft.persist, hlogs, hterm, hidx]
    refine ⟨g₁, hmv, ⟨h.self, ⟨rfl, rfl, hdel, h.log.applied_le, hu.log.commit_le, hu.log.cert⟩, ?_,
      ⟨hu.role.candidate, hu.role.leader⟩, hu.app.same le_rfl rfl rfl rfl rfl rfl rfl⟩, trivial, trivial⟩
    exact Durable.of_save rfl hu.term.symm hu.vote.symm (hu.saves.save (hok.mono hmv.le) rfl rfl)

theorem coupled_snapshot (h : Coupled svc s g) (me : Fin n) {index : Nat} {data : D}
    {t : Cluster n C D} (ht : s.exec (.snapshot me index data) = some t)
    (hprod : Produced svc (s.proc me) index data) (hg : g.produced index data) :
    ∃ g', Moves me g g' ∧ Coupled svc t g' := by
  simp only [Cluster.exec, Option.some.injEq] at ht
  subst ht
  obtain ⟨g', hmv, hn, hs, hterm⟩ := (h.node me).snapshot h.inv hprod hg
  refine ⟨g', hmv, h.set hmv.toEvolves hn (fun m hm => (h.net m hm).mono hmv.le) h.keys (fun _ hx _ => hx) ?_⟩
  exact (h.counted me).keep hmv.frame.ext (fun hc => ⟨hs ▸ hc, hterm, rfl⟩) (fun _ hx => hx)

end DistSys.Raft1
