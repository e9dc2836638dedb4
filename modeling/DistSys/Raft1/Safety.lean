import DistSys.Raft1.Simulation

/- Safety of the cluster over whole runs.

   All states of a run are coupled to protocol states that grow into the last
   one, so a fact found at one moment is compared with one found at another in
   that last state. What is proved:

     1. `election_safety`: one leader per term, and one incarnation of it.
     2. `log_matching`: retained logs that agree in the term of an index agree
        below it.
     3. `later_leaders_hold_committed`: what a leader commits is in the log, or
        under the snapshot, of every leader of a later term.
     4. `state_machine_safety`: one sequence of commands behind everything that
        is sent on `applyCh` or saved as a snapshot.
     5. `delivery_in_order`: what an incarnation sends is gap-free.
     6. `start_after_commit`: a command accepted after an index was committed
        commits after it. -/
namespace DistSys.Raft1

open Lib

variable {n : Nat} {C D : Type} {svc : Service C D} {s u v w : Cluster n C D}
  {tr : List (Cluster n C D × Action n C D)}

/-! ## Elections -/

/-- No two peers, and no two incarnations of one, ever lead the same term. -/
theorem election_safety (h : Run svc tr s) (hu : u ∈ visited tr s) (hv : v ∈ visited tr s)
    {a b : Fin n} (ha : (u.proc a).rf.state = .leader) (hb : (v.proc b).rf.state = .leader)
    (ht : (u.proc a).rf.currentTerm = (v.proc b).rf.currentTerm) :
    a = b ∧ (u.proc a).incarnation = (v.proc b).incarnation := by
  obtain ⟨g, -, -, hall⟩ := h.coupled
  obtain ⟨gu, hgu, hcu⟩ := hall u hu
  obtain ⟨gv, hgv, hcv⟩ := hall v hv
  have h₁ := hgu.1.leader ((hcu.node a).role.leader ha).1
  have h₂ := hgv.1.leader ((hcv.node b).role.leader hb).1
  rw [ht, h₂] at h₁
  obtain ⟨rfl, hinc⟩ : b = a ∧ (v.proc b).incarnation = (u.proc a).incarnation := by
    simpa using h₁
  exact ⟨rfl, hinc.symm⟩

/-- Peer 0 leads term 1 when elected and after storing a command, in the same incarnation. -/
theorem election_safety_sample :
    ((sampleAt electing).proc 0).rf.state = .leader ∧
      ((sampleAt electing).proc 0).incarnation =
        ((sampleAt (electing ++ storing)).proc 0).incarnation :=
  ⟨by decide, (election_safety (sample_run (electing ++ storing) (by decide))
    (sampleStart.after_mem_visited electing storing)
    (sampleStart.after_mem_visited (electing ++ storing) [])
    (a := 0) (b := 0) (by decide) (by decide) (by decide)).2⟩

/-! ## Logs -/

/-- An entry that a coupled peer retains, in its whole log. -/
theorem NodeInv.mem_logs {g : Ghost n C D} {me : Fin n} {p : Process n C D}
    (h : NodeInv svc g me p) {e : LogEntry C} (he : e ∈ p.rf.logs) :
    p.rf.getFirstLog.index ≤ e.index ∧ e.index ≤ (g.core.log me).length ∧
      e.term = termAt (g.core.log me) e.index ∧ (p.rf.getFirstLog.index < e.index →
        ∃ x, (g.core.log me)[e.index - 1]? = some x ∧ e.command = x.cmd ∧ e.term = x.term) := by
  rw [h.log.logs] at he
  rw [h.log.first]
  exact mem_compact h.log.first_len he

/-- Peers whose whole logs are the same up to an index retain the same entries up to it. -/
theorem NodeInv.agrees {g g' : Ghost n C D} {a b : Fin n} {p p' : Process n C D}
    (h : NodeInv svc g a p) (h' : NodeInv svc g' b p') {i : Nat}
    (hsame : (g.core.log a).take i = (g'.core.log b).take i) {e f : LogEntry C} (he : e ∈ p.rf.logs)
    (hf : f ∈ p'.rf.logs) (hidx : e.index = f.index) (hle : e.index ≤ i) :
    e.term = f.term ∧ (p.rf.getFirstLog.index < e.index → p'.rf.getFirstLog.index < f.index →
      e.command = f.command) := by
  obtain ⟨-, -, hte, hcmd⟩ := h.mem_logs he
  obtain ⟨-, -, htf, hcmd'⟩ := h'.mem_logs hf
  refine ⟨?_, fun h₁ h₂ => ?_⟩
  · rw [hte, htf, ← hidx, ← termAt_take hle, hsame, termAt_take hle]
  · obtain ⟨x, hx, hxe, -⟩ := hcmd h₁
    obtain ⟨y, hy, hyf, -⟩ := hcmd' h₂
    have hpos : e.index - 1 < i := by omega
    rw [← List.getElem?_take_of_lt hpos, hsame, List.getElem?_take_of_lt hpos, hidx, hy] at hx
    obtain rfl := Option.some.inj hx
    rw [hxe, hyf]

/-- Two retained logs with the same term at an index have the same terms below it, and the same
commands where neither has compacted them. In particular an index and a term name one command in
the whole run. -/
theorem log_matching (h : Run svc tr s) (hu : u ∈ visited tr s) (hv : v ∈ visited tr s)
    {a b : Fin n} {e f : LogEntry C} (he : e ∈ (u.proc a).rf.logs) (hf : f ∈ (v.proc b).rf.logs)
    (hidx : e.index = f.index) (hterm : e.term = f.term) :
    ∀ e' ∈ (u.proc a).rf.logs, ∀ f' ∈ (v.proc b).rf.logs, e'.index = f'.index →
      e'.index ≤ e.index → e'.term = f'.term ∧
        ((u.proc a).rf.getFirstLog.index < e'.index → (v.proc b).rf.getFirstLog.index < f'.index →
          e'.command = f'.command) := by
  obtain ⟨g, -, -, hall⟩ := h.coupled
  obtain ⟨gu, hgu, hcu⟩ := hall u hu
  obtain ⟨gv, hgv, hcv⟩ := hall v hv
  obtain ⟨-, hle, hte, -⟩ := (hcu.node a).mem_logs he
  obtain ⟨-, hlf, htf, -⟩ := (hcv.node b).mem_logs hf
  -- both whole logs come from the logs of the same leaders
  have hmatch : (gu.core.log a).take e.index = (gv.core.log b).take e.index := by
    refine ((hcu.inv.log_src a).ext hgu.1).matching ((hcv.inv.log_src b).ext hgv.1) hle
      (hidx ▸ hlf) ?_
    rw [← hte, hterm, htf, hidx]
  intro e' he' f' hf' hidx' hle'
  exact (hcu.node a).agrees (hcv.node b) hmatch he' hf' hidx' hle'

/-- Both peers hold an entry of index 1 and term 1, so they hold the same command there. -/
theorem log_matching_sample :
    (((sampleAt (electing ++ storing)).proc 0).rf.logs.getD 1 default).command =
      (((sampleAt (electing ++ storing)).proc 1).rf.logs.getD 1 default).command :=
  (log_matching (sample_run (electing ++ storing) (by decide))
    (sampleStart.after_mem_visited (electing ++ storing) [])
    (sampleStart.after_mem_visited (electing ++ storing) [])
    (a := 0) (b := 1) (e := ((sampleAt (electing ++ storing)).proc 0).rf.logs.getD 1 default)
    (f := ((sampleAt (electing ++ storing)).proc 1).rf.logs.getD 1 default)
    (by decide) (by decide) (by decide) (by decide) _ (by decide) _ (by decide) (by decide)
    (by decide)).2 (by decide) (by decide)

/-! ## Committed entries and later leaders -/

/-- In `v` the leader `a` can process an append reply that makes `acceptNewLogEntries` raise its
commit index, to `i` or beyond. -/
def RaisesCommit (v : Cluster n C D) (a : Fin n) (i : Nat) : Prop :=
  ∃ m ∈ v.net, ∃ args reply, m.caller = a ∧ m.incarnation = (v.proc a).incarnation ∧
    m.payload = .appendRep args reply ∧ reply.success = true ∧
    (v.proc a).rf.isValidLeader args.term = true ∧
    (v.proc a).rf.commitIndex < ((v.proc a).rf.acceptNewLogEntries m.server args).commitIndex ∧
    i ≤ ((v.proc a).rf.acceptNewLogEntries m.server args).commitIndex

/-- What `acceptNewLogEntries` raises the commit index to is committed in the term of the leader. -/
theorem NodeInv.raised_committed {g : Ghost n C D} {me peer : Fin n} {p : Process n C D}
    (h : NodeInv svc g me p) (hi : g.core.Inv) (hs : p.rf.state = .leader)
    {args : AppendEntryArgs n C}
    (hle : args.prevLogIndex + args.entries.length ≤ g.core.acked peer p.rf.currentTerm)
    (hlt : p.rf.commitIndex < (p.rf.acceptNewLogEntries peer args).commitIndex) :
    g.core.Committed p.rf.currentTerm (p.rf.acceptNewLogEntries peer args).commitIndex := by
  have h' := h.updateLogIndices hle
  obtain ⟨v, hv, heq⟩ := acceptNewLogEntries_selects p.rf peer args
  rw [heq] at hlt ⊢
  split at hlt
  · rename_i hc
    rw [if_pos hc]
    exact (h'.selected hi hs ((hv v).mpr le_rfl) hc.2).2
  · exact absurd hlt (lt_irrefl _)

/-- A reply with which a leader raises its commit index. -/
theorem Coupled.reply_raises {gv : Ghost n C D} (hc : Coupled svc v gv) {m : Rpc n C D} (hm : m ∈ v.net)
    {args : AppendEntryArgs n C} {reply : AppendEntryReply} (hpay : m.payload = .appendRep args reply)
    (hsucc : reply.success = true) (hvalid : (v.proc m.caller).rf.isValidLeader args.term = true)
    (hlt : (v.proc m.caller).rf.commitIndex <
      ((v.proc m.caller).rf.acceptNewLogEntries m.server args).commitIndex) :
    (v.proc m.caller).rf.state = .leader ∧ gv.core.Committed (v.proc m.caller).rf.currentTerm
      ((v.proc m.caller).rf.acceptNewLogEntries m.server args).commitIndex := by
  obtain ⟨hs, hterm⟩ : (v.proc m.caller).rf.state = .leader ∧
      (v.proc m.caller).rf.currentTerm = args.term := by
    simpa [Raft.isValidLeader] using hvalid
  have hok := hc.net m hm
  unfold RpcOk at hok
  simp only [hpay] at hok
  have hle := hok.2 hsucc
  rw [← hterm] at hle
  exact ⟨hs, (hc.node m.caller).raised_committed hc.inv hs hle hlt⟩

/-- The log of a leader in the state it leads starts with everything committed in earlier terms,
also by commits found later in the run. -/
theorem Coupled.leader_holds {gw g : Ghost n C D} (hc : Coupled svc w gw) (hg : gw ≤ g)
    (hi : g.core.Inv) {b : Fin n} (hb : (w.proc b).rf.state = .leader) {T N : Nat}
    (hcomm : g.core.Committed T N) (hT : T < (w.proc b).rf.currentTerm) :
    (g.core.llog T).take N <+: gw.core.log b := by
  obtain ⟨hl, -, hlog⟩ := (hc.node b).leads hc.inv hb
  obtain ⟨K, -, hK, hpre, -⟩ := hc.inv.led_camp hl
  rw [hlog]
  exact (Repl.leader_completeness hi hcomm _ hT (hg.1.leader hl) (hg.1.camp hK)).trans hpre

theorem mem_compact_of_lt {ℓ : List (Entry (Option C))} {b i : Nat} {x : Entry (Option C)}
    (hlt : b < i) (hx : ℓ[i - 1]? = some x) : (⟨x.cmd, x.term, i⟩ : LogEntry C) ∈ compact ℓ b := by
  refine List.mem_iff_getElem?.mpr ⟨(i - 1 - b) + 1, ?_⟩
  rw [compact_getElem?, show b + (i - 1 - b) = i - 1 by omega, hx]
  simp only [Option.map_some, Option.some.injEq, LogEntry.mk.injEq, true_and]
  omega

/-- An entry of a peer's whole log is retained, or a snapshot of the peer covers it. -/
theorem NodeInv.retained_or_covered {g : Ghost n C D} {b : Fin n} {p : Process n C D}
    (h : NodeInv svc g b p) (hi : g.core.Inv) {i : Nat} (hpos : 1 ≤ i) {x : Entry (Option C)}
    (hx : (g.core.log b)[i - 1]? = some x) :
    (p.rf.getFirstLog.index < i ∧ (⟨x.cmd, x.term, i⟩ : LogEntry C) ∈ p.rf.logs) ∨
    (i ≤ p.rf.getFirstLog.index ∧ ∃ d cmds, p.rf.persister.readSnapshot = some d ∧
      cmds.length = p.rf.getFirstLog.index ∧ svc.restore d = svc.run cmds ∧
      cmds[i - 1]? = some x.cmd) := by
  have hfirst : p.rf.getFirstLog.index = p.rf.lastIncludedIndex := by rw [h.log.first]
  rw [hfirst]
  rcases Nat.lt_or_ge p.rf.lastIncludedIndex i with hlow | hhigh
  · left
    refine ⟨hlow, ?_⟩
    rw [h.log.logs]
    exact mem_compact_of_lt hlow hx
  · right
    have hsnap := h.dur.saves.snap
    cases hd : p.rf.persister.readSnapshot with
    | none =>
      rw [hd] at hsnap
      have : p.rf.lastIncludedIndex = 0 := hsnap
      omega
    | some d =>
      rw [hd] at hsnap
      obtain ⟨-, q, hq, hqlen, hrestore⟩ := hsnap
      refine ⟨hhigh, d, q.map Entry.cmd, rfl, by simpa using hqlen, hrestore, ?_⟩
      -- the snapshot's prefix is agreed, so it is the beginning of the log
      obtain ⟨r, hr⟩ := h.covers hi hq (by
        have := h.log.first_le
        have := h.log.applied_le
        omega)
      rw [← hr, List.getElem?_append_left (by omega)] at hx
      rw [List.getElem?_map, hx]
      rfl

/-- If the leader of a term commits an entry, every node that is ever leader of a later term has
the entry in its retained log, or has a snapshot that covers it. -/
theorem later_leaders_hold_committed (h : Run svc tr s) (hv : v ∈ visited tr s) {a : Fin n} {i : Nat}
    (hraise : RaisesCommit v a i) (hpos : 1 ≤ i) {e : LogEntry C} (he : e ∈ (v.proc a).rf.logs)
    (hidx : e.index = i) (hw : w ∈ visited tr s) {b : Fin n} (hb : (w.proc b).rf.state = .leader)
    (hT : (v.proc a).rf.currentTerm < (w.proc b).rf.currentTerm) :
    ((w.proc b).rf.getFirstLog.index < i ∧ ∃ f ∈ (w.proc b).rf.logs, f.index = i ∧
      f.term = e.term ∧ ((v.proc a).rf.getFirstLog.index < i → f.command = e.command)) ∨
    (i ≤ (w.proc b).rf.getFirstLog.index ∧ ∃ d cmds,
      (w.proc b).rf.persister.readSnapshot = some d ∧
      cmds.length = (w.proc b).rf.getFirstLog.index ∧ svc.restore d = svc.run cmds ∧
      ((v.proc a).rf.getFirstLog.index < i → cmds[i - 1]? = some e.command)) := by
  obtain ⟨g, -, hcg, hall⟩ := h.coupled
  obtain ⟨gv, hgv, hcv⟩ := hall v hv
  obtain ⟨gw, hgw, hcw⟩ := hall w hw
  have hnv := hcv.node a
  obtain ⟨m, hm, args, reply, rfl, -, hpay, hsucc, hvalid, hlt, hile⟩ := hraise
  obtain ⟨hs, hcomm⟩ := hcv.reply_raises hm hpay hsucc hvalid hlt
  obtain ⟨-, -, hlog⟩ := hnv.leads hcv.inv hs
  -- the entry in the leader's whole log, and so in the later leader's
  obtain ⟨-, hilen, het, hecmd⟩ := hnv.mem_logs he
  rw [hidx] at hilen het hecmd
  obtain ⟨x, -, hx, hxt⟩ := exists_entry hpos hilen
  have hxw : (gw.core.log b)[i - 1]? = some x := by
    have hpre := hcw.leader_holds hgw hcg.inv hb (hcomm.ext hgv.1) hT
    rw [Repl.take_ext hcomm.le hgv.1, ← hlog] at hpre
    obtain ⟨r, hr⟩ := hpre
    rw [← hr, List.getElem?_append_left (by rw [List.length_take]; omega),
      List.getElem?_take_of_lt (by omega)]
    exact hx
  have hcmd : (v.proc m.caller).rf.getFirstLog.index < i → e.command = x.cmd := by
    intro hfirst
    obtain ⟨y, hy, hyc, -⟩ := hecmd hfirst
    rw [hx] at hy
    obtain rfl := Option.some.inj hy
    exact hyc
  rcases (hcw.node b).retained_or_covered hcw.inv hpos hxw with
    ⟨hlow, hmem⟩ | ⟨hhigh, d, cmds, hd, hlen, hrestore, hat⟩
  · left
    exact ⟨hlow, _, hmem, rfl, by rw [het, hxt], fun hf => (hcmd hf).symm⟩
  · right
    refine ⟨hhigh, d, cmds, hd, hlen, hrestore, fun hf => ?_⟩
    rw [hat, hcmd hf]

/-- The command that peer 0 commits in term 1 is in the log of peer 1 when that leads term 2. -/
theorem later_leaders_hold_committed_sample :
    ∃ f ∈ ((sampleAt (electing ++ storing ++ (committing ++ succeeding))).proc 1).rf.logs,
      f.index = 1 ∧ f.term = 1 ∧ f.command = some 7 := by
  have hrun := sample_run (electing ++ storing ++ (committing ++ succeeding)) (by decide)
  have hraise : RaisesCommit (sampleAt (electing ++ storing)) 0 1 :=
    ⟨⟨0, 0, 1, .appendRep ⟨1, 0, 0, 0, [⟨some 7, 1, 1⟩], 0⟩ { term := 1, success := true }⟩,
      List.mem_of_getElem? (i := 0) rfl, _, _, rfl, rfl, rfl, rfl, by decide, by decide, by decide⟩
  rcases later_leaders_hold_committed hrun
    (sampleStart.after_mem_visited (electing ++ storing) (committing ++ succeeding)) hraise le_rfl
    (e := ⟨some 7, 1, 1⟩) (by decide) rfl
    (sampleStart.after_mem_visited (electing ++ storing ++ (committing ++ succeeding)) [])
    (b := 1) (by decide) (by decide) with ⟨-, f, hf, h₁, h₂, h₃⟩ | ⟨hle, -⟩
  · exact ⟨f, hf, h₁, h₂, h₃ (by decide)⟩
  · exact absurd hle (by decide)

/-! ## One sequence of commands -/

/-- The message is sent on `applyCh`: the send went through or is under way. -/
def Process.Sends (p : Process n C D) (m : ApplyMsg C D) : Prop := m ∈ p.applyCh ∨ p.sending = some m

/-- In the run a service calls `Snapshot` with `d` for index `i`, and `d` restores the state it
had there. -/
def SnapshotCalled (svc : Service C D) (tr : List (Cluster n C D × Action n C D)) (i : Nat) (d : D) :
    Prop :=
  ∃ x ∈ tr, ∃ me, Produced svc (x.1.proc me) i d ∧ (x.2 = .event (.snapshot me i d) ∨
    ∃ me' k, x.2 = .crashIn me' (.snapshot me i d) k)

/-- `d` is a snapshot of the first `i` of the commands, taken by a service in the run. -/
structure SnapshotOf (svc : Service C D) (tr : List (Cluster n C D × Action n C D))
    (cmds : List (Option C)) (i : Nat) (d : D) : Prop where
  le : i ≤ cmds.length
  state : svc.restore d = svc.run (cmds.take i)
  called : SnapshotCalled svc tr i d

theorem Run.allowed (h : Run svc tr s) {x : Cluster n C D × Action n C D} (hx : x ∈ tr) :
    x.2.Allowed svc x.1 := by
  obtain ⟨tr₁, tr₂, rfl⟩ := List.append_of_mem hx
  obtain ⟨-, w, hw, -⟩ := Lts.Run.split h
  exact hw.1

theorem Run.snapshotCalled (h : Run svc tr s) {i : Nat} {d : D} (hd : HandedOver tr i d) :
    SnapshotCalled svc tr i d := by
  obtain ⟨⟨u, a⟩, hx, hs⟩ := hd
  have hallowed := h.allowed hx
  cases a with
  | event e =>
    cases e with
    | snapshot me i' d' =>
      obtain ⟨rfl, rfl⟩ := hs
      exact ⟨_, hx, me, hallowed, Or.inl rfl⟩
    | _ => exact hs.elim
  | crash me => exact hs.elim
  | crashIn me' e k =>
    cases e with
    | snapshot me i' d' =>
      obtain ⟨rfl, rfl⟩ := hs
      exact ⟨_, hx, me, hallowed, Or.inr ⟨me', k, rfl⟩⟩
    | _ => exact hs.elim

/-- An agreed prefix is the beginning of the agreed sequence, as commands. -/
theorem agreed_take {ℓ q : List (Entry (Option C))} (h : q <+: ℓ) :
    q.length ≤ (ℓ.map Entry.cmd).length ∧
      q.map Entry.cmd = (ℓ.map Entry.cmd).take q.length := by
  obtain ⟨r, rfl⟩ := h
  simp

theorem SnapOk.snapshotOf (h : Run svc tr s) {g : Ghost n C D} (hp : g.produced = HandedOver tr)
    {ℓ : List (Entry (Option C))} (hℓ : ∀ q, g.core.Agreed q → q <+: ℓ) {i : Nat} {d : D}
    (hs : SnapOk svc g i d) : SnapshotOf svc tr (ℓ.map Entry.cmd) i d := by
  obtain ⟨hprod, q, hq, rfl, hst⟩ := hs
  obtain ⟨hle, htake⟩ := agreed_take (hℓ q hq)
  exact ⟨hle, by rw [hst, htake], h.snapshotCalled (hp ▸ hprod)⟩

/-- Every message sent is one that the agreed sequence explains. -/
theorem Applying.sent {g : Ghost n C D} {p : Process n C D} (h : Applying svc g p)
    {m : ApplyMsg C D} (hm : p.Sends m) : MsgOk svc g m ∧ ∃ last, m.Follows last := by
  rcases hm with hm | hm
  · refine ⟨h.content m hm, ?_⟩
    obtain ⟨l₁, l₂, heq⟩ := List.append_of_mem hm
    have horder := h.order
    rw [heq, Gapless.append] at horder
    exact ⟨_, horder.2.1⟩
  · have hnext := h.next
    rw [hm] at hnext
    exact ⟨hnext.2.1, _, hnext.1⟩

/-- One sequence of commands is behind everything the services of all nodes and incarnations
receive: a command sent for an index is the one at that index of the sequence, so two commands sent
for one index are equal, and a snapshot sent or saved for an index is one that a service took after
exactly the commands up to it. -/
theorem state_machine_safety (h : Run svc tr s) :
    (∀ u ∈ visited tr s, ∀ v ∈ visited tr s, ∀ a b : Fin n, ∀ m m', (u.proc a).Sends m →
      (v.proc b).Sends m' → m.commandValid = true → m'.commandValid = true →
      m.commandIndex = m'.commandIndex → m.command = m'.command) ∧
    ∃ cmds : List (Option C), ∀ u ∈ visited tr s, ∀ a : Fin n,
      (∀ m, (u.proc a).Sends m → m.commandValid = true →
        1 ≤ m.commandIndex ∧ cmds[m.commandIndex - 1]? = some m.command) ∧
      (∀ m, (u.proc a).Sends m → m.commandValid = false →
        ∃ d, m.snapshot = some d ∧ SnapshotOf svc tr cmds m.snapshotIndex d) ∧
      (∀ sv ∈ (u.proc a).rf.persister.saves, ∀ d, sv.2 = some d →
        SnapshotOf svc tr cmds sv.1.lastIncludedIndex d) := by
  obtain ⟨g, hprod, hc, hall⟩ := h.coupled
  obtain ⟨ℓ, -, hℓ⟩ := Repl.exists_longest_agreed hc.inv
  have hcommand : ∀ u ∈ visited tr s, ∀ a : Fin n, ∀ m, (u.proc a).Sends m →
      m.commandValid = true →
      1 ≤ m.commandIndex ∧ (ℓ.map Entry.cmd)[m.commandIndex - 1]? = some m.command := by
    intro u hu a m hm hcv
    obtain ⟨gu, hgu, hcu⟩ := hall u hu
    have hok := ((hcu.node a).app.sent hm).1.mono hgu
    rw [MsgOk, if_pos hcv] at hok
    obtain ⟨q, e, hq, hlen, hcmd⟩ := hok
    obtain ⟨r, hr⟩ := hℓ _ hq
    refine ⟨by omega, ?_⟩
    rw [← hr, ← hlen, ← hcmd]
    simp
  refine ⟨?_, ℓ.map Entry.cmd, fun u hu a => ⟨hcommand u hu a, ?_, ?_⟩⟩
  · intro u hu v hv a b m m' hm hm' hcv hcv' hidx
    have h₁ := (hcommand u hu a m hm hcv).2
    have h₂ := (hcommand v hv b m' hm' hcv').2
    rw [hidx, h₂] at h₁
    exact (Option.some.inj h₁).symm
  · intro m hm hcv
    obtain ⟨gu, hgu, hcu⟩ := hall u hu
    obtain ⟨hok, last, hlast⟩ := (hcu.node a).app.sent hm
    have hok := hok.mono hgu
    simp only [MsgOk, hcv, Bool.false_eq_true, if_false] at hok
    simp only [ApplyMsg.Follows, hcv, Bool.false_eq_true, if_false] at hlast
    cases hd : m.snapshot with
    | none =>
      rw [hd] at hok
      have : m.snapshotIndex = 0 := hok
      omega
    | some d =>
      rw [hd] at hok
      exact ⟨d, rfl, SnapOk.snapshotOf h hprod hℓ hok⟩
  · intro sv hsv d hd
    obtain ⟨gu, hgu, hcu⟩ := hall u hu
    have hok := ((hcu.node a).dur.saves.all sv hsv).2.mono hgu
    rw [hd] at hok
    exact SnapOk.snapshotOf h hprod hℓ hok

/-- Peer 0 delivers the command, and its service takes a snapshot there. -/
theorem state_machine_safety_sample : ∃ cmds : List (Option Nat), cmds[0]? = some (some 7) ∧
    SnapshotOf logService
      (sampleStart.traceOf (electing ++ storing ++ committing) ++
        [(sampleAt (electing ++ storing ++ committing), .event (.snapshot 0 1 [some 7]))])
      cmds 1 [some 7] := by
  have hrun := (sample_run (electing ++ storing ++ committing) (by decide)).step
    (a := .event (.snapshot 0 1 [some 7])) ⟨1, by decide, rfl⟩ rfl
  obtain ⟨-, cmds, hall⟩ := state_machine_safety hrun
  obtain ⟨hcmd, -, hsave⟩ := hall _ (List.mem_append_right _ (List.mem_singleton_self _)) 0
  refine ⟨cmds, ?_, ?_⟩
  · exact (hcmd { commandValid := true, command := some 7, commandIndex := 1 }
      (Or.inl (by decide)) rfl).2
  · exact hsave (⟨1, some 0, [⟨none, 1, 1⟩], 1, 1⟩, some [some 7]) (by decide) _ rfl

/-! ## Delivery -/

theorem Gapless.pairwise {b : Nat} {ms : List (ApplyMsg C D)} (h : Gapless b ms) :
    (∀ m ∈ ms, b < m.at) ∧ ms.Pairwise (fun m m' => m.at < m'.at) := by
  induction ms generalizing b with
  | nil => simp
  | cons m ms ih =>
    obtain ⟨hrest, hpair⟩ := ih h.2
    refine ⟨?_, List.pairwise_cons.mpr ⟨hrest, hpair⟩⟩
    intro m' hm'
    rcases List.mem_cons.mp hm' with rfl | hm'
    · exact h.1.lt
    · exact h.1.lt.trans (hrest m' hm')

/-- Also with the message under way there is no gap. -/
theorem Applying.gapless {g : Ghost n C D} {p : Process n C D} (h : Applying svc g p) :
    Gapless p.bootIndex (p.applyCh ++ p.sending.toList) := by
  refine Gapless.append.mpr ⟨h.order, ?_⟩
  have hnext := h.next
  cases hs : p.sending with
  | none => trivial
  | some m =>
    rw [hs] at hnext
    exact ⟨hnext.1, trivial⟩

theorem Pending.commandValid {g : Ghost n C D} {rf : Raft n C D} {y : Nat} (h : Pending svc g rf y)
    {m : ApplyMsg C D} (hm : rf.pendingSnapshot = some m) : m.commandValid = false := by
  unfold Pending at h
  simp only [hm] at h
  exact h.1

/-- A snapshot that waits for the applier is no command. -/
theorem Applying.pending_commandValid {g : Ghost n C D} {p : Process n C D} (h : Applying svc g p)
    {m : ApplyMsg C D} (hm : p.rf.pendingSnapshot = some m) : m.commandValid = false := by
  have hnext := h.next
  split at hnext
  · exact hnext.commandValid hm
  · exact hnext.2.2.commandValid hm

/-- What an incarnation sends on `applyCh`, with the message under way, starts after the index it
restarted from and has no gap: a command is for the index after the message before it, a snapshot
for a later one than any before. What the applier picks next is an entry of the log after the
placeholder, and it never moves without sending. -/
theorem delivery_in_order (h : Run svc tr s) (hu : u ∈ visited tr s) (a : Fin n) :
    Gapless (u.proc a).bootIndex ((u.proc a).applyCh ++ (u.proc a).sending.toList) ∧
    ((u.proc a).applyCh ++ (u.proc a).sending.toList).Pairwise (fun m m' => m.at < m'.at) ∧
    (∀ m, (u.proc a).rf.applier.2 = some m → m.commandValid = true → ∃ k e, 1 ≤ k ∧
      (u.proc a).rf.logs[k]? = some e ∧ m.commandIndex = e.index ∧ m.command = e.command ∧
      (u.proc a).rf.getFirstLog.index < e.index) ∧
    ((u.proc a).rf.applier.2 = none → (u.proc a).rf.applier.1 = (u.proc a).rf) := by
  obtain ⟨g, -, -, hall⟩ := h.coupled
  obtain ⟨gu, -, hcu⟩ := hall u hu
  have hn := hcu.node a
  refine ⟨hn.app.gapless, hn.app.gapless.pairwise.2, ?_⟩
  cases hp : (u.proc a).rf.pendingSnapshot with
  | some m =>
    rw [Raft.applier_snapshot hp]
    refine ⟨fun m' hm' hcv => ?_, fun hnone => by simp at hnone⟩
    obtain rfl := Option.some.inj hm'
    rw [hn.app.pending_commandValid hp] at hcv
    simp at hcv
  | none =>
    rcases Nat.lt_or_ge (u.proc a).rf.lastApplied (u.proc a).rf.commitIndex with hlt | hge
    · obtain ⟨e, k, -, hk, hentry, heq⟩ := hn.log.applier_next hp hlt
      rw [heq]
      refine ⟨fun m' hm' _ => ?_, fun hnone => by simp at hnone⟩
      obtain rfl := Option.some.inj hm'
      refine ⟨k, _, hk, hentry, rfl, rfl, ?_⟩
      rw [hn.log.first]
      exact Nat.lt_succ_of_le hn.log.first_le
    · rw [Raft.applier_idle hp hge]
      exact ⟨fun m' hm' => by simp at hm', fun _ => rfl⟩

/-- Peer 0 has delivered the command and its applier has nothing more to do. -/
theorem delivery_in_order_sample :
    Gapless 0 [({ commandValid := true, command := some 7, commandIndex := 1 } :
      ApplyMsg Nat (List (Option Nat)))] ∧
    ((sampleAt (electing ++ storing ++ committing)).proc 0).rf.applier.1 =
      ((sampleAt (electing ++ storing ++ committing)).proc 0).rf := by
  obtain ⟨h₁, -, -, h₂⟩ :=
    delivery_in_order (sample_run (electing ++ storing ++ committing) (by decide))
      (sampleStart.after_mem_visited (electing ++ storing ++ committing) []) 0
  exact ⟨h₁, h₂ (by decide)⟩

/-! ## Real time -/

/-- What `Start` returns is right after the log of the leader of its term. -/
theorem NodeInv.start_returns {g : Ghost n C D} {b : Fin n} {p : Process n C D} (h : NodeInv svc g b p)
    (hi : g.core.Inv) {command : Option C} {j t : Nat} (hstart : (p.rf.start command).2 = some (j, t)) :
    j = (g.core.llog t).length + 1 := by
  unfold Raft.start at hstart
  split at hstart
  · simp at hstart
  · rename_i hs
    obtain ⟨-, -, hlog⟩ := h.leads hi (not_not.mp hs)
    simp only [h.log.latest.1, Option.some.injEq, Prod.mk.injEq] at hstart
    obtain ⟨rfl, rfl⟩ := hstart
    rw [hlog]
    rfl

/-- Once some node's commit index has reached `i`, an index and term that a later `Start` returns
can only be committed above `i`. -/
theorem start_after_commit {tr₁ tr₂ : List (Cluster n C D × Action n C D)} {b : Fin n}
    {command : Option C} (h : Run svc (tr₁ ++ (v, .event (.start b command)) :: tr₂) s)
    (hu : u ∈ visited tr₁ v) {a : Fin n} {i j t : Nat} (hi : i ≤ (u.proc a).rf.commitIndex)
    (hstart : ((v.proc b).rf.start command).2 = some (j, t))
    (hw : w ∈ visited (tr₁ ++ (v, .event (.start b command)) :: tr₂) s) {c : Fin n} {f : LogEntry C}
    (hcommit : j ≤ (w.proc c).rf.commitIndex) (hf : f ∈ (w.proc c).rf.logs) (hidx : f.index = j)
    (hterm : f.term = t) : i < j := by
  -- the protocol states of `u`, `v` and `w`, all below the last one
  obtain ⟨hrun₁, x, hstep, hrun₂⟩ := Lts.Run.split h
  obtain ⟨gv, -, hprod, hcv, hall₁⟩ := (coupled_initial (fun _ _ => True)).along hrun₁
    (fun _ _ _ _ _ => trivial)
  obtain ⟨g, hgv, -, hcg, hall₂⟩ := hcv.along ((Lts.Run.single hstep).append hrun₂)
    (fun _ _ _ _ _ => by rw [hprod]; trivial)
  obtain ⟨gu, -, hguv, hcu⟩ := hall₁ u hu
  obtain ⟨gw, hgw, hcw⟩ : ∃ gw, gw ≤ g ∧ Coupled svc w gw := by
    rw [visited_append] at hw
    rcases List.mem_append.mp hw with hw | hw
    · obtain ⟨gw, -, hle, hc⟩ := hall₁ w (List.mem_append_left _ hw)
      exact ⟨gw, hle.trans hgv, hc⟩
    · obtain ⟨gw, -, hle, hc⟩ := hall₂ w hw
      exact ⟨gw, hle, hc⟩
  -- `Start` appended after the whole log of the leader of the term
  have hj := (hcv.node b).start_returns hcv.inv hstart
  by_contra hle
  have hnu := (hcu.node a).log
  have hnw := (hcw.node c).log
  have hjw : j ≤ (gw.core.log c).length := hcommit.trans hnw.commit_le
  have hju : j ≤ (gu.core.log a).length := by
    have := hnu.commit_le
    omega
  -- both committed logs have the same first `j` entries, the last of them of term `t`
  have hsame : (gu.core.log a).take j = (gw.core.log c).take j := by
    have h₁ : g.core.Agreed ((gu.core.log a).take j) :=
      (hnu.cert.shorten (List.take_prefix_take_left (by omega))).agreed.ext (hguv.1.trans hgv.1)
    have h₂ : g.core.Agreed ((gw.core.log c).take j) :=
      (hnw.cert.shorten (List.take_prefix_take_left hcommit)).agreed.ext hgw.1
    exact h₁.eq_of_length hcg.inv h₂ (by rw [List.length_take, List.length_take]; omega)
  have htu : termAt (gu.core.log a) j = t := by
    rw [← termAt_take le_rfl, hsame, termAt_take le_rfl, ← hterm, ← hidx]
    exact ((hcw.node c).mem_logs hf).2.2.1.symm
  -- so the log of the leader of `t` was already that long when `Start` was called
  have hsrc := (((hcu.inv.log_src a).ext hguv.1) j (by omega) hju).2
  rw [htu] at hsrc
  have hlen := hsrc.length_le
  rw [List.length_take] at hlen
  omega

/-- The second command of the sample is accepted after the first one is committed. -/
theorem start_after_commit_sample :
    ((sampleAt (electing ++ storing ++ committing)).proc 0).rf.commitIndex <
      ((((sampleAt (electing ++ storing ++ committing)).proc 0).rf.start (some 8)).2.map
        Prod.fst).getD 0 := by
  have hrun := sample_run (electing ++ storing ++ committing ++ succeeding) (by decide)
  rw [Cluster.traceOf, traceOf_append] at hrun
  exact start_after_commit (b := 0) (a := 0) (c := 0) (t := 1) (f := ⟨some 8, 1, 2⟩) hrun
    (List.mem_append_right _ (List.mem_singleton_self _)) le_rfl (by decide)
    (List.mem_append_right _ (List.mem_singleton_self _)) (by decide) (by decide) (by decide) rfl

end DistSys.Raft1
