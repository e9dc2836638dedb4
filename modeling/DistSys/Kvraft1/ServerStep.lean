import DistSys.Kvraft1.Backing

/- What a server does, done by the store as well.

   The reader executes a command that is the next one of the log, restores a snapshot that the store
   has taken, and skips what it is past; `MakeRSM` starts from nothing or restores the snapshot in
   the persister; `createSnapshot` takes one. Everything else leaves the store where it is. -/
namespace DistSys.Kvraft1

open Lib
open Rsm.Deployed (Codec)

variable {n : Nat} {D : Type} {codec : Codec (Option SnapshotData) D} {c c' : Agreement n D}
  {b b' : State} {r : Fin n} {sv : Rsm.Deployed.Server n kvMachine D}

/-! ## The reader receives -/

theorem deliver_next {index : Nat} {command : Option (Rsm.Op n Command)}
    (h : Rsm.SafeRaft.Step c (.deliver r index command) c') : c.next r = some (index, command) := by
  cases h with
  | deliver h => exact h

theorem deliverSnapshot_next {index : Nat} {o : Option D}
    (h : Rsm.SafeRaft.Step c (.deliverSnapshot r index o) c') :
    ∃ k bytes, o = some bytes ∧ c.nextSnapshot r k = some (index, bytes) := by
  cases h with
  | @deliverSnapshot _ k _ bytes h => exact ⟨k, bytes, rfl, h⟩

theorem advance_position (c : Agreement n D) (r : Fin n) (index : Nat) :
    (c.advance r index).position r = index := Function.update_self ..

theorem Grows.advance {j : Fin n} (hj : j ≠ r) (index : Nat) : Grows j c (c.advance r index) b b :=
  { Grows.refl j c b with position := Function.update_of_ne hj _ _ }

theorem Logged.advance (h : Logged codec c b) (r : Fin n) (index : Nat) :
    Logged codec (c.advance r index) b := ⟨h.log, h.agreed, h.taken, h.saved⟩

/-- The message that Raft sends next is there for the reader to handle. -/
theorem ServerMatch.receive (h : ServerMatch codec c b r sv) (hreading : sv.reading = true)
    {msg : Raft1.ApplyMsg (Rsm.Op n Command) D}
    (hmarked : msg.commandValid = true ∨ msg.snapshotValid = true)
    (hstep : Rsm.SafeRaft.Step c (Rsm.msgLabel r msg) (c.advance r msg.at)) :
    ServerMatch codec (c.advance r msg.at) b r { sv with received := some msg } := by
  simp only [Rsm.Deployed.Server.reading, Bool.and_eq_true, Bool.not_eq_true',
    Option.isNone_iff_eq_none] at hreading
  obtain ⟨⟨⟨⟨hmade, hdone⟩, hnone⟩, -⟩, -⟩ := hreading
  have hidle := h.idle hmade hdone hnone
  refine ⟨h.replica, ?_, fun hnot => ?_, fun _ _ hmsg => by contradiction, ?_, ?_, h.encoded⟩
  · exact h.ok.mono (fun _ _ _ hbegun => hbegun) fun _ _ _ _ hcomputed =>
      hcomputed.mono List.prefix_rfl le_rfl rfl
  · rw [hmade] at hnot
    contradiction
  · intro msg' op hmsg hvalid hop
    obtain rfl := Option.some.inj hmsg
    have hat : msg.at = msg.commandIndex := if_pos hvalid
    rw [Rsm.msgLabel, if_pos hvalid, hop] at hstep
    obtain ⟨⟨term, command⟩, hentry, heq⟩ := Option.map_eq_some_iff.mp (deliver_next hstep)
    obtain ⟨hindex, rfl⟩ := Prod.mk.inj heq
    rw [advance_position, hat]
    refine ⟨by omega, ?_, rfl, term, ?_⟩
    · show msg.commandIndex ≤ sv.rsm.lastApplied + 1
      omega
    rw [← hindex]
    exact hentry
  · intro msg' hmsg hvalid
    obtain rfl := Option.some.inj hmsg
    have hnot : ¬ msg.commandValid = true := by simp [hvalid]
    have hat : msg.at = msg.snapshotIndex := if_neg hnot
    rw [Rsm.msgLabel, if_neg hnot] at hstep
    obtain ⟨k, bytes, hbytes, hnext⟩ := deliverSnapshot_next hstep
    have hmem : (msg.snapshotIndex, bytes) ∈ c.taken := Rsm.SafeRaft.nextSnapshot_mem hnext
    refine ⟨hmarked.resolve_left hnot, ?_, bytes, hbytes, hmem⟩
    rw [advance_position, hat]

/-! ## The reader handles -/

/-- The message is dealt with, by a replica that is not behind it. -/
theorem ServerMatch.dealtWith (h : ServerMatch codec c b r sv) {rsm : Rsm.RSM n kvMachine}
    (hreplica : b'.replicas r = ⟨rsm.sm, rsm.lastApplied⟩)
    (hok : rsm.Ok (Begun c r) (Computed c b' r rsm.lastApplied) r) (hmade : rsm.made = sv.rsm.made)
    (hpast : c.position r ≤ rsm.lastApplied) (hsnapshots : b'.snapshots = b.snapshots) :
    ServerMatch codec c b' r { sv with rsm := rsm, received := none } where
  replica := hreplica
  ok := hok
  unmade := by
    rw [hmade]
    exact h.unmade
  idle := fun _ _ _ => hpast
  command := fun _ _ hmsg => by contradiction
  snapshot := fun _ hmsg => by contradiction
  encoded := fun args hargs => (h.encoded args hargs).mono fun x hx => by rwa [hsnapshots]

/-- The reader saw the shutdown. -/
theorem ServerMatch.dropped (h : ServerMatch codec c b r sv) :
    ServerMatch codec c b r { sv with received := none, readerDone := true } where
  replica := h.replica
  ok := h.ok
  unmade := h.unmade
  idle := fun _ hdone => by contradiction
  command := fun _ _ hmsg => by contradiction
  snapshot := fun _ hmsg => by contradiction
  encoded := h.encoded

/-- The result of a command that is executed now was not there before. -/
theorem execute_results {sent : List Request} (ho : OfRpcs sent c) (hagreed : c.AgreedStarted)
    {j : Fin n} {applied index index' term term' : Nat} {op op' : Rsm.Op n Command}
    {v : Option RaftReplyMsg} (h : Computed c b j applied index term op v)
    (hentry : c.agreed[index']? = some (term', some op')) (hnew : j = r → applied ≤ index') :
    (b.execute r op'.req.1 op'.req.2).results op.req.1 = b.results op.req.1 := by
  simp only [State.execute]
  split
  · rename_i hserver
    refine Function.update_of_ne ?_ _ _
    intro heq
    obtain ⟨hindex, rfl⟩ := ho.agreed_once hagreed h.agreed hentry heq
    have hj : j = r := Fin.ext (h.server.symm.trans hserver)
    have := hnew hj
    have := h.applied
    have := h.pos
    omega
  · rfl

theorem Grows.execute {sent : List Request} (ho : OfRpcs sent c) (hagreed : c.AgreedStarted)
    {j : Fin n} (hj : j ≠ r) {index term : Nat} {op : Rsm.Op n Command}
    (hentry : c.agreed[index]? = some (term, some op)) :
    Grows j c c b (b.execute r op.req.1 op.req.2) :=
  { Grows.refl j c b with
    replica := Function.update_of_ne (fun heq => hj (Fin.ext heq)) _ _
    results := fun _ _ _ _ h => execute_results ho hagreed h hentry fun heq => absurd heq hj }

/-- `applyCommand` on a command that is new: it is the next one of the log. -/
theorem Backs.applyCommand {server : Fin n → Rsm.Deployed.Server n kvMachine D}
    (h : Backs codec c b server) (ho : OfRpcs b.sent c)
    {msg : Raft1.ApplyMsg (Rsm.Op n Command) D} {op : Rsm.Op n Command} (large : Bool)
    (hmsg : (server r).received = some msg) (hvalid : msg.commandValid = true)
    (hop : msg.command = some op)
    (hrec : ∀ p ∈ (server r).rsm.pendingAt msg.commandIndex, p.op.id = op.id → p.op = op)
    (hnew : (server r).rsm.lastApplied < msg.commandIndex) :
    ∃ b', b.step n (.apply r) = some b' ∧ SameFront b b' ∧ Backs codec c b' (Function.update server r
      { server r with
        rsm := (server r).rsm.applyCommand msg.commandIndex op large
        received := none }) := by
  have hr := h.server r
  obtain ⟨hpos, hle, hat, term, hentry⟩ := hr.command msg op hmsg hvalid hop
  have hindex : msg.commandIndex - 1 = (server r).rsm.lastApplied := by omega
  have happlied : (b.replicas r).applied = (server r).rsm.lastApplied := by rw [hr.replica]
  have hview := (server r).rsm.view_applyCommand hnew op large
  have hstep : b.step n (.apply r) = some (b.execute r op.req.1 op.req.2) := by
    have hlog := h.log_at hentry
    rw [hindex, ← happlied] at hlog
    simp [State.step, hlog]
  refine ⟨_, hstep, ⟨rfl, rfl, rfl⟩, h.update ⟨h.log, h.agreed, h.taken, h.saved⟩ ?_
    fun j hj => .execute ho h.agreed hj hentry⟩
  refine hr.dealtWith ?_ ?_ (congrArg Rsm.View.made hview) ?_ rfl
  · rw [show ((server r).rsm.applyCommand msg.commandIndex op large).sm = _ from
      congrArg Rsm.View.sm hview,
      show ((server r).rsm.applyCommand msg.commandIndex op large).lastApplied = _ from
      congrArg Rsm.View.lastApplied hview]
    simp only [State.execute, State.setReplica, Function.update_self, hr.replica]
    congr 1
    omega
  · rw [show ((server r).rsm.applyCommand msg.commandIndex op large).lastApplied = _ from
      congrArg Rsm.View.lastApplied hview]
    refine Rsm.RSM.Ok.applyCommand (hr.ok.mono (fun _ _ _ hbegun => hbegun) ?_) ?_
    · intro index term' op' v hcomputed
      refine hcomputed.mono List.prefix_rfl hnew.le (execute_results ho h.agreed hcomputed hentry ?_)
      omega
    · -- the op that waits is the one that was executed
      intro _ place p term' hreg hown hid hme hbegun
      have hwaits : p ∈ (server r).rsm.pendingAt msg.commandIndex := by
        rw [Rsm.RSM.pendingAt, hreg, Option.bind_some, hown]
        rfl
      rw [hrec p hwaits hid] at hbegun ⊢
      obtain ⟨op', hop', -, hserver⟩ := ho.sent _ hbegun
      obtain rfl := Option.some.inj hop'
      obtain ⟨x, hx, -, hxterm, hxop⟩ := h.agreed _ _ hentry
      obtain rfl := ho.once x hx _ hbegun op op hxop rfl rfl
      obtain rfl : term' = term := hxterm
      refine ⟨hpos, le_rfl, hserver, hentry, _, rfl, ?_⟩
      simp [State.execute, hserver, hr.replica]
      rfl
  · rw [hat]
    exact (congrArg Rsm.View.lastApplied hview).ge

theorem Logged.of_replicas (h : Logged codec c b) (replica : Replica) :
    Logged codec c (b.setReplica r replica) := ⟨h.log, h.agreed, h.taken, h.saved⟩

theorem Grows.setReplica {j : Fin n} (hj : j ≠ r) (replica : Replica) :
    Grows j c c b (b.setReplica r replica) :=
  { Grows.refl j c b with replica := Function.update_of_ne (fun heq => hj (Fin.ext heq)) _ _ }

/-- The store can restore a snapshot that it has taken. -/
theorem restore_step {index : Nat} {data : SnapshotData} (h : (data, index) ∈ b.snapshots) (r : Nat) :
    ∃ i, b.step n (.restore r i) =
      some (b.setReplica r ⟨(b.replicas r).kv.restore (some data), index⟩) := by
  obtain ⟨i, hi⟩ := List.mem_iff_getElem?.mp h
  exact ⟨i, by simp [State.step, hi]⟩

/-- `applySnapshot` on a snapshot that is new. -/
theorem Backs.applySnapshot {server : Fin n → Rsm.Deployed.Server n kvMachine D}
    (h : Backs codec c b server) {msg : Raft1.ApplyMsg (Rsm.Op n Command) D}
    (hmsg : (server r).received = some msg) (hvalid : msg.commandValid = false)
    {rsm : Rsm.RSM n kvMachine}
    (hrsm : Rsm.Deployed.applySnapshot codec (server r).rsm msg = .ok rsm) :
    ∃ b', Reaches n b b' [] ∧ SameFront b b' ∧ Backs codec c b' (Function.update server r
      { server r with rsm := rsm, received := none }) := by
  have hr := h.server r
  obtain ⟨-, hat, bytes, hbytes, hmem⟩ := hr.snapshot msg hmsg hvalid
  obtain ⟨blob, data, hdecode, hindex, hdata, htaken⟩ := h.taken _ _ hmem
  simp only [Rsm.Deployed.applySnapshot] at hrsm
  split at hrsm
  · -- the replica is past it
    rename_i hold
    obtain rfl := Except.ok.inj hrsm
    refine ⟨b, .refl n b, ⟨rfl, rfl, rfl⟩, h.update h.toLogged ?_ fun j _ => .refl j c b⟩
    exact hr.dealtWith hr.replica hr.ok rfl (hat.trans_le hold) rfl
  · rename_i hnew
    rw [hbytes, Option.bind_some, hdecode] at hrsm
    simp only at hrsm
    split at hrsm
    · contradiction
    · rename_i rsm' happly
      obtain rfl := Except.ok.inj hrsm
      rcases Rsm.RSM.view_applySnapshot happly with ⟨hold, -⟩ | ⟨hlt, -, hview⟩
      · exact absurd hold hnew
      · have hsm : rsm'.sm = (server r).rsm.sm.restore (some data) := by
          rw [← hdata]
          exact congrArg Rsm.View.sm hview
        have happlied : rsm'.lastApplied = msg.snapshotIndex := congrArg Rsm.View.lastApplied hview
        obtain ⟨i, hstep⟩ := restore_step (n := n) htaken r
        refine ⟨_, .silent hstep rfl, ⟨rfl, rfl, rfl⟩, h.update (h.toLogged.of_replicas _) ?_
          fun j hj => .setReplica hj _⟩
        refine hr.dealtWith ?_ ?_ (congrArg Rsm.View.made hview) (hat.trans happlied.symm).le rfl
        · simp [State.setReplica, hsm, happlied, hr.replica]
        · rw [happlied]
          refine Rsm.RSM.Ok.applySnapshot ?_ happly
          exact hr.ok.mono (fun _ _ _ hbegun => hbegun) fun _ _ _ _ hcomputed =>
            hcomputed.mono List.prefix_rfl hlt.le rfl

/-- One turn of the reader. -/
theorem Backs.reader {server : Fin n → Rsm.Deployed.Server n kvMachine D}
    (h : Backs codec c b server) (ho : OfRpcs b.sent c)
    {msg : Raft1.ApplyMsg (Rsm.Op n Command) D} {large : Bool}
    (hmsg : (server r).received = some msg)
    (hrec : ∀ op ∈ msg.command, ∀ p ∈ (server r).rsm.pendingAt msg.commandIndex,
      p.op.id = op.id → p.op = op)
    {rsm : Rsm.RSM n kvMachine}
    (hrsm : Rsm.Deployed.reader codec (server r).rsm msg large = .ok rsm) :
    ∃ b', Reaches n b b' [] ∧ SameFront b b' ∧ Backs codec c b' (Function.update server r
      { server r with rsm := rsm, received := none }) := by
  have hr := h.server r
  unfold Rsm.Deployed.reader at hrsm
  cases hvalid : msg.commandValid with
  | true =>
    rw [if_pos hvalid, Rsm.Deployed.applyCommand] at hrsm
    split at hrsm
    · contradiction
    · rename_i op hop
      obtain rfl := Except.ok.inj hrsm
      obtain ⟨-, -, hat, -⟩ := hr.command msg op hmsg hvalid hop
      rcases Nat.lt_or_ge (server r).rsm.lastApplied msg.commandIndex with hnew | hold
      · obtain ⟨b', hstep, hfront, hbacks⟩ :=
          h.applyCommand ho large hmsg hvalid hop (hrec op hop) hnew
        exact ⟨b', .silent hstep rfl, hfront, hbacks⟩
      · -- an old command is skipped
        rw [Rsm.RSM.applyCommand, if_pos hold]
        refine ⟨b, .refl n b, ⟨rfl, rfl, rfl⟩, h.update h.toLogged ?_ fun j _ => .refl j c b⟩
        exact hr.dealtWith hr.replica hr.ok rfl (hat.trans_le hold) rfl
  | false =>
    rw [if_neg (by simp [hvalid]), if_pos (hr.snapshot msg hmsg hvalid).1] at hrsm
    exact h.applySnapshot hmsg hvalid hrsm

/-! ## Snapshots -/

/-- `createSnapshot` takes a snapshot of the replica as it is. -/
theorem Backs.createSnapshot {server : Fin n → Rsm.Deployed.Server n kvMachine D}
    (h : Backs codec c b server) (index : Nat)
    (hdone : (KVServer.snapshot 11 (server r).rsm.sm).isSome) :
    ∃ b', Reaches n b b' [] ∧ SameFront b b' ∧ Backs codec c b' (Function.update server r
      { server r with
        rsm := { (server r).rsm with snapshotDue := none }
        encoded := ((server r).rsm.createSnapshot index).map fun args =>
          (args.1, codec.encode args.2) }) := by
  have hr := h.server r
  obtain ⟨data, hdata⟩ := Option.isSome_iff_exists.mp hdone
  have hstep : b.step n (.snapshot r) = some { b with
      snapshots := b.snapshots ++ [(data, (server r).rsm.lastApplied)] } := by
    simp [State.step, hr.replica, hdata]
  have hgrows : ∀ j, Grows j c c b { b with
      snapshots := b.snapshots ++ [(data, (server r).rsm.lastApplied)] } := fun j =>
    { Grows.refl j c b with snapshots := fun _ hx => List.mem_append_left _ hx }
  refine ⟨_, .silent hstep rfl, ⟨rfl, rfl, rfl⟩, h.update ?_ ?_ fun j _ => hgrows j⟩
  · exact ⟨h.log, h.agreed, fun i bytes hmem => (h.taken i bytes hmem).mono (hgrows r).snapshots,
      h.saved⟩
  · have hr' := hr.mono (hgrows r)
    refine ⟨hr'.replica, hr'.ok.congr rfl rfl rfl, hr'.unmade, hr'.idle, hr'.command, hr'.snapshot, ?_⟩
    intro args hargs
    obtain ⟨⟨i, blob⟩, hblob, rfl⟩ := Option.map_eq_some_iff.mp hargs
    obtain ⟨-, hblob⟩ := Option.ite_none_left_eq_some.mp hblob
    obtain ⟨rfl, rfl⟩ := Prod.mk.inj (Option.some.inj hblob)
    refine ⟨_, data, codec.decode_encode _, rfl, hdata, ?_⟩
    exact List.mem_append_right _ (List.mem_singleton_self _)

/-- `Snapshot` is called with what was encoded. -/
theorem Backs.handOver {server : Fin n → Rsm.Deployed.Server n kvMachine D}
    (h : Backs codec c b server) {args : Nat × D} (hargs : (server r).encoded = some args) :
    Backs codec (c.snapshot r args.1 args.2) b
      (Function.update server r { server r with encoded := none }) := by
  have hr := h.server r
  by_cases hold : args.1 ≤ c.savedIndex r
  · rw [Rsm.SafeRaft.snapshot, if_pos hold]
    exact h.update h.toLogged hr.handedOver fun j _ => .refl j c b
  · rw [Rsm.SafeRaft.snapshot, if_neg hold]
    have hgrows : ∀ j, Grows j c { c with
        taken := (args.1, args.2) :: c.taken
        saved := Function.update c.saved r (some (args.1, args.2)) } b b := fun j =>
      .save j (by omega) fun _ hy => List.mem_cons_of_mem _ hy
    refine h.update ?_ (hr.mono (hgrows r)).handedOver fun j _ => hgrows j
    refine h.toLogged.save List.mem_cons_self (fun _ hy => List.mem_cons_of_mem _ hy) ?_
    intro i bytes hmem
    rcases List.mem_cons.mp hmem with heq | hmem
    · rw [(Prod.mk.inj heq).1, (Prod.mk.inj heq).2]
      exact hr.encoded args hargs
    · exact h.taken i bytes hmem

/-! ## MakeRSM -/

/-- A server starts again. -/
theorem Backs.boot {server : Fin n → Rsm.Deployed.Server n kvMachine D}
    (h : Backs codec c b server) (r : Fin n) (maxraftstate : Int) :
    Backs codec (c.restart r) (b.setReplica r ⟨.empty, 0⟩)
      (Function.update server r (Rsm.Deployed.Server.boot kvMachine D r maxraftstate)) := by
  refine h.update ⟨h.log, h.agreed, h.taken, h.saved⟩ ?_ ?_
  · refine ⟨Function.update_self .., .newRSM r maxraftstate, fun _ => ?_, fun hmade => by contradiction,
      fun _ _ hmsg => by contradiction, fun _ hmsg => by contradiction, fun _ hargs => by contradiction⟩
    exact (advance_position c r _).le
  · intro j hj
    exact { Grows.refl j c b with
      position := Function.update_of_ne hj _ _
      replica := Function.update_of_ne (fun heq => hj (Fin.ext heq)) _ _ }

/-- A server that has read its snapshot. -/
theorem ServerMatch.reads (h : ServerMatch codec c b r sv) {rsm : Rsm.RSM n kvMachine} {sm : KVServer}
    {applied : Nat}
    (hview : rsm.view = ⟨sm, applied, sv.rsm.view.maxraftstate, sv.rsm.view.snapshotDue, true⟩)
    (hpast : c.position r ≤ applied) (hreplica : b'.replicas r = ⟨sm, applied⟩)
    (hok : rsm.Ok (Begun c r) (Computed c b' r applied) r) (hnone : sv.received = none)
    (hsnapshots : b'.snapshots = b.snapshots) :
    ServerMatch codec c b' r { sv with rsm := rsm } := by
  have hsm : rsm.sm = sm := congrArg Rsm.View.sm hview
  have happlied : rsm.lastApplied = applied := congrArg Rsm.View.lastApplied hview
  have hmade : rsm.made = true := congrArg Rsm.View.made hview
  refine ⟨?_, ?_, fun hnot => ?_, fun _ _ _ => ?_, fun _ _ hmsg => ?_, fun _ hmsg => ?_, fun args hargs =>
    (h.encoded args hargs).mono fun x hx => by rwa [hsnapshots]⟩
  · rw [hreplica, hsm, happlied]
  · rw [happlied]
    exact hok
  · rw [hmade] at hnot
    contradiction
  · rwa [happlied]
  · rw [hnone] at hmsg
    contradiction
  · rw [hnone] at hmsg
    contradiction

/-- `MakeRSM` reads what is saved. -/
theorem Backs.readSnapshot {server : Fin n → Rsm.Deployed.Server n kvMachine D}
    (h : Backs codec c b server) (hmade : (server r).rsm.made = false)
    (hzero : (server r).rsm.lastApplied = 0) (hnone : (server r).received = none) (hlimit : (server r).rsm.maxraftstate ≥ 0)
    {rsm : Rsm.RSM n kvMachine}
    (hrsm : Rsm.Deployed.readSnapshot codec (server r).rsm ((c.saved r).map Prod.snd) = .ok rsm) :
    ∃ b', Reaches n b b' [] ∧ SameFront b b' ∧ Backs codec c b' (Function.update server r
      { server r with rsm := rsm }) := by
  have hr := h.server r
  have hbehind := hr.unmade hmade
  simp only [Rsm.Deployed.readSnapshot, if_pos hlimit] at hrsm
  cases hsaved : c.saved r with
  | none =>
    have hindex : c.savedIndex r = 0 := by simp [Rsm.SafeRaft.savedIndex, hsaved]
    rw [hsaved] at hrsm
    obtain rfl := Except.ok.inj hrsm
    have hview := (server r).rsm.view_readSnapshot_none
    refine ⟨b, .refl n b, ⟨rfl, rfl, rfl⟩, h.update h.toLogged ?_ fun j _ => .refl j c b⟩
    refine hr.reads hview ?_ hr.replica (hr.ok.readSnapshot none) hnone rfl
    omega
  | some x =>
    obtain ⟨index, bytes⟩ := x
    have hindex : c.savedIndex r = index := by simp [Rsm.SafeRaft.savedIndex, hsaved]
    obtain ⟨blob, data, hdecode, hat, hdata, htaken⟩ := h.taken _ _ (h.saved r _ hsaved)
    rw [hsaved, Option.map_some] at hrsm
    simp only [hdecode] at hrsm
    obtain rfl := Except.ok.inj hrsm
    have hview := (server r).rsm.view_readSnapshot_some hlimit blob
    obtain ⟨i, hstep⟩ := restore_step (n := n) htaken r
    refine ⟨_, .silent hstep rfl, ⟨rfl, rfl, rfl⟩, h.update (h.toLogged.of_replicas _) ?_
      fun j hj => .setReplica hj _⟩
    refine hr.reads hview ?_ ?_ (Rsm.RSM.Ok.readSnapshot ?_ _) hnone rfl
    · rw [hat]
      omega
    · rw [hdata, hat]
      simp [State.setReplica, hr.replica, kvMachine]
    · rw [hat]
      exact hr.ok.mono (fun _ _ _ hbegun => hbegun) fun _ _ _ _ hcomputed =>
        hcomputed.mono List.prefix_rfl (by omega) rfl

end DistSys.Kvraft1
