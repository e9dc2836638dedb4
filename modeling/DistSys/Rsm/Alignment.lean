import DistSys.Raft1.NextIndex
import DistSys.Rsm.Deployed
import DistSys.Rsm.Replay

/- A snapshot says the index that Raft has it under.

   Raft keeps whatever state its service restores from a snapshot (`Coupled`). Here the state is the
   index itself (`indexService`): a command adds one, and a snapshot restores the index that it
   encodes. The one thing to show of the replicas is then that they call `Snapshot` with the index
   they have been delivered. A replica may be ahead of Raft after a restart, but a snapshot is due
   only after a command that was new to it, and the reader takes no message before it is made. -/
namespace DistSys.Rsm.Deployed

open Lib

variable {n : Nat} {Q R B D : Type} {M : StateMachine Q R}

/-! ## The index as the state of a service -/

def indexService (C : Type) (codec : Codec B D) : Raft1.Service C D where
  State := Option Nat
  init := some 0
  apply := fun i _ => i.map (· + 1)
  restore := codec.index

theorem run_indexService {C : Type} (codec : Codec B D) (cmds : List (Option C)) :
    (indexService C codec).run cmds = some cmds.length := by
  have hfold : ∀ i, cmds.foldl (fun (i : Option Nat) (_ : Option C) => i.map (· + 1)) (some i) =
      some (i + cmds.length) := by
    induction cmds with
    | nil => exact fun i => rfl
    | cons cmd cmds ih =>
      intro i
      rw [List.foldl_cons, List.length_cons, Nat.add_comm cmds.length, ← Nat.add_assoc]
      exact ih (i + 1)
  rw [← Nat.zero_add cmds.length]
  exact hfold 0

section Service

variable {C : Type} {codec : Codec B D} {g : Raft1.Ghost n C D}

/-- A log that starts at 0 has no snapshot, or one of index 0; any other one that is of its index. -/
theorem index_of_snapFor {i : Nat} {o : Option D}
    (h : Raft1.SnapFor (indexService C codec) g i o) :
    (o = none ∧ i = 0) ∨ ∃ bytes, o = some bytes ∧ codec.index bytes = some i := by
  cases o with
  | none => exact Or.inl ⟨rfl, h⟩
  | some bytes =>
    obtain ⟨-, p, -, hlen, hrestore⟩ := h
    rw [run_indexService, List.length_map, hlen] at hrestore
    exact Or.inr ⟨bytes, rfl, hrestore⟩

theorem index_of_pos {i : Nat} {o : Option D} (h : Raft1.SnapFor (indexService C codec) g i o)
    (hpos : 0 < i) : o.bind codec.index = some i := by
  rcases index_of_snapFor h with ⟨-, hzero⟩ | ⟨bytes, rfl, hindex⟩
  · omega
  · exact hindex

/-- A snapshot of the last index delivered is one that Raft may be given. -/
theorem produced_of_index {p : Raft1.Process n C D} (hi : g.core.Inv)
    (h : Raft1.Applying (indexService C codec) g p) {bytes : D}
    (hindex : codec.index bytes = some p.position) :
    Raft1.Produced (indexService C codec) p p.position bytes := by
  obtain ⟨⟨q, -, hlen, hstate⟩, hat⟩ := h.service_all hi
  refine ⟨p.applyCh.length, le_rfl, Prod.ext hat ?_⟩
  rw [hstate, run_indexService, List.length_map, hlen, hat]
  exact hindex.symm

end Service

/-! ## What holds of a server -/

/-- A message that the reader can handle. -/
def Handled (codec : Codec B D) (msg : Raft1.ApplyMsg (Op n Q) D) : Prop :=
  if msg.commandValid then msg.command ≠ none
  else 0 < msg.snapshotIndex → msg.snapshot.bind codec.index = some msg.snapshotIndex

structure Server.Ok (codec : Codec M.Bytes D) (p : Raft1.Process n (Op n Q) D)
    (sv : Server n M D) : Prop where
  limit : 0 < sv.rsm.view.maxraftstate
  fresh : sv.rsm.view.made = false → sv.rsm.view.lastApplied = 0 ∧ sv.rsm.view.snapshotDue = none
  received : ∀ msg, sv.received = some msg → sv.rsm.view.made = true ∧
    sv.rsm.view.snapshotDue = none ∧ sv.encoded = none ∧ msg.at = p.position ∧ Handled codec msg
  due : ∀ index, sv.rsm.view.snapshotDue = some index → sv.rsm.view.lastApplied = p.position
  encoded : ∀ args, sv.encoded = some args → args.1 = p.position ∧ codec.index args.2 = some args.1

namespace Server.Ok

variable {codec : Codec M.Bytes D} {p p' : Raft1.Process n (Op n Q) D} {sv : Server n M D}

theorem boot (p : Raft1.Process n (Op n Q) D) (r : Fin n) {maxraftstate : Int}
    (h : 0 < maxraftstate) : (Server.boot M D r maxraftstate).Ok codec p where
  limit := h
  fresh := fun _ => ⟨rfl, rfl⟩
  received := fun _ hmsg => by contradiction
  due := fun _ hdue => by contradiction
  encoded := fun _ hargs => by contradiction

/-- Only the position of the peer counts. -/
theorem same_position (h : sv.Ok codec p) (hp : p'.position = p.position) : sv.Ok codec p' where
  limit := h.limit
  fresh := h.fresh
  received := fun msg hmsg => by
    rw [hp]
    exact h.received msg hmsg
  due := fun index hdue => by
    rw [hp]
    exact h.due index hdue
  encoded := fun args hargs => by
    rw [hp]
    exact h.encoded args hargs

/-- A step of the calls. -/
theorem same_view (h : sv.Ok codec p) {rsm : RSM n M} (hview : rsm.view = sv.rsm.view) :
    { sv with rsm := rsm }.Ok codec p where
  limit := by
    rw [hview]
    exact h.limit
  fresh := by
    rw [hview]
    exact h.fresh
  received := by
    rw [hview]
    exact h.received
  due := by
    rw [hview]
    exact h.due
  encoded := h.encoded

/-- `Snapshot` returned. -/
theorem handedOver (h : sv.Ok codec p) : { sv with encoded := none }.Ok codec p where
  limit := h.limit
  fresh := h.fresh
  received := fun msg hmsg => by
    obtain ⟨hmade, hdue, -, hrest⟩ := h.received msg hmsg
    exact ⟨hmade, hdue, rfl, hrest⟩
  due := h.due
  encoded := fun _ hargs => by contradiction

/-- The message is dealt with, and a snapshot is due only if the replica is where Raft is. -/
theorem dealtWith (h : sv.Ok codec p) {msg : Raft1.ApplyMsg (Op n Q) D}
    (hmsg : sv.received = some msg) {rsm : RSM n M}
    (hlimit : rsm.view.maxraftstate = sv.rsm.view.maxraftstate)
    (hmade : rsm.view.made = sv.rsm.view.made)
    (hdue : ∀ index, rsm.view.snapshotDue = some index → rsm.view.lastApplied = msg.at) (done : Bool) :
    { sv with rsm := rsm, received := none, readerDone := done }.Ok codec p where
  limit := by
    rw [hlimit]
    exact h.limit
  fresh := fun hnot => by
    rw [hmade, (h.received msg hmsg).1] at hnot
    contradiction
  received := fun _ hnone => by contradiction
  due := fun index hindex => by
    rw [← (h.received msg hmsg).2.2.2.1]
    exact hdue index hindex
  encoded := h.encoded

/-- `createSnapshot` encodes the index that the replica is at. -/
theorem createSnapshot (h : sv.Ok codec p) {index : Nat}
    (hindex : sv.rsm.snapshotDue = some index) :
    { sv with
      rsm := { sv.rsm with snapshotDue := none }
      encoded := (sv.rsm.createSnapshot index).map fun (args : Nat × Blob M.Bytes) =>
        (args.1, codec.encode args.2) }.Ok codec p where
  limit := h.limit
  fresh := fun hnot => ⟨(h.fresh hnot).1, rfl⟩
  received := fun msg hmsg => by
    have hnone : sv.rsm.snapshotDue = none := (h.received msg hmsg).2.1
    rw [hindex] at hnone
    contradiction
  due := fun _ hdue => by contradiction
  encoded := fun args hargs => by
    obtain ⟨⟨i, blob⟩, hblob, rfl⟩ := Option.map_eq_some_iff.mp hargs
    obtain ⟨-, hblob⟩ := Option.ite_none_left_eq_some.mp hblob
    obtain ⟨rfl, rfl⟩ := Prod.mk.inj (Option.some.inj hblob)
    refine ⟨h.due index hindex, ?_⟩
    simp [Codec.index, codec.decode_encode]

end Server.Ok

/-! ## The calls and the reader -/

theorem view_callStep {rsm rsm' : RSM n M} {state : Nat × Bool} {a : CallStep Q}
    (h : callStep rsm state a = some rsm') : rsm'.view = rsm.view := by
  cases a with
  | submit req =>
    obtain ⟨-, h⟩ := Option.ite_none_right_eq_some.mp h
    obtain rfl := Option.some.inj h
    exact RSM.view_submit rsm req
  | submitDone c => exact RSM.view_submitDone h
  | submitTimeout c => exact RSM.view_submitTimeout h
  | number c => exact RSM.view_doSubmitNumber h
  | register c => exact RSM.view_doSubmitRegister h
  | waitDone c => exact RSM.view_waitDone h
  | waitShutdown c => exact RSM.view_waitShutdown h
  | waitTimer c => exact RSM.view_waitTimer h
  | remove c => exact RSM.view_doSubmitRemove h
  | kill =>
    obtain ⟨-, h⟩ := Option.ite_none_right_eq_some.mp h
    obtain rfl := Option.some.inj h
    exact RSM.view_doShutdown rsm

/-- A new command is executed and may make a snapshot due; another one changes nothing. -/
theorem applyCommand_due (rsm : RSM n M) (commandIndex : Nat) (op : Op n Q) (large : Bool)
    (hnone : rsm.view.snapshotDue = none) :
    (rsm.applyCommand commandIndex op large).view.maxraftstate = rsm.view.maxraftstate ∧
      (rsm.applyCommand commandIndex op large).view.made = rsm.view.made ∧
      ∀ index, (rsm.applyCommand commandIndex op large).view.snapshotDue = some index →
        (rsm.applyCommand commandIndex op large).view.lastApplied = commandIndex := by
  by_cases hnew : rsm.lastApplied < commandIndex
  · rw [RSM.view_applyCommand rsm hnew]
    exact ⟨rfl, rfl, fun _ _ => rfl⟩
  · have hold : rsm.applyCommand commandIndex op large = rsm := by
      unfold RSM.applyCommand
      rw [if_pos (by omega)]
    rw [hold]
    refine ⟨rfl, rfl, fun index hindex => ?_⟩
    rw [hnone] at hindex
    contradiction

/-- A snapshot of the index it is sent under is taken or skipped. -/
theorem applySnapshot_ok {codec : Codec M.Bytes D} (rsm : RSM n M)
    {msg : Raft1.ApplyMsg (Op n Q) D}
    (hindex : 0 < msg.snapshotIndex → msg.snapshot.bind codec.index = some msg.snapshotIndex) :
    ∃ rsm', applySnapshot codec rsm msg = .ok rsm' ∧
      rsm'.view.maxraftstate = rsm.view.maxraftstate ∧ rsm'.view.made = rsm.view.made ∧
      rsm'.view.snapshotDue = rsm.view.snapshotDue := by
  unfold applySnapshot
  split
  · exact ⟨rsm, rfl, rfl, rfl, rfl⟩
  · rename_i hnew
    obtain ⟨bytes, hbytes, hdecoded⟩ := Option.bind_eq_some_iff.mp (hindex (by omega))
    obtain ⟨data, hdata, hat⟩ := Option.map_eq_some_iff.mp hdecoded
    have hdecode : msg.snapshot.bind codec.decode = some data := by
      rw [hbytes]
      exact hdata
    have happly : ∃ rsm', rsm.applySnapshot msg.snapshotIndex data = some rsm' := by
      unfold RSM.applySnapshot
      rw [if_neg hnew, if_neg (not_not.mpr hat)]
      exact ⟨_, rfl⟩
    obtain ⟨rsm', hrsm⟩ := happly
    refine ⟨rsm', by simp only [hdecode, hrsm], ?_⟩
    rcases RSM.view_applySnapshot hrsm with ⟨-, rfl⟩ | ⟨-, -, hview⟩
    · exact ⟨rfl, rfl, rfl⟩
    · rw [hview]
      exact ⟨rfl, rfl, rfl⟩

/-- The reader does not panic on a message that it has received. -/
theorem Server.Ok.reader {codec : Codec M.Bytes D} {p : Raft1.Process n (Op n Q) D}
    {sv : Server n M D} (h : sv.Ok codec p) {msg : Raft1.ApplyMsg (Op n Q) D}
    (hmsg : sv.received = some msg) (large : Bool) :
    ∃ rsm, Deployed.reader codec sv.rsm msg large = .ok rsm ∧
      { sv with rsm := rsm, received := none }.Ok codec p := by
  obtain ⟨-, hnone, -, -, hhandled⟩ := h.received msg hmsg
  unfold Handled at hhandled
  unfold Deployed.reader
  split
  · rename_i hvalid
    rw [if_pos hvalid] at hhandled
    obtain ⟨op, hop⟩ := Option.ne_none_iff_exists'.mp hhandled
    obtain ⟨hlimit, hmade, hdue⟩ := applyCommand_due sv.rsm msg.commandIndex op large hnone
    refine ⟨sv.rsm.applyCommand msg.commandIndex op large, ?_, ?_⟩
    · unfold Deployed.applyCommand
      rw [hop]
    · refine h.dealtWith hmsg hlimit hmade ?_ sv.readerDone
      intro index hindex
      rw [hdue index hindex, Raft1.ApplyMsg.at, if_pos hvalid]
  · rename_i hvalid
    rw [if_neg hvalid] at hhandled
    have hskip : ∀ {rsm : RSM n M}, rsm.view.maxraftstate = sv.rsm.view.maxraftstate →
        rsm.view.made = sv.rsm.view.made → rsm.view.snapshotDue = sv.rsm.view.snapshotDue →
        { sv with rsm := rsm, received := none }.Ok codec p := by
      intro rsm hlimit hmade hdue
      refine h.dealtWith hmsg hlimit hmade ?_ sv.readerDone
      intro index hindex
      rw [hdue, hnone] at hindex
      contradiction
    split
    · obtain ⟨rsm, hok, hlimit, hmade, hdue⟩ := applySnapshot_ok sv.rsm hhandled
      exact ⟨rsm, hok, hskip hlimit hmade hdue⟩
    · exact ⟨sv.rsm, rfl, hskip rfl rfl rfl⟩

/-- `MakeRSM` goes to the index of the snapshot that it reads. -/
theorem Server.Ok.readSnapshot {codec : Codec M.Bytes D} {p : Raft1.Process n (Op n Q) D}
    {sv : Server n M D} (h : sv.Ok codec p) (hmade : sv.rsm.made = false)
    {g : Raft1.Ghost n (Op n Q) D} {i : Nat} {o : Option D}
    (hsnap : Raft1.SnapFor (indexService (Op n Q) codec) g i o) :
    ∃ rsm, Deployed.readSnapshot codec sv.rsm o = .ok rsm ∧ rsm.made = true ∧ rsm.lastApplied = i ∧
      { sv with rsm := rsm }.Ok codec p := by
  have hlimit : sv.rsm.maxraftstate ≥ 0 := (h.limit).le
  obtain ⟨hzero, hnone⟩ := h.fresh hmade
  have hmakes : ∀ {rsm : RSM n M} {sm : M.State} {k : Nat},
      rsm.view = ⟨sm, k, sv.rsm.view.maxraftstate, sv.rsm.view.snapshotDue, true⟩ →
      rsm.made = true ∧ rsm.lastApplied = k ∧ { sv with rsm := rsm }.Ok codec p := by
    intro rsm sm k hview
    refine ⟨congrArg View.made hview, congrArg View.lastApplied hview, ?_, ?_, ?_, ?_, h.encoded⟩
    · rw [hview]
      exact h.limit
    · intro hnot
      rw [hview] at hnot
      contradiction
    · intro msg hmsg
      rw [hview]
      exact ⟨rfl, (h.received msg hmsg).2⟩
    · intro index hindex
      rw [hview] at hindex
      exact absurd (hnone.symm.trans hindex) (by simp)
  unfold Deployed.readSnapshot
  rw [if_pos hlimit]
  rcases index_of_snapFor hsnap with ⟨rfl, rfl⟩ | ⟨bytes, rfl, hindex⟩
  · obtain ⟨hmade', hat, hok⟩ := hmakes (RSM.view_readSnapshot_none sv.rsm)
    exact ⟨sv.rsm.readSnapshot none, rfl, hmade', hat.trans hzero, hok⟩
  · obtain ⟨data, hdata, rfl⟩ := Option.map_eq_some_iff.mp hindex
    obtain ⟨hmade', hat, hok⟩ := hmakes (RSM.view_readSnapshot_some sv.rsm hlimit data)
    exact ⟨sv.rsm.readSnapshot (some data), by simp only [hdata], hmade', hat, hok⟩

/-! ## What holds of the peers -/

/-- The peers follow the protocol, every command put into a log is an `Op`, and no peer is to be
sent a snapshot of nothing. -/
structure RaftOk (codec : Codec B D) (raft : Raft1.Cluster n (Op n Q) D)
    (g : Raft1.Ghost n (Op n Q) D) : Prop where
  produced : g.produced = fun _ _ => True
  coupled : Raft1.Coupled (indexService (Op n Q) codec) raft g
  ops : ∀ k i T command, g.core.Put k i T command → command ≠ none
  ahead : Raft1.Ahead raft

/-- The arguments of a call of `InstallSnapShot` under way. -/
def installArgs {C : Type} (m : Raft1.Rpc n C D) : Option (Raft1.InstallSnapShotArgs n D) :=
  match m.payload with
  | .snapReq args => some args
  | .snapRep args _ => some args
  | _ => none

/-- The index of `logs[0]` in what a persister holds. -/
def firstIndex {C : Type} (ps : Raft1.Persister n C D) : Nat := (ps.state.logs.headD default).index

namespace RaftOk

variable {codec : Codec B D} {raft raft' : Raft1.Cluster n (Op n Q) D}
  {g : Raft1.Ghost n (Op n Q) D}

theorem initial (codec : Codec B D) : RaftOk codec (Raft1.Cluster.initial n (Op n Q) D)
    (Raft1.Ghost.initial n (Op n Q) D fun _ _ => True) where
  produced := rfl
  coupled := Raft1.coupled_initial _
  ops := fun k i T command hput => by
    have hentry := hput.2
    simp [Raft1.Ghost.initial, Repl.initial] at hentry
  ahead := Raft1.ahead_initial

theorem step (h : RaftOk codec raft g) {x : Raft1.Action n (Op n Q) D}
    (hx : raft.step x = some raft') (ha : x.Allowed (indexService (Op n Q) codec) raft)
    (hops : ∀ k i T command, raft.Puts k i T command x → command ≠ none) :
    ∃ g', RaftOk codec raft' g' := by
  obtain ⟨g', -, hprod, hc, hput⟩ := Raft1.coupled_step h.coupled hx ha fun _ _ _ => by
    rw [h.produced]
    trivial
  refine ⟨g', hprod.trans h.produced, hc, ?_, Raft1.ahead_step h.ahead h.coupled hx⟩
  intro k i T command hnow
  rcases (hput k i T command).mp hnow with hold | hnew
  · exact h.ops k i T command hold
  · exact hops k i T command hnew

/-- What an applier sends, a reader can handle. -/
theorem handled (h : RaftOk codec raft g) {r : Fin n} {msg : Raft1.ApplyMsg (Op n Q) D}
    (hmsg : (raft.proc r).sending = some msg) : Handled codec msg := by
  have hnext := (h.coupled.node r).app.next
  rw [hmsg] at hnext
  obtain ⟨-, hok, -⟩ := hnext
  unfold Raft1.MsgOk at hok
  unfold Handled
  split
  · rename_i hvalid
    rw [if_pos hvalid] at hok
    obtain ⟨p, e, hagreed, -, hcmd⟩ := hok
    obtain ⟨k, hput⟩ := hagreed.put h.coupled.inv (List.getElem?_concat_length)
    rw [← hcmd]
    exact h.ops _ _ _ _ hput
  · rename_i hvalid
    rw [if_neg hvalid] at hok
    exact index_of_pos hok

theorem pending (h : RaftOk codec raft g) {r : Fin n} {msg : Raft1.ApplyMsg (Op n Q) D}
    (hmsg : (raft.proc r).rf.pendingSnapshot = some msg) :
    msg.snapshot.bind codec.index = some msg.snapshotIndex := by
  have hpending : ∃ y, Raft1.Pending (indexService (Op n Q) codec) g (raft.proc r).rf y := by
    have hnext := (h.coupled.node r).app.next
    split at hnext
    · exact ⟨_, hnext⟩
    · exact ⟨_, hnext.2.2⟩
  obtain ⟨y, hy⟩ := hpending
  unfold Raft1.Pending at hy
  rw [hmsg] at hy
  obtain ⟨hcommand, -, hindex, hlt, hok⟩ := hy
  unfold Raft1.MsgOk at hok
  rw [if_neg (by simp [hcommand])] at hok
  exact index_of_pos hok (by omega)

theorem installing (h : RaftOk codec raft g) {m : Raft1.Rpc n (Op n Q) D} (hm : m ∈ raft.net)
    {args : Raft1.InstallSnapShotArgs n D} (hargs : installArgs m = some args) :
    args.data.bind codec.index = some args.lastIncludedIndex := by
  have hok := h.coupled.net m hm
  have hpos := h.ahead.net m hm
  unfold installArgs at hargs
  unfold Raft1.RpcOk at hok
  unfold Raft1.Rpc.Positive at hpos
  cases hp : m.payload with
  | snapReq args' =>
    simp only [hp] at hargs hok hpos
    obtain rfl := Option.some.inj hargs
    exact index_of_pos hok.2.2.2.2 hpos
  | snapRep args' reply =>
    simp only [hp] at hargs hok hpos
    obtain rfl := Option.some.inj hargs
    exact index_of_pos hok.1.2.2.2.2 hpos
  | voteReq args' => simp [hp] at hargs
  | voteRep args' reply => simp [hp] at hargs
  | appendReq args' => simp [hp] at hargs
  | appendRep args' reply => simp [hp] at hargs

/-- The snapshot beside the log that is saved now, and beside every one saved before. -/
theorem persisted (h : RaftOk codec raft g) {r : Fin n} {ps : Raft1.Persister n (Op n Q) D}
    (hps : ps.saves <:+ (raft.proc r).rf.persister.saves) (hpos : 0 < firstIndex ps) :
    ps.readSnapshot.bind codec.index = some (firstIndex ps) := by
  obtain ⟨saves⟩ := ps
  cases saves with
  | nil => exact absurd hpos (Nat.lt_irrefl 0)
  | cons saved earlier =>
    obtain ⟨hfirst, hsnap⟩ :=
      (h.coupled.node r).dur.saves.all saved (hps.subset List.mem_cons_self)
    have hindex : firstIndex (⟨saved :: earlier⟩ : Raft1.Persister n (Op n Q) D) =
        saved.1.lastIncludedIndex := hfirst
    rw [hindex] at hpos ⊢
    exact index_of_pos hsnap hpos

/-- What is saved now starts where the snapshot ends. -/
theorem snapFor (h : RaftOk codec raft g) (r : Fin n) :
    Raft1.SnapFor (indexService (Op n Q) codec) g (firstIndex (raft.proc r).rf.persister)
      (raft.proc r).rf.persister.readSnapshot := by
  have hn := h.coupled.node r
  have hfirst : firstIndex (raft.proc r).rf.persister = (raft.proc r).rf.lastIncludedIndex := by
    unfold firstIndex
    rw [hn.dur.logs]
    exact congrArg Raft1.LogEntry.index hn.log.first
  rw [hfirst]
  exact hn.dur.saves.snap

end RaftOk

/-! ## Steps -/

structure Inv (codec : Codec M.Bytes D) (s : State n M D) : Prop where
  raft : ∃ g, RaftOk codec s.raft g
  server : ∀ r, (s.server r).Ok codec (s.raft.proc r)
  panicked : s.panicked = none

section Step

variable {codec : Codec M.Bytes D} {s t : State n M D}

theorem Inv.initial {maxraftstate : Fin n → Int} (h : ∀ r, 0 < maxraftstate r) :
    Inv codec (State.initial n M D maxraftstate) where
  raft := ⟨_, .initial codec⟩
  server := fun r => .boot _ r (h r)
  panicked := rfl

theorem Inv.setServer (h : Inv codec s) {r : Fin n} {sv : Server n M D}
    (hsv : sv.Ok codec (s.raft.proc r)) : Inv codec (s.setServer r sv) where
  raft := h.raft
  server := (Function.forall_update_iff s.server fun j sv => sv.Ok codec (s.raft.proc j)).mpr
    ⟨hsv, fun j _ => h.server j⟩
  panicked := h.panicked

/-- A server calls Raft with what it has, and its snapshots are of the index delivered. -/
theorem Inv.event (h : Inv codec s) {a : RaftStep n} {e : Raft1.Event n (Op n Q) D}
    (he : s.event a = some e) : e.Allowed (indexService (Op n Q) codec) s.raft ∧
      ∀ k i T command, s.raft.Starts k i T command e → command ≠ none := by
  cases a with
  | start r c =>
    simp only [State.event] at he
    split at he
    · rename_i op _
      obtain rfl := Option.some.inj he
      refine ⟨trivial, ?_⟩
      rintro k i T command ⟨-, -, rfl⟩
      simp
    · contradiction
  | receive r =>
    obtain ⟨-, he⟩ := Option.ite_none_right_eq_some.mp he
    obtain rfl := Option.some.inj he
    exact ⟨trivial, fun _ _ _ _ hs => hs.elim⟩
  | snapshot r =>
    obtain ⟨args, hargs, rfl⟩ := Option.map_eq_some_iff.mp he
    obtain ⟨hposition, hindex⟩ := (h.server r).encoded args hargs
    obtain ⟨g, hg⟩ := h.raft
    refine ⟨?_, fun _ _ _ _ hs => hs.elim⟩
    show Raft1.Produced _ _ args.1 args.2
    rw [hposition] at hindex ⊢
    exact produced_of_index hg.coupled.inv (hg.coupled.node r).app hindex
  | _ =>
    obtain rfl := Option.some.inj he
    exact ⟨trivial, fun _ _ _ _ hs => hs.elim⟩

/-- The reader receives the message that brings the peer to its position. -/
theorem Inv.received (h : Inv codec s) {r : Fin n} {raft : Raft1.Cluster n (Op n Q) D}
    (hreading : (s.server r).reading = true) (hraft : s.raft.exec (.deliver r) = some raft)
    (j : Fin n) : (s.answer (.receive r) j).Ok codec (raft.proc j) := by
  obtain ⟨g, hg⟩ := h.raft
  simp only [Raft1.Cluster.exec] at hraft
  split at hraft
  · contradiction
  · rename_i msg hmsg
    obtain rfl := Option.some.inj hraft
    refine (Function.forall_update_iff s.server fun j sv => sv.Ok codec (Raft1.Cluster.proc _ j)).mpr
      ⟨?_, ?_⟩ j
    · simp only [Server.reading, Bool.and_eq_true, Option.isNone_iff_eq_none] at hreading
      obtain ⟨⟨⟨⟨hmade, -⟩, -⟩, hdue⟩, hencoded⟩ := hreading
      have hok := h.server r
      refine ⟨hok.limit, hok.fresh, ?_, ?_, ?_⟩
      · intro msg' hmsg'
        obtain rfl : msg = msg' := Option.some.inj (hmsg.symm.trans hmsg')
        refine ⟨hmade, hdue, hencoded, ?_, hg.handled hmsg⟩
        simp [Raft1.Cluster.set, Raft1.Process.position]
      · intro index hindex
        exact absurd (hdue.symm.trans hindex) (by simp)
      · intro args hargs
        exact absurd (hencoded.symm.trans hargs) (by simp)
    · intro j hj
      simpa [Raft1.Cluster.set, hj] using h.server j

theorem Inv.answer (h : Inv codec s) {a : RaftStep n} {e : Raft1.Event n (Op n Q) D}
    {raft : Raft1.Cluster n (Op n Q) D} (he : s.event a = some e) (hraft : s.raft.exec e = some raft)
    (j : Fin n) : (s.answer a j).Ok codec (raft.proc j) := by
  -- all but the delivery leave the positions alone
  have hstill : e.isDeliver = false → (s.answer a j).Ok codec (s.raft.proc j) →
      (s.answer a j).Ok codec (raft.proc j) :=
    fun hnot hok => hok.same_position (Raft1.position_same hraft hnot j)
  cases a with
  | start r c =>
    simp only [State.event] at he
    split at he
    · rename_i op hop
      obtain rfl := Option.some.inj he
      refine hstill rfl ?_
      cases hstarted : (s.server r).rsm.doSubmitStarted c
          ((s.raft.proc r).rf.start (some op)).2 with
      | none =>
        simp only [State.answer, State.answered, hop, hstarted, Option.map_none]
        exact h.server j
      | some rsm =>
        simp only [State.answer, State.answered, hop, hstarted, Option.map_some]
        exact (h.setServer ((h.server r).same_view (RSM.view_doSubmitStarted hstarted))).server j
    · contradiction
  | receive r =>
    obtain ⟨hreading, he⟩ := Option.ite_none_right_eq_some.mp he
    obtain rfl := Option.some.inj he
    exact h.received hreading hraft j
  | snapshot r =>
    obtain ⟨args, -, rfl⟩ := Option.map_eq_some_iff.mp he
    exact hstill rfl ((h.setServer (h.server r).handedOver).server j)
  | _ =>
    obtain rfl := Option.some.inj he
    exact hstill rfl (h.server j)

/-- The peer and the replica start again; the others do not notice. -/
theorem Inv.reboot (h : Inv codec s) {r : Fin n} {raft : Raft1.Cluster n (Op n Q) D}
    {g : Raft1.Ghost n (Op n Q) D} (hraft : RaftOk codec raft g)
    (hothers : ∀ j, j ≠ r → raft.proc j = s.raft.proc j) : Inv codec (s.reboot r raft) where
  raft := ⟨g, hraft⟩
  server := by
    refine (Function.forall_update_iff s.server fun j sv => sv.Ok codec (raft.proc j)).mpr ⟨?_, ?_⟩
    · exact .boot _ r (h.server r).limit
    · intro j hj
      rw [hothers j hj]
      exact h.server j
  panicked := h.panicked

theorem Inv.handleMsg (h : Inv codec s) {r : Fin n} {large : Bool}
    (ht : s.act codec (.handleMsg r large) = some t) : Inv codec t := by
  simp only [State.act] at ht
  split at ht
  · contradiction
  · rename_i msg hmsg
    have hok := h.server r
    split at ht
    · obtain rfl := Option.some.inj ht
      refine h.setServer (hok.dealtWith hmsg rfl rfl ?_ true)
      intro index hindex
      exact absurd ((hok.received msg hmsg).2.1.symm.trans hindex) (by simp)
    · obtain ⟨rsm, hreader, hrsm⟩ := hok.reader hmsg large
      rw [hreader] at ht
      obtain rfl := Option.some.inj ht
      exact h.setServer hrsm

/-- `MakeRSM` reads the snapshot of the log that is saved at that moment. -/
theorem Inv.reads (h : Inv codec s) {r : Fin n} (hmade : (s.server r).rsm.made = false) :
    ∃ rsm, s.act codec (.readSnapshot r) = some (s.setServer r { s.server r with rsm := rsm }) ∧
      rsm.made = true ∧ rsm.lastApplied = firstIndex (s.raft.proc r).rf.persister ∧
      Inv codec (s.setServer r { s.server r with rsm := rsm }) := by
  obtain ⟨g, hg⟩ := h.raft
  obtain ⟨rsm, hread, hnow, hat, hok⟩ := (h.server r).readSnapshot hmade (hg.snapFor r)
  refine ⟨rsm, ?_, hnow, hat, h.setServer hok⟩
  simp only [State.act, hmade, hread]
  rfl

theorem Inv.act (h : Inv codec s) {a : Action n Q} (ht : s.act codec a = some t) :
    Inv codec t := by
  obtain ⟨g, hg⟩ := h.raft
  cases a with
  | raft a =>
    obtain ⟨e, he, ht⟩ := Option.bind_eq_some_iff.mp ht
    obtain ⟨raft, hraft, rfl⟩ := Option.map_eq_some_iff.mp ht
    obtain ⟨hallowed, hops⟩ := h.event he
    exact ⟨hg.step (x := .event e) hraft hallowed hops, h.answer he hraft, h.panicked⟩
  | call r a =>
    obtain ⟨-, ht⟩ := Option.ite_none_left_eq_some.mp ht
    obtain ⟨rsm, hrsm, rfl⟩ := Option.map_eq_some_iff.mp ht
    exact h.setServer ((h.server r).same_view (view_callStep hrsm))
  | handleMsg r large => exact h.handleMsg ht
  | createSnapshot r =>
    simp only [State.act] at ht
    split at ht
    · contradiction
    · rename_i index hindex
      obtain rfl := Option.some.inj ht
      exact h.setServer ((h.server r).createSnapshot hindex)
  | snapshotKilled r =>
    obtain ⟨-, ht⟩ := Option.ite_none_right_eq_some.mp ht
    obtain rfl := Option.some.inj ht
    exact h.setServer (h.server r).handedOver
  | crash r =>
    simp only [State.act, Option.map_eq_some_iff] at ht
    obtain ⟨raft, hraft, rfl⟩ := ht
    obtain ⟨g', hg'⟩ := hg.step hraft trivial fun _ _ _ _ hputs => hputs.elim
    refine h.reboot hg' fun j hj => ?_
    obtain rfl := Option.some.inj hraft
    exact Function.update_of_ne hj _ _
  | crashIn r a k =>
    obtain ⟨e, he, ht⟩ := Option.bind_eq_some_iff.mp ht
    obtain ⟨raft, hraft, rfl⟩ := Option.map_eq_some_iff.mp ht
    obtain ⟨hallowed, hops⟩ := h.event he
    obtain ⟨g', hg'⟩ := hg.step (x := .crashIn r e k) hraft hallowed
      fun k' i T command hputs => hops k' i T command hputs.2.2
    refine h.reboot hg' fun j hj => ?_
    simp only [Raft1.Cluster.step] at hraft
    split at hraft
    · contradiction
    · obtain ⟨-, hraft⟩ := Option.ite_none_right_eq_some.mp hraft
      obtain rfl := Option.some.inj hraft
      exact Function.update_of_ne hj _ _
  | readSnapshot r =>
    cases hmade : (s.server r).rsm.made with
    | true =>
      simp only [State.act, hmade] at ht
      contradiction
    | false =>
      obtain ⟨rsm, hact, -, -, hinv⟩ := h.reads hmade
      rw [hact] at ht
      obtain rfl := Option.some.inj ht
      exact hinv

end Step

/-! ## Runs -/

/-- The snapshots and the logs that go with them say the same index. -/
structure Aligned (codec : Codec M.Bytes D) (s : State n M D) : Prop where
  /-- Beside the log that is saved, now or after any earlier save. -/
  persisted : ∀ r, ∀ ps : Raft1.Persister n (Op n Q) D,
    ps.saves <:+ (s.raft.proc r).rf.persister.saves → 0 < firstIndex ps →
    ps.readSnapshot.bind codec.index = some (firstIndex ps)
  installing : ∀ m ∈ s.raft.net, ∀ args, installArgs m = some args →
    args.data.bind codec.index = some args.lastIncludedIndex
  pending : ∀ r msg, (s.raft.proc r).rf.pendingSnapshot = some msg →
    msg.snapshot.bind codec.index = some msg.snapshotIndex
  noPanic : s.panicked = none
  /-- A server that is being made gets to read the snapshot, and starts from the log saved then. -/
  restarting : ∀ r, (s.server r).rsm.made = false → ∃ t, s.step codec (.readSnapshot r) = some t ∧
    t.panicked = none ∧ (t.server r).rsm.made = true ∧
    (t.server r).rsm.lastApplied = firstIndex (s.raft.proc r).rf.persister

theorem Inv.aligned {codec : Codec M.Bytes D} {s : State n M D} (h : Inv codec s) :
    Aligned codec s := by
  obtain ⟨g, hg⟩ := h.raft
  refine ⟨fun r ps => hg.persisted, fun m hm args => hg.installing hm, fun r msg => hg.pending,
    h.panicked, ?_⟩
  intro r hmade
  obtain ⟨rsm, hact, hnow, hat, hinv⟩ := h.reads hmade
  refine ⟨_, ?_, hinv.panicked, ?_, ?_⟩
  · unfold State.step
    rw [h.panicked]
    exact hact
  · simpa [State.setServer] using hnow
  · simpa [State.setServer] using hat

/-- In every state of every run of servers with a limit on the Raft state: the snapshot beside a log
that starts beyond 0 is of the index it starts from, those under way and pending are of the index
they are sent under, no server panics, and one that restarts is where its saved log starts. -/
theorem snapshots_aligned {codec : Codec M.Bytes D} {maxraftstate : Fin n → Int}
    (hlimit : ∀ r, 0 < maxraftstate r) {tr : List (State n M D × Action n Q)} {s : State n M D}
    (h : Run codec maxraftstate tr s) : ∀ u ∈ visited tr s, Aligned codec u := by
  have hinv : ∀ u ∈ visited tr s, Inv codec u := by
    refine Lts.Run.invariant ?_ h (.initial hlimit)
    intro u a v hu hstep
    obtain ⟨-, hact⟩ := Option.ite_none_left_eq_some.mp hstep
    exact hu.act hact
  exact fun u hu => (hinv u hu).aligned

/-! ## A run of three servers

Over the machine that keeps its requests, with an encoding that keeps the three values. -/

section Sample

def plainCodec : Codec (List Nat) (Blob (List Nat)) where
  encode := id
  decode := some
  decode_encode := fun _ => rfl

def sampleStart : State 3 listMachine (Blob (List Nat)) :=
  State.initial 3 listMachine (Blob (List Nat)) fun _ => 1000

/-- Server `r` is elected by `r'`, executes a request that `r'` has stored, and takes a snapshot of
it. That goes to `r''`, where `raft.Make` has returned and `MakeRSM` has not read the snapshot. -/
def sendingSnapshot (r r' r'' : Fin 3) : List (Action 3 Nat) :=
  [.readSnapshot r, .readSnapshot r', .raft (.electionTimeout r), .raft (.handle 0),
    .raft (.handle 0), .call r (.submit 5), .call r (.number 0), .raft (.start r 0),
    .call r (.register 0), .raft (.send r r'), .raft (.handle 0), .raft (.handle 0),
    .raft (.applier r), .raft (.receive r), .handleMsg r true, .createSnapshot r,
    .raft (.snapshot r), .raft (.send r r'')]

def sampleAt (as : List (Action 3 Nat)) : State 3 listMachine (Blob (List Nat)) :=
  after (State.step plainCodec) sampleStart as

theorem sample_run (as : List (Action 3 Nat))
    (h : enabled (State.step plainCodec) (fun _ => true) sampleStart as = true) :
    Run plainCodec (fun _ => 1000) (traceOf (State.step plainCodec) sampleStart as) (sampleAt as) :=
  Lts.run_of_steps (fun _ _ _ hstep => hstep) h

/-- The snapshot is on its way, and then at `r''`: saved, pending, and where `MakeRSM` starts. -/
theorem snapshots_aligned_sample :
    (∃ m ∈ (sampleAt (sendingSnapshot 0 1 2)).raft.net, ∃ args, installArgs m = some args ∧
      args.lastIncludedIndex = 1 ∧ args.data.bind plainCodec.index = some 1) ∧
    firstIndex ((sampleAt (sendingSnapshot 0 1 2 ++ [.raft (.handle 0)])).raft.proc 2).rf.persister
      = 1 ∧
    ((sampleAt (sendingSnapshot 0 1 2 ++ [.raft (.handle 0)])).raft.proc
      2).rf.persister.readSnapshot.bind plainCodec.index = some 1 ∧
    ∃ t, (sampleAt (sendingSnapshot 0 1 2 ++ [.raft (.handle 0)])).step plainCodec
      (.readSnapshot 2) = some t ∧ (t.server 2).rsm.lastApplied = 1 := by
  have hrun := sample_run (sendingSnapshot 0 1 2 ++ [.raft (.handle 0)]) (by decide)
  have haligned := snapshots_aligned (fun _ => by decide) hrun
  have hsent := haligned _ (after_mem_visited sampleStart (sendingSnapshot 0 1 2) _)
  have hhandled := haligned (sampleAt (sendingSnapshot 0 1 2 ++ [.raft (.handle 0)]))
    (by simp [visited])
  have hfirst : firstIndex ((sampleAt (sendingSnapshot 0 1 2 ++ [.raft (.handle 0)])).raft.proc
    2).rf.persister = 1 := by decide
  refine ⟨?_, hfirst, ?_, ?_⟩
  · have hfound : ((sampleAt (sendingSnapshot 0 1 2)).raft.net.findSome? installArgs).map
        Raft1.InstallSnapShotArgs.lastIncludedIndex = some 1 := by decide
    obtain ⟨args, hargs, hindex⟩ := Option.map_eq_some_iff.mp hfound
    obtain ⟨m, hm, hinstall⟩ := List.exists_of_findSome?_eq_some hargs
    refine ⟨m, hm, args, hinstall, hindex, ?_⟩
    exact (hsent.installing m hm args hinstall).trans (congrArg some hindex)
  · have hsaved := hhandled.persisted 2 _ (List.suffix_refl _) (hfirst ▸ Nat.one_pos)
    exact hsaved.trans (congrArg some hfirst)
  · obtain ⟨t, ht, -, -, hat⟩ := hhandled.restarting 2 (by decide)
    exact ⟨t, ht, hat.trans hfirst⟩

end Sample

end DistSys.Rsm.Deployed
