import DistSys.Kvraft1.Service
import DistSys.Rsm.Requests
import DistSys.Rsm.Abstraction
import DistSys.Rsm.Alignment

/- How the store over one agreed log stands behind replicas that run on a safe Raft.

   The log is the agreed log of Raft, a replica of the store is what the state machine of its server
   is, and the snapshots are those that servers have encoded (`Backs`). A server relies on little of
   what the others do: that nothing agreed, handed over or computed for it is lost (`Grows`). -/
namespace DistSys.Kvraft1

open Lib
open Rsm.Deployed (Codec)

variable {n : Nat} {D : Type}

/-- The safe Raft under the replicas. -/
abbrev Agreement (n : Nat) (D : Type) := Rsm.SafeRaft n (Option (Rsm.Op n Command)) D

/-- The bytes are of a snapshot that the store has taken at that index. -/
def Taken (codec : Codec (Option SnapshotData) D) (b : State) (index : Nat) (bytes : D) : Prop :=
  ∃ (blob : Rsm.Blob (Option SnapshotData)) (data : SnapshotData), codec.decode bytes = some blob ∧
    blob.lastApplied = index ∧ blob.smSnapshot = some data ∧ (data, index) ∈ b.snapshots

/-- A successful `Start` of a server. -/
def Begun (c : Agreement n D) (r : Fin n) (index term : Nat) (op : Rsm.Op n Command) : Prop :=
  ⟨r, index, term, some op⟩ ∈ c.started

/-- What server `r` has found as the result of its own op, with the log executed up to `applied`. -/
structure Computed (c : Agreement n D) (b : State) (r : Fin n) (applied index term : Nat)
    (op : Rsm.Op n Command) (v : Option RaftReplyMsg) : Prop where
  pos : 0 < index
  applied : index ≤ applied
  server : op.req.2.server = r
  agreed : c.agreed[index - 1]? = some (term, some op)
  result : ∃ result, v = some result ∧ b.results op.req.1 = some result

/-- A server, with what Raft and the store have of it. -/
structure ServerMatch (codec : Codec (Option SnapshotData) D) (c : Agreement n D) (b : State)
    (r : Fin n) (sv : Rsm.Deployed.Server n kvMachine D) : Prop where
  replica : b.replicas r = ⟨sv.rsm.sm, sv.rsm.lastApplied⟩
  ok : sv.rsm.Ok (Begun c r) (Computed c b r sv.rsm.lastApplied) r
  unmade : sv.rsm.made = false → c.position r ≤ c.savedIndex r
  /-- The reader leaves no gap behind `lastApplied`. -/
  idle : sv.rsm.made = true → sv.readerDone = false → sv.received = none →
    c.position r ≤ sv.rsm.lastApplied
  command : ∀ msg op, sv.received = some msg → msg.commandValid = true → msg.command = some op →
    0 < msg.commandIndex ∧ msg.commandIndex ≤ sv.rsm.lastApplied + 1 ∧
      c.position r = msg.commandIndex ∧ ∃ term, c.agreed[msg.commandIndex - 1]? = some (term, some op)
  snapshot : ∀ msg, sv.received = some msg → msg.commandValid = false →
    msg.snapshotValid = true ∧ c.position r = msg.snapshotIndex ∧
      ∃ bytes, msg.snapshot = some bytes ∧ (msg.snapshotIndex, bytes) ∈ c.taken
  encoded : ∀ args, sv.encoded = some args → Taken codec b args.1 args.2

/-- The log and the snapshots. -/
structure Logged (codec : Codec (Option SnapshotData) D) (c : Agreement n D) (b : State) : Prop where
  log : b.log.map some = c.agreed.map fun entry => entry.2.map Rsm.Op.req
  agreed : c.AgreedStarted
  taken : ∀ index bytes, (index, bytes) ∈ c.taken → Taken codec b index bytes
  saved : ∀ r x, c.saved r = some x → x ∈ c.taken

structure Backs (codec : Codec (Option SnapshotData) D) (c : Agreement n D) (b : State)
    (server : Fin n → Rsm.Deployed.Server n kvMachine D) : Prop extends Logged codec c b where
  server : ∀ r, ServerMatch codec c b r (server r)

/-- Every command that was started is of an RPC to that server, and of one that no other is of. -/
structure OfRpcs (sent : List Request) (c : Agreement n D) : Prop where
  sent : ∀ x ∈ c.started, ∃ op, x.command = some op ∧ sent[op.req.1]? = some op.req.2 ∧
    op.req.2.server = x.server
  once : ∀ x ∈ c.started, ∀ y ∈ c.started, ∀ op op', x.command = some op → y.command = some op' →
    op.req.1 = op'.req.1 → x = y

/-- What a server relies on. -/
structure Grows (r : Fin n) (c c' : Agreement n D) (b b' : State) : Prop where
  started : ∀ x ∈ c.started, x ∈ c'.started
  agreed : c.agreed <+: c'.agreed
  taken : ∀ x ∈ c.taken, x ∈ c'.taken
  position : c'.position r = c.position r
  saved : c.savedIndex r ≤ c'.savedIndex r
  replica : b'.replicas r = b.replicas r
  snapshots : ∀ x ∈ b.snapshots, x ∈ b'.snapshots
  results : ∀ index term op v, Computed c b r (b.replicas r).applied index term op v →
    b'.results op.req.1 = b.results op.req.1

section Server

variable {codec : Codec (Option SnapshotData) D} {c c' : Agreement n D} {b b' : State} {r : Fin n}
  {sv : Rsm.Deployed.Server n kvMachine D}

theorem Taken.mono {index : Nat} {bytes : D} (h : Taken codec b index bytes)
    (hs : ∀ x ∈ b.snapshots, x ∈ b'.snapshots) : Taken codec b' index bytes := by
  obtain ⟨blob, data, hdecode, hindex, hdata, hmem⟩ := h
  exact ⟨blob, data, hdecode, hindex, hdata, hs _ hmem⟩

theorem Computed.mono {applied applied' index term : Nat} {op : Rsm.Op n Command}
    {v : Option RaftReplyMsg} (h : Computed c b r applied index term op v)
    (hagreed : c.agreed <+: c'.agreed) (hle : applied ≤ applied')
    (hresults : b'.results op.req.1 = b.results op.req.1) :
    Computed c' b' r applied' index term op v where
  pos := h.pos
  applied := h.applied.trans hle
  server := h.server
  agreed := getElem?_of_isPrefix hagreed h.agreed
  result := by
    rw [hresults]
    exact h.result

theorem Grows.refl (r : Fin n) (c : Agreement n D) (b : State) : Grows r c c b b where
  started := fun _ hx => hx
  agreed := List.prefix_rfl
  taken := fun _ hx => hx
  position := rfl
  saved := le_rfl
  replica := rfl
  snapshots := fun _ hx => hx
  results := fun _ _ _ _ _ => rfl

/-- A server does not notice what the others do. -/
theorem ServerMatch.mono (h : ServerMatch codec c b r sv) (hg : Grows r c c' b b') :
    ServerMatch codec c' b' r sv where
  replica := hg.replica.trans h.replica
  ok := by
    refine h.ok.mono (fun index term op hbegun => hg.started _ hbegun) ?_
    intro index term op v hcomputed
    refine hcomputed.mono hg.agreed le_rfl (hg.results index term op v ?_)
    rw [h.replica]
    exact hcomputed
  unmade := fun hmade => by
    rw [hg.position]
    exact (h.unmade hmade).trans hg.saved
  idle := by
    rw [hg.position]
    exact h.idle
  command := fun msg op hmsg hvalid hop => by
    obtain ⟨hpos, hle, hat, term, hentry⟩ := h.command msg op hmsg hvalid hop
    exact ⟨hpos, hle, hg.position.trans hat, term, getElem?_of_isPrefix hg.agreed hentry⟩
  snapshot := fun msg hmsg hvalid => by
    obtain ⟨hmarked, hat, bytes, hbytes, hmem⟩ := h.snapshot msg hmsg hvalid
    exact ⟨hmarked, hg.position.trans hat, bytes, hbytes, hg.taken _ hmem⟩
  encoded := fun args hargs => (h.encoded args hargs).mono hg.snapshots

/-- A step of the calls. -/
theorem ServerMatch.same_view (h : ServerMatch codec c b r sv) {rsm : Rsm.RSM n kvMachine}
    (hview : rsm.view = sv.rsm.view)
    (hok : rsm.Ok (Begun c r) (Computed c b r sv.rsm.lastApplied) r) :
    ServerMatch codec c b r { sv with rsm := rsm } := by
  have hsm : rsm.sm = sv.rsm.sm := congrArg Rsm.View.sm hview
  have happlied : rsm.lastApplied = sv.rsm.lastApplied := congrArg Rsm.View.lastApplied hview
  have hmade : rsm.made = sv.rsm.made := congrArg Rsm.View.made hview
  refine ⟨?_, ?_, ?_, ?_, ?_, h.snapshot, h.encoded⟩
  · rw [hsm, happlied]
    exact h.replica
  · rw [happlied]
    exact hok
  · rw [hmade]
    exact h.unmade
  · rw [hmade, happlied]
    exact h.idle
  · rw [happlied]
    exact h.command

/-- `Snapshot` returned. -/
theorem ServerMatch.handedOver (h : ServerMatch codec c b r sv) :
    ServerMatch codec c b r { sv with encoded := none } where
  replica := h.replica
  ok := h.ok
  unmade := h.unmade
  idle := h.idle
  command := h.command
  snapshot := h.snapshot
  encoded := fun _ hargs => by contradiction

end Server

/-! ## The log -/

section Log

variable {codec : Codec (Option SnapshotData) D} {c c' : Agreement n D} {b b' : State}

/-- The entries of the log are the agreed ones. -/
theorem Logged.log_at (h : Logged codec c b) {i term : Nat} {op : Rsm.Op n Command}
    (hentry : c.agreed[i]? = some (term, some op)) : b.log[i]? = some op.req := by
  have hat := congrArg (fun l => l[i]?) h.log
  simp only [List.getElem?_map, hentry] at hat
  obtain ⟨entry, hlog, heq⟩ := Option.map_eq_some_iff.mp hat
  rw [hlog, heq]
  rfl

theorem Logged.agreed_at (h : Logged codec c b) {i : Nat} {entry : Command}
    (hentry : b.log[i]? = some entry) :
    ∃ term op, c.agreed[i]? = some (term, some op) ∧ op.req = entry := by
  have hat := congrArg (fun l => l[i]?) h.log
  simp only [List.getElem?_map, hentry, Option.map_some] at hat
  obtain ⟨⟨term, command⟩, hagreed, heq⟩ := Option.map_eq_some_iff.mp hat.symm
  obtain ⟨op, rfl, hreq⟩ := Option.map_eq_some_iff.mp heq
  exact ⟨term, op, hagreed, hreq⟩

/-- An RPC has one place in the log. -/
theorem OfRpcs.agreed_once {sent : List Request} (h : OfRpcs sent c) (hagreed : c.AgreedStarted)
    {i j term term' : Nat} {op op' : Rsm.Op n Command} (hi : c.agreed[i]? = some (term, some op))
    (hj : c.agreed[j]? = some (term', some op')) (heq : op.req.1 = op'.req.1) : i = j ∧ op = op' := by
  obtain ⟨x, hx, hxi, -, hxop⟩ := hagreed i _ hi
  obtain ⟨y, hy, hyj, -, hyop⟩ := hagreed j _ hj
  obtain rfl := h.once x hx y hy op op' hxop hyop heq
  refine ⟨by omega, ?_⟩
  rw [hxop] at hyop
  exact Option.some.inj hyop

/-- What is agreed on goes to the end of the log, if it is not there yet. -/
theorem Logged.commit (h : Logged codec c b) (ho : OfRpcs b.sent c) {k : Nat}
    (hs : c.commit k = some c') : ∃ a b', b.step n (.commit a) = some b' ∧ Logged codec c' b' ∧
      ∃ entry, b' = { b with log := b.log ++ [entry] } := by
  have hagreed := h.agreed.commit hs
  obtain ⟨x, hx, hindex, rfl⟩ := Rsm.SafeRaft.commit_eq hs
  have hmem := List.mem_of_getElem? hx
  obtain ⟨op, hop, hsent, -⟩ := ho.sent x hmem
  have hnew : ∀ entry ∈ b.log, entry.1 ≠ op.req.1 := by
    intro entry hentry heq
    obtain ⟨i, hi⟩ := List.mem_iff_getElem?.mp hentry
    obtain ⟨term, op', hat, rfl⟩ := h.agreed_at hi
    obtain ⟨y, hy, hyi, -, hyop⟩ := h.agreed i _ hat
    obtain rfl := ho.once y hy x hmem op' op hyop hop heq
    have hlt := (List.getElem?_eq_some_iff.mp hat).1
    omega
  refine ⟨op.req.1, { b with log := b.log ++ [op.req] }, ?_, ⟨?_, hagreed, h.taken, h.saved⟩, _, rfl⟩
  · simp only [State.step, hsent, Option.bind_some]
    rw [if_pos hnew]
  · simp [h.log, hop]

theorem Logged.start (h : Logged codec c b) {r : Fin n} {index term : Nat}
    {command : Option (Rsm.Op n Command)} (hs : c.start r index term command = some c') :
    Logged codec c' b := by
  have hagreed := h.agreed.start hs
  obtain rfl := Rsm.SafeRaft.start_eq hs
  exact ⟨h.log, hagreed, h.taken, h.saved⟩

/-- A snapshot that was handed over is saved at a replica. -/
theorem Logged.save (h : Logged codec c b) {r : Fin n} {x : Nat × D} {taken : List (Nat × D)}
    (hx : x ∈ taken) (hold : ∀ y ∈ c.taken, y ∈ taken)
    (htaken : ∀ index bytes, (index, bytes) ∈ taken → Taken codec b index bytes) :
    Logged codec { c with taken := taken, saved := Function.update c.saved r (some x) } b where
  log := h.log
  agreed := h.agreed
  taken := htaken
  saved := by
    refine (Function.forall_update_iff c.saved fun _ o => ∀ x, o = some x → x ∈ taken).mpr ⟨?_, ?_⟩
    · intro y hy
      obtain rfl := Option.some.inj hy
      exact hx
    · exact fun j _ y hy => hold y (h.saved j y hy)

theorem savedIndex_update (c : Agreement n D) (r j : Fin n) (x : Nat × D) (taken : List (Nat × D)) :
    Rsm.SafeRaft.savedIndex { c with taken := taken, saved := Function.update c.saved r (some x) } j =
      if j = r then x.1 else c.savedIndex j := by
  by_cases hj : j = r
  · subst hj
    simp [Rsm.SafeRaft.savedIndex]
  · simp [Rsm.SafeRaft.savedIndex, hj]

/-- A newer snapshot is saved at a replica. -/
theorem Grows.save (j : Fin n) {r : Fin n} {x : Nat × D} {taken : List (Nat × D)}
    (hnew : c.savedIndex r ≤ x.1) (hold : ∀ y ∈ c.taken, y ∈ taken) :
    Grows j c { c with taken := taken, saved := Function.update c.saved r (some x) } b b where
  started := fun _ hy => hy
  agreed := List.prefix_rfl
  taken := hold
  position := rfl
  saved := by
    rw [savedIndex_update]
    split
    · rename_i hj
      rw [hj]
      exact hnew
    · exact le_rfl
  replica := rfl
  snapshots := fun _ hy => hy
  results := fun _ _ _ _ _ => rfl

end Log

/-! ## The store behind all servers -/

/-- The clerks and the network are the same. -/
def SameFront (b b' : State) : Prop :=
  b'.clerks = b.clerks ∧ b'.sent = b.sent ∧ b'.replies = b.replies

/-- The store can go on to another state, with these calls and returns on the way. -/
def Reaches (n : Nat) (b b' : State) (events : List (Event (Int64 × Nat) Kvsrv1.Op Kvsrv1.Reply)) :
    Prop :=
  ∃ tr, (kvraft n).Run b tr b' ∧ history tr = events

namespace Reaches

variable {b b' b'' : State}

theorem refl (n : Nat) (b : State) : Reaches n b b [] := ⟨[], .nil, rfl⟩

theorem trans {es es' : List (Event (Int64 × Nat) Kvsrv1.Op Kvsrv1.Reply)} (h : Reaches n b b' es)
    (h' : Reaches n b' b'' es') : Reaches n b b'' (es ++ es') := by
  obtain ⟨tr, hrun, rfl⟩ := h
  obtain ⟨tr', hrun', rfl⟩ := h'
  exact ⟨tr ++ tr', hrun.append hrun', List.filterMap_append⟩

theorem step {a : Action} (h : b.step n a = some b') : Reaches n b b' (event (b, a)).toList := by
  refine ⟨[(b, a)], Lts.Run.single (M := kvraft n) h, ?_⟩
  cases he : event (b, a) with
  | none => simp [history, he]
  | some e => simp [history, he]

/-- A step that is not a call and not a return. -/
theorem silent {a : Action} (h : b.step n a = some b') (hnone : event (b, a) = none) :
    Reaches n b b' [] := by
  have hreach := step h
  rwa [hnone] at hreach

end Reaches

section Store

variable {codec : Codec (Option SnapshotData) D} {c c' : Agreement n D} {b b' : State}
  {server : Fin n → Rsm.Deployed.Server n kvMachine D}

theorem Backs.grow (h : Backs codec c b server) (hlogged : Logged codec c' b')
    (hg : ∀ j, Grows j c c' b b') : Backs codec c' b' server :=
  ⟨hlogged, fun j => (h.server j).mono (hg j)⟩

/-- One server changes. -/
theorem Backs.update (h : Backs codec c b server) {r : Fin n}
    {sv : Rsm.Deployed.Server n kvMachine D} (hlogged : Logged codec c' b')
    (hr : ServerMatch codec c' b' r sv) (hg : ∀ j, j ≠ r → Grows j c c' b b') :
    Backs codec c' b' (Function.update server r sv) where
  toLogged := hlogged
  server := (Function.forall_update_iff server fun j sv => ServerMatch codec c' b' j sv).mpr
    ⟨hr, fun j hj => (h.server j).mono (hg j hj)⟩

/-- What Raft does on its own is followed by the store. -/
theorem Backs.internal (h : Backs codec c b server) (ho : OfRpcs b.sent c)
    {l : Rsm.SafeRaft.Label n (Option (Rsm.Op n Command)) D} (hl : l.isVisible = false)
    (hs : Rsm.SafeRaft.Step c l c') :
    ∃ b', Reaches n b b' [] ∧ Backs codec c' b' server ∧ SameFront b b' ∧
      c'.started = c.started := by
  cases hs with
  | commit hs =>
    obtain ⟨a, b', hstep, hlogged, entry, rfl⟩ := h.toLogged.commit ho hs
    obtain ⟨x, -, -, rfl⟩ := Rsm.SafeRaft.commit_eq hs
    refine ⟨_, .silent hstep rfl, h.grow hlogged fun j => ?_, ⟨rfl, rfl, rfl⟩, rfl⟩
    exact { Grows.refl j c b with agreed := List.prefix_append _ _ }
  | @install r k _ hs =>
    simp only [Rsm.SafeRaft.install] at hs
    split at hs
    · rename_i index bytes hk
      obtain ⟨hlt, hs⟩ := Option.ite_none_left_eq_some.mp hs
      obtain rfl := Option.some.inj hs
      have hmem := List.mem_of_getElem? hk
      refine ⟨b, .refl n b, h.grow ?_ fun j => ?_, ⟨rfl, rfl, rfl⟩, rfl⟩
      · exact h.toLogged.save hmem (fun _ hy => hy) h.taken
      · exact Grows.save j (by omega) fun _ hy => hy
    · contradiction
  | _ => contradiction

theorem Backs.follow (h : Backs codec c b server) (ho : OfRpcs b.sent c)
    {tr : List (Agreement n D × Rsm.SafeRaft.Label n (Option (Rsm.Op n Command)) D)}
    (hrun : (Rsm.SafeRaft.lts n (Option (Rsm.Op n Command)) D).Run c tr c')
    (hseen : Rsm.SafeRaft.seen tr = []) :
    ∃ b', Reaches n b b' [] ∧ Backs codec c' b' server ∧ SameFront b b' ∧
      c'.started = c.started := by
  induction hrun with
  | nil => exact ⟨b, .refl n b, h, ⟨rfl, rfl, rfl⟩, rfl⟩
  | @snoc tr u w l hrun hstep ih =>
    rw [Rsm.SafeRaft.seen_append, List.append_eq_nil_iff, Rsm.SafeRaft.seen_single] at hseen
    obtain ⟨b₁, hreach₁, hbacks₁, hfront₁, hstarted₁⟩ := ih hseen.1
    have hl : l.isVisible = false := by
      by_contra hvisible
      rw [if_pos (by simpa using hvisible)] at hseen
      simp at hseen
    have ho₁ : OfRpcs b₁.sent u := by
      rw [hfront₁.2.1]
      refine ⟨?_, ?_⟩
      · rw [hstarted₁]
        exact ho.sent
      · rw [hstarted₁]
        exact ho.once
    obtain ⟨b₂, hreach₂, hbacks₂, hfront₂, hstarted₂⟩ := hbacks₁.internal ho₁ hl hstep
    refine ⟨b₂, hreach₁.trans hreach₂, hbacks₂, ?_, hstarted₂.trans hstarted₁⟩
    exact ⟨hfront₂.1.trans hfront₁.1, hfront₂.2.1.trans hfront₁.2.1, hfront₂.2.2.trans hfront₁.2.2⟩

end Store

end DistSys.Kvraft1
