import DistSys.Raft1.Events
import DistSys.Raft1.Held

/- Every action of the cluster is matched by steps of the protocol.

   Put together from the handlers: an event acts at one peer and moves the
   protocol by steps of that peer (`coupled_exec`); a crash inside an event stands
   for the part of those steps that was saved (`coupled_step`). Along a run the
   protocol state only grows, so facts about different moments of one run can be
   compared in its last protocol state (`Run.coupled`). -/
namespace DistSys.Raft1

open Lib

variable {n : Nat} {C D : Type} {svc : Service C D} {s t : Cluster n C D} {g : Ghost n C D}

/-! ## Events -/

/-- The peer an event acts at, if any. -/
def Cluster.actor (s : Cluster n C D) : Event n C D → Option (Fin n)
  | .electionTimeout me => some me
  | .start me _ => some me
  | .send _ _ => none
  | .handle k => (s.net[k]?).map fun m => match m.payload with
    | .voteReq _ => m.server
    | .appendReq _ => m.server
    | .snapReq _ => m.server
    | .voteRep _ _ => m.caller
    | .appendRep _ _ => m.caller
    | .snapRep _ _ => m.caller
  | .lose _ => none
  | .snapshot me _ _ => some me
  | .applier me => some me
  | .deliver me => some me

/-- An event puts the entry of an accepted `Start`, and no other. -/
def Cluster.Starts (s : Cluster n C D) (k : Fin n) (i T : Nat) (a : Option C) : Event n C D → Prop
  | .start me command => k = me ∧ ((s.proc me).rf.start command).2 = some (i + 1, T) ∧ a = command
  | _ => False

theorem Cluster.Starts.actor {k : Fin n} {i T : Nat} {a : Option C} {e : Event n C D}
    (h : s.Starts k i T a e) : s.actor e = some k := by
  cases e with
  | start me command => exact congrArg some h.1.symm
  | _ => exact h.elim

theorem Moves.put_iff {me : Fin n} {g' : Ghost n C D} (h : Moves me g g') {k : Fin n} {i T : Nat}
    {a : Option C} : g'.core.Put k i T a ↔ g.core.Put k i T a :=
  ⟨fun hp => h.quiet hp, fun hp => hp.ext h.frame.ext⟩

/-- A message handled is coupled with the peer that handles it. -/
theorem coupled_handle (h : Coupled svc s g) {k : Nat} (ht : s.exec (.handle k) = some t) :
    ∃ me g', s.actor (.handle k) = some me ∧ Moves me g g' ∧ Coupled svc t g' := by
  simp only [Cluster.exec, Option.map_eq_some_iff] at ht
  obtain ⟨m, hm, rfl⟩ := ht
  have hperm := perm_eraseIdx hm
  simp only [Cluster.actor, hm, Option.map_some]
  cases hp : m.payload with
  | voteReq args =>
    obtain ⟨g', hmv, hc⟩ := coupled_requestVote h hperm hp
    exact ⟨_, g', rfl, hmv, hc⟩
  | voteRep args reply =>
    obtain ⟨g', hmv, hc⟩ := coupled_voteReply h hperm hp
    exact ⟨_, g', rfl, hmv, hc⟩
  | appendReq args =>
    obtain ⟨g', hmv, hc⟩ := coupled_appendEntry h hperm hp
    exact ⟨_, g', rfl, hmv, hc⟩
  | appendRep args reply =>
    obtain ⟨g', hmv, hc⟩ := coupled_appendReply h hperm hp
    exact ⟨_, g', rfl, hmv, hc⟩
  | snapReq args =>
    obtain ⟨g', hmv, hc⟩ := coupled_installSnapShot h hperm hp
    exact ⟨_, g', rfl, hmv, hc⟩
  | snapRep args reply =>
    obtain ⟨g', hmv, hc⟩ := coupled_snapShotReply h hperm hp
    exact ⟨_, g', rfl, hmv, hc⟩

/-- Every event moves the protocol by steps of the peer it acts at. -/
theorem coupled_exec (h : Coupled svc s g) {e : Event n C D} (ht : s.exec e = some t)
    (ha : e.Allowed svc s) (hprod : ∀ me i d, e = .snapshot me i d → g.produced i d) :
    (s.actor e = none ∧ Coupled svc t g) ∨
      ∃ me g', s.actor e = some me ∧ Evolves me g g' ∧ Coupled svc t g' ∧
        ∀ k i T a, g'.core.Put k i T a ↔ g.core.Put k i T a ∨ s.Starts k i T a e := by
  have hmove : (∀ k i T a, ¬ s.Starts k i T a e) → (∃ me g', s.actor e = some me ∧ Moves me g g' ∧
      Coupled svc t g') → ∃ me g', s.actor e = some me ∧ Evolves me g g' ∧ Coupled svc t g' ∧
        ∀ k i T a, g'.core.Put k i T a ↔ g.core.Put k i T a ∨ s.Starts k i T a e := by
    rintro hno ⟨me, g', hme, hmv, hc⟩
    exact ⟨me, g', hme, hmv.toEvolves, hc,
      fun k i T a => hmv.put_iff.trans (or_iff_left (hno k i T a)).symm⟩
  cases e with
  | electionTimeout me =>
    exact Or.inr (hmove (fun _ _ _ _ hs => hs) ⟨me, (coupled_electionTimeout h me ht).imp
      fun _ hg => ⟨rfl, hg⟩⟩)
  | start me command => exact Or.inr ⟨me, (coupled_start h me command ht).imp fun _ hg => ⟨rfl, hg⟩⟩
  | send me peer => exact Or.inl ⟨rfl, coupled_send h me peer ht⟩
  | handle k => exact Or.inr (hmove (fun _ _ _ _ hs => hs) (coupled_handle h ht))
  | lose k =>
    cases exec_cases ht
    exact Or.inl ⟨rfl, h.lost⟩
  | snapshot me index data =>
    exact Or.inr (hmove (fun _ _ _ _ hs => hs) ⟨me, (coupled_snapshot h me ht ha
      (hprod me index data rfl)).imp fun _ hg => ⟨rfl, hg⟩⟩)
  | applier me =>
    exact Or.inr (hmove (fun _ _ _ _ hs => hs) ⟨me, g, rfl, Moves.refl me g, coupled_applier h me ht⟩)
  | deliver me =>
    exact Or.inr (hmove (fun _ _ _ _ hs => hs) ⟨me, g, rfl, Moves.refl me g, coupled_deliver h me ht⟩)

/-! ## Crashes inside an event -/

def Event.isSnapshot : Event n C D → Bool
  | .snapshot _ _ _ => true
  | _ => false

def Event.isDeliver : Event n C D → Bool
  | .deliver _ => true
  | _ => false

/-- What an event does to the process it acts at: the saves are those of one handler, only
`Snapshot` and `InstallSnapShot` change the snapshot held, and only a delivery the position. -/
structure Touched (e : Event n C D) (p p' : Process n C D) : Prop where
  life : p'.incarnation = p.incarnation
  saved : Saved p.rf p'.rf
  held : e.isSnapshot = true ∨ Holds p.rf p'.rf
  position : e.isDeliver = true ∨ p'.position = p.position

/-- A handler that sends nothing to the service. -/
theorem Touched.of_rf {e : Event n C D} {p p' : Process n C D} (hs : Saved p.rf p'.rf)
    (hh : Holds p.rf p'.rf) (hp : p'.incarnation = p.incarnation ∧ p'.position = p.position) :
    Touched e p p' :=
  ⟨hp.1, hs, Or.inr hh, Or.inr hp.2⟩

theorem Touched.refl (e : Event n C D) (p : Process n C D) : Touched e p p :=
  .of_rf (.refl _) (Or.inl rfl) ⟨rfl, rfl⟩

theorem Touched.answers {e : Event n C D} {p : Process n C D} {rf : Raft n C D}
    {payload reply : Payload n C D} (h : Answers p.rf payload rf reply) :
    Touched e p { p with rf := rf } := by
  cases h with
  | vote args => exact .of_rf (saved_requestVote _ _) (Or.inl (held_requestVote _ _)) ⟨rfl, rfl⟩
  | append args => exact .of_rf (saved_appendEntry _ _) (Or.inl (held_appendEntry _ _)) ⟨rfl, rfl⟩
  | snapshot args =>
    exact .of_rf (saved_installSnapShot _ _) (holds_installSnapShot _ _) ⟨rfl, rfl⟩

theorem Touched.receives {e : Event n C D} {peer : Fin n} {p p' : Process n C D}
    {payload : Payload n C D} (h : Receives peer p payload p') : Touched e p p' := by
  cases h with
  | vote args reply =>
    exact .of_rf (saved_handleVoteReply _ _ _ _) (Or.inl (held_handleVoteReply _ _ _ _)) ⟨rfl, rfl⟩
  | append args reply =>
    exact .of_rf (saved_handleAppendReply _ _ _ _) (Or.inl (held_handleAppendReply _ _ _ _)) ⟨rfl, rfl⟩
  | snapshot args reply =>
    exact .of_rf (saved_handleSnapShotReply _ _ _ _) (Or.inl (held_handleSnapShotReply _ _ _ _))
      ⟨rfl, rfl⟩

/-- A request acts at its server. -/
theorem Answers.actor {k : Nat} {m : Rpc n C D} {rf rf' : Raft n C D} {reply : Payload n C D}
    (h : Answers rf m.payload rf' reply) (hm : s.net[k]? = some m) :
    s.actor (.handle k) = some m.server := by
  simp only [Cluster.actor, hm, Option.map_some]
  generalize m.payload = payload at h
  cases h <;> rfl

/-- A reply acts at its caller. -/
theorem Receives.actor {k : Nat} {m : Rpc n C D} {peer : Fin n} {p p' : Process n C D}
    (h : Receives peer p m.payload p') (hm : s.net[k]? = some m) :
    s.actor (.handle k) = some m.caller := by
  simp only [Cluster.actor, hm, Option.map_some]
  generalize m.payload = payload at h
  cases h <;> rfl

/-- An event leaves all processes alone or replaces that of its actor. -/
theorem exec_proc {e : Event n C D} (ht : s.exec e = some t) :
    (s.actor e = none ∧ t.proc = s.proc) ∨ ∃ me p, s.actor e = some me ∧
      t.proc = Function.update s.proc me p ∧ Touched e (s.proc me) p := by
  cases exec_cases ht with
  | electionTimeout me =>
    exact Or.inr ⟨me, _, rfl, rfl,
      .of_rf (saved_electionTimeout _) (Or.inl (held_electionTimeout _)) ⟨rfl, rfl⟩⟩
  | start me command =>
    exact Or.inr ⟨me, _, rfl, rfl, .of_rf (saved_start _ _) (Or.inl (held_start _ _)) ⟨rfl, rfl⟩⟩
  | sendAppend me peer args hne hsend => exact Or.inl ⟨rfl, rfl⟩
  | sendSnapshot me peer args hne hsend => exact Or.inl ⟨rfl, rfl⟩
  | request k m rf reply hm hanswer =>
    exact Or.inr ⟨m.server, _, hanswer.actor hm, rfl, .answers hanswer⟩
  | reply k m p hm hlife hreceive =>
    exact Or.inr ⟨m.caller, p, hreceive.actor hm, rfl, .receives hreceive⟩
  | stale k m hm hlife =>
    obtain ⟨me, hme⟩ : ∃ me, s.actor (.handle k) = some me := by simp [Cluster.actor, hm]
    exact Or.inr ⟨me, s.proc me, hme, (Function.update_eq_self _ _).symm, .refl _ _⟩
  | lose k => exact Or.inl ⟨rfl, rfl⟩
  | snapshot me index data =>
    exact Or.inr ⟨me, _, rfl, rfl, rfl, saved_snapshot _ _ _, Or.inl rfl, Or.inr rfl⟩
  | applier me hsending =>
    exact Or.inr ⟨me, _, rfl, rfl, .of_rf (saved_applier _) (Or.inl (held_applier _)) ⟨rfl, rfl⟩⟩
  | deliver me msg hsending =>
    exact Or.inr ⟨me, _, rfl, rfl, rfl, .refl _, Or.inr (Or.inl rfl), Or.inl rfl⟩

theorem position_same {e : Event n C D} (ht : s.exec e = some t) (he : e.isDeliver = false)
    (r : Fin n) : (t.proc r).position = (s.proc r).position := by
  rcases exec_proc ht with ⟨-, heq⟩ | ⟨r', p, -, heq, htouch⟩
  · rw [heq]
  · rw [heq]
    by_cases hr : r = r'
    · subst hr
      rw [Function.update_self]
      exact htouch.position.resolve_left (by simp [he])
    · rw [Function.update_of_ne hr]

/-- A raised term saved by itself. -/
theorem NodeInv.restartable_raised {me : Fin n} {p : Process n C D} (h : NodeInv svc g me p)
    {T : Nat} (v : Option (Fin n)) (hT : p.rf.currentTerm < T) :
    ∃ g', Moves me g g' ∧ Restartable svc g' me ⟨({ p.rf.raftState with
      currentTerm := T, voteFor := v }, p.rf.persister.readSnapshot) :: p.rf.persister.saves⟩ := by
  have hmv : Moves me g (g.withCore (g.core.bump me T v)) :=
    Moves.bump v (h.dur.term_le.trans_lt hT)
  have hlog : LogInv (g.withCore (g.core.bump me T v)).core me p.rf :=
    h.log.same ⟨rfl, rfl, rfl, rfl, rfl⟩ rfl hmv.frame.ext
  refine ⟨_, hmv, ?_, ?_, hlog.logs, hlog.term, hlog.first_len, ?_,
    (h.dur.saves.mono hmv.le).again h.log.head rfl⟩
  · simp [Persister.state, Persister.readRaftState, Ghost.withCore, Repl.bump]
  · simp [Persister.state, Persister.readRaftState, Ghost.withCore, Repl.bump]
  · exact hlog.cert.shorten (List.take_prefix_take_left (h.log.first_le.trans h.log.applied_le))

/-- Whatever part of the saves of an event is left, it is a state some steps of the peer account
for: all of them if every save is left, and no `Start` otherwise. -/
theorem Coupled.restartable_part (h : Coupled svc s g) {g' : Ghost n C D} {me : Fin n}
    {p : Process n C D} (hmv : Evolves me g g') (hp : NodeInv svc g' me p)
    (hsaved : Saved (s.proc me).rf p.rf) {k : Nat}
    (hk : (s.proc me).rf.persister.saves.length + k ≤ p.rf.persister.saves.length) :
    ∃ g'', Evolves me g g'' ∧ Restartable svc g'' me ⟨p.rf.persister.saves.drop k⟩ ∧
      (k = 0 → g'' = g') ∧ (k ≠ 0 → Moves me g g'') := by
  have hquiet : 0 < k → (∃ g'', Moves me g g'' ∧
      Restartable svc g'' me ⟨p.rf.persister.saves.drop k⟩) → ∃ g'', Evolves me g g'' ∧
      Restartable svc g'' me ⟨p.rf.persister.saves.drop k⟩ ∧ (k = 0 → g'' = g') ∧
      (k ≠ 0 → Moves me g g'') := by
    rintro hpos ⟨g'', hmv', hps⟩
    exact ⟨g'', hmv'.toEvolves, hps, fun h0 => absurd h0 hpos.ne', fun _ => hmv'⟩
  have hold := (h.node me).restartable
  rcases Nat.eq_zero_or_pos k with rfl | hpos
  · exact ⟨g', hmv, hp.restartable, fun _ => rfl, fun h0 => absurd rfl h0⟩
  · refine hquiet hpos ?_
    cases hsaved with
    | none heq => rw [heq] at hk; omega
    | one sv heq =>
      rw [heq] at hk ⊢
      obtain rfl : k = 1 := by simp at hk; omega
      exact ⟨g, Moves.refl me g, hold⟩
    | two sv T v hT heq =>
      rw [heq] at hk ⊢
      obtain rfl | rfl : k = 1 ∨ k = 2 := by simp at hk; omega
      · exact (h.node me).restartable_raised v hT
      · exact ⟨g, Moves.refl me g, hold⟩

/-! ## Actions and runs -/

/-- The snapshots handed over by an action. -/
def Action.snapshots (i : Nat) (d : D) : Action n C D → Prop
  | .event (.snapshot _ i' d') => i' = i ∧ d' = d
  | .crashIn _ (.snapshot _ i' d') _ => i' = i ∧ d' = d
  | _ => False

/-- An action puts the entry of an accepted `Start`, also when the peer crashes right after it. -/
def Cluster.Puts (s : Cluster n C D) (k : Fin n) (i T : Nat) (a : Option C) : Action n C D → Prop
  | .event e => s.Starts k i T a e
  | .crash _ => False
  | .crashIn me e l => l = 0 ∧ k = me ∧ s.Starts k i T a e

/-- Every action is some steps of the protocol. -/
theorem Coupled.step (h : Coupled svc s g) {a : Action n C D} (ht : s.step a = some t)
    (ha : a.Allowed svc s) (hprod : ∀ i d, a.snapshots i d → g.produced i d) :
    ∃ g', Repl.Steps g.core g'.core ∧ g'.produced = g.produced ∧ Coupled svc t g' ∧
      ∀ k i T b, g'.core.Put k i T b ↔ g.core.Put k i T b ∨ s.Puts k i T b a := by
  have hstay : ∀ {t : Cluster n C D}, Coupled svc t g → (∀ k i T b, ¬ s.Puts k i T b a) →
      ∃ g', Repl.Steps g.core g'.core ∧ g'.produced = g.produced ∧ Coupled svc t g' ∧
        ∀ k i T b, g'.core.Put k i T b ↔ g.core.Put k i T b ∨ s.Puts k i T b a :=
    fun hc hno => ⟨g, .refl, rfl, hc, fun k i T b => (or_iff_left (hno k i T b)).symm⟩
  cases a with
  | event e =>
    rcases coupled_exec h ht ha (fun me i d he => hprod i d (by rw [he]; exact ⟨rfl, rfl⟩)) with
      ⟨hnone, hc⟩ | ⟨me, g', -, hmv, hc, hput⟩
    · refine hstay hc fun k i T b hb => ?_
      rw [Cluster.Starts.actor hb] at hnone
      simp at hnone
    · exact ⟨g', hmv.steps, hmv.produced, hc, hput⟩
  | crash me => exact hstay (coupled_crash h me ht) fun _ _ _ _ hb => hb
  | crashIn me e l =>
    simp only [Cluster.step] at ht
    split at ht
    · simp at ht
    · rename_i u hu
      split at ht
      · rename_i hl
        obtain rfl := Option.some.inj ht
        have hexec := coupled_exec h hu ha
          (fun me' i d he => hprod i d (by rw [he]; exact ⟨rfl, rfl⟩))
        -- a crash of a peer that the event does not act at is one at rest
        have hrest : u.proc me = s.proc me → s.actor e ≠ some me →
            ∃ g', Repl.Steps g.core g'.core ∧ g'.produced = g.produced ∧
              Coupled svc (s.restart me ⟨(u.proc me).rf.persister.saves.drop l⟩ (s.taken e)) g' ∧
              ∀ k i T b, g'.core.Put k i T b ↔
                g.core.Put k i T b ∨ s.Puts k i T b (.crashIn me e l) := by
          intro heq hne
          refine hstay ?_ fun k i T b hb => hne (hb.2.1 ▸ hb.2.2.actor)
          rw [heq] at hl ⊢
          obtain rfl : l = 0 := by omega
          exact h.restart (Moves.refl me g).toEvolves (h.node me).restartable (taken_sublist s e)
        rcases exec_proc hu with ⟨hnone, heq⟩ | ⟨x, p, hx, heq, htouch⟩
        · exact hrest (by rw [heq]) (by rw [hnone]; simp)
        · by_cases hme : me = x
          · subst hme
            obtain ⟨g', hmv, hc, hput⟩ : ∃ g', Evolves me g g' ∧ Coupled svc u g' ∧
                ∀ k i T b, g'.core.Put k i T b ↔ g.core.Put k i T b ∨ s.Starts k i T b e := by
              rcases hexec with ⟨hnone, -⟩ | ⟨x, g', hx', hrest⟩
              · rw [hx] at hnone; simp at hnone
              · rw [hx] at hx'
                obtain rfl := Option.some.inj hx'
                exact ⟨g', hrest⟩
            have hp : u.proc me = p := by rw [heq, Function.update_self]
            have hn := hc.node me
            rw [hp] at hn hl ⊢
            obtain ⟨g'', hmv', hps, hall, hpart⟩ := h.restartable_part hmv hn htouch.saved hl
            refine ⟨g'', hmv'.steps, hmv'.produced, h.restart hmv' hps (taken_sublist s e),
              fun k i T b => ?_⟩
            by_cases h0 : l = 0
            · rw [hall h0, hput]
              refine or_congr_right ⟨fun hs => ⟨h0, ?_, hs⟩, fun hs => hs.2.2⟩
              have := hs.actor
              rw [hx] at this
              exact (Option.some.inj this).symm
            · exact (hpart h0).put_iff.trans (or_iff_left fun hs => h0 hs.1).symm
          · exact hrest (by rw [heq, Function.update_of_ne hme])
              (by rw [hx]; exact fun h0 => hme (Option.some.inj h0).symm)
      · simp at ht

theorem coupled_step (h : Coupled svc s g) {a : Action n C D} (ht : s.step a = some t)
    (ha : a.Allowed svc s) (hprod : ∀ i d, a.snapshots i d → g.produced i d) :
    ∃ g', g ≤ g' ∧ g'.produced = g.produced ∧ Coupled svc t g' ∧
      ∀ k i T b, g'.core.Put k i T b ↔ g.core.Put k i T b ∨ s.Puts k i T b a := by
  obtain ⟨g', hsteps, hprod', hc, hput⟩ := h.step ht ha hprod
  exact ⟨g', ⟨(hsteps.inv_ext h.inv).2, fun _ _ hp => hprod' ▸ hp⟩, hprod', hc, hput⟩

/-- The protocol state at the start, for a run that hands over the snapshots `produced`. -/
def Ghost.initial (n : Nat) (C D : Type) (produced : Nat → D → Prop) : Ghost n C D where
  core := Repl.initial (Fin n) (Option C)
  produced := produced

theorem restartable_initial (produced : Nat → D → Prop) (me : Fin n) :
    Restartable svc (Ghost.initial n C D produced) me makePersister where
  term := rfl
  vote := rfl
  logs := rfl
  lastTerm := rfl
  index_le := le_rfl
  cert := Repl.AgreedBy.nil
  saves := ⟨show 0 = 0 from rfl, fun sv hsv => by simp [makePersister] at hsv⟩

theorem coupled_initial (produced : Nat → D → Prop) :
    Coupled svc (Cluster.initial n C D) (Ghost.initial n C D produced) where
  inv := Repl.Inv.initial
  node := fun me => (restartable_initial produced me).boot 0
  net := fun m hm => by simp [Cluster.initial] at hm
  keys := by simp [Cluster.initial, voteKeys]
  counted := fun me => counted_of_ne (g := Ghost.initial n C D produced)
    (by simp [Cluster.initial, Process.boot, Raft.make, Raft.readPersist, makePersister,
      Persister.readRaftState])

/-- Along a run from a coupled state every state visited is coupled, to protocol states that grow. -/
theorem Coupled.along {s t : Cluster n C D} {tr : List (Cluster n C D × Action n C D)}
    (h : Coupled svc s g) (hrun : (system n svc).Run s tr t)
    (hprod : ∀ x ∈ tr, ∀ i d, x.2.snapshots i d → g.produced i d) :
    ∃ g', g ≤ g' ∧ g'.produced = g.produced ∧ Coupled svc t g' ∧
      ∀ u ∈ visited tr t, ∃ gu, g ≤ gu ∧ gu ≤ g' ∧ Coupled svc u gu := by
  have hstep : ∀ u a w gu, (u, a) ∈ tr → (Coupled svc u gu ∧ gu.produced = g.produced) →
      (system n svc).step u a w →
      ∃ gw, gu ≤ gw ∧ Coupled svc w gw ∧ gw.produced = g.produced := by
    intro u a w gu hmem ⟨hu, hpu⟩ hst
    obtain ⟨gw, hle, hpw, hc, -⟩ := coupled_step hu hst.2 hst.1
      (fun i d hs => by rw [hpu]; exact hprod _ hmem i d hs)
    exact ⟨gw, hle, hc, hpw.trans hpu⟩
  obtain ⟨g', hg, ⟨hc, hp⟩, hall⟩ := hrun.ghost hstep ⟨h, rfl⟩
  refine ⟨g', hg, hp, hc, fun u hu => ?_⟩
  obtain ⟨gu, h₁, h₂, h₃, -⟩ := hall u hu
  exact ⟨gu, h₁, h₂, h₃⟩

/-- A run from a coupled state is some steps of the protocol. -/
theorem Coupled.steps {s t : Cluster n C D} {tr : List (Cluster n C D × Action n C D)}
    (h : Coupled svc s g) (hrun : (system n svc).Run s tr t)
    (hprod : ∀ x ∈ tr, ∀ i d, x.2.snapshots i d → g.produced i d) :
    ∃ g', Repl.Steps g.core g'.core ∧ g'.produced = g.produced ∧ Coupled svc t g' := by
  induction hrun with
  | nil => exact ⟨g, .refl, rfl, h⟩
  | @snoc tr u w a _ hstep ih =>
    obtain ⟨gu, hsteps, hpu, hu⟩ := ih fun x hx => hprod x (List.mem_append_left _ hx)
    obtain ⟨gw, hsteps', hpw, hw, -⟩ := hu.step hstep.2 hstep.1 fun i d hs => by
      rw [hpu]
      exact hprod _ (List.mem_append_right _ (List.mem_singleton_self _)) i d hs
    exact ⟨gw, hsteps.trans hsteps', hpw.trans hpu, hw⟩

/-- The snapshots handed over in a run. -/
def HandedOver (tr : List (Cluster n C D × Action n C D)) (i : Nat) (d : D) : Prop :=
  ∃ x ∈ tr, x.2.snapshots i d

/-- Every state of a run is coupled to a protocol state below that of the last one. -/
theorem Run.coupled {tr : List (Cluster n C D × Action n C D)} (h : Run svc tr s) :
    ∃ g, g.produced = HandedOver tr ∧ Coupled svc s g ∧
      ∀ u ∈ visited tr s, ∃ gu, gu ≤ g ∧ Coupled svc u gu := by
  obtain ⟨g, -, hp, hc, hall⟩ := (coupled_initial (HandedOver tr)).along h
    (fun x hx i d hs => ⟨x, hx, hs⟩)
  refine ⟨g, hp, hc, fun u hu => ?_⟩
  obtain ⟨gu, -, h₂, h₃⟩ := hall u hu
  exact ⟨gu, h₂, h₃⟩

/-! ## Messages under way -/

/-- Every message under way to a service is marked as a command or as a snapshot. -/
def Marked (s : Cluster n C D) : Prop :=
  ∀ r msg, (s.proc r).sending = some msg → msg.commandValid = true ∨ msg.snapshotValid = true

theorem Pending.marked {y : Nat} {rf : Raft n C D} (h : Pending svc g rf y) {msg : ApplyMsg C D}
    (hmsg : rf.applier.2 = some msg) : msg.commandValid = true ∨ msg.snapshotValid = true := by
  unfold Raft.applier at hmsg
  cases hpending : rf.pendingSnapshot with
  | some snapshot =>
    rw [hpending] at hmsg
    obtain rfl := Option.some.inj hmsg
    unfold Pending at h
    rw [hpending] at h
    exact Or.inr h.2.1
  | none =>
    simp only [hpending] at hmsg
    split at hmsg
    · contradiction
    · split at hmsg
      · contradiction
      · split at hmsg
        · contradiction
        · split at hmsg
          · contradiction
          · obtain rfl := Option.some.inj hmsg
            exact Or.inl rfl

theorem Marked.set (h : Marked s) {r : Fin n} {p : Process n C D} {net : List (Rpc n C D)}
    (hp : ∀ msg, p.sending = some msg → msg.commandValid = true ∨ msg.snapshotValid = true) :
    Marked (s.set r p net) :=
  (Function.forall_update_iff s.proc fun _ p => ∀ msg, p.sending = some msg →
    msg.commandValid = true ∨ msg.snapshotValid = true).mpr ⟨hp, fun j _ => h j⟩

theorem Marked.exec (h : Marked s) (hc : Coupled svc s g) {e : Event n C D}
    (ht : s.exec e = some t) : Marked t := by
  cases exec_cases ht with
  | electionTimeout me => exact h.set (h me)
  | start me command => exact h.set (h me)
  | sendAppend me peer args hne hsend => exact h
  | sendSnapshot me peer args hne hsend => exact h
  | request k m rf reply hm hanswer => exact h.set (h m.server)
  | reply k m p hm hlife hreceive =>
    refine h.set ?_
    generalize m.payload = payload at hreceive
    cases hreceive with
    | vote args reply => exact h m.caller
    | append args reply => exact h m.caller
    | snapshot args reply => exact h m.caller
  | stale k m hm hlife => exact h
  | lose k => exact h
  | snapshot me index data => exact h.set (h me)
  | applier me hsending =>
    refine h.set fun msg hmsg => ?_
    have hnext := (hc.node me).app.next
    rw [hsending] at hnext
    exact Pending.marked hnext hmsg
  | deliver me msg hsending => exact h.set fun _ hmsg => by contradiction

theorem Marked.restart (h : Marked s) (r : Fin n) (ps : Persister n C D) (net : List (Rpc n C D)) :
    Marked (s.restart r ps net) :=
  h.set fun _ hmsg => by contradiction

end DistSys.Raft1
