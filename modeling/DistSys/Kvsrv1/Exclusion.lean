import DistSys.Kvsrv1.Definite
import DistSys.Kvsrv1.Lock

/- The lock is held by one client at a time.

   What a client is about to put, or has in flight, was justified by a version it read. At that
   version the key is free, for a `Put` of `Acquire`, or it holds the client's own `clientID`, for
   one of `Release`; at a higher version the `Put` does nothing. A call that returned has passed its
   version, so what is left of it in flight does nothing (`Inv`). The key of a held lock holds a
   `clientID`, whose owner is not in `Release`, and so no `Put` in flight takes effect.

   All this is by versions and SeqNums that are not used twice: `wrapped_lock` is a run with `2 ^ 64`
   `Put`s on the key, and `reused_lock` one with `2 ^ 64` calls of one clerk. -/
namespace DistSys.Kvsrv1

open Lib

/-! ## One execution, in a run that does not wrap around -/

/-- A `Get` is answered by what is there, or as an earlier attempt was; a `Put` that does not take
effect is at another version and is answered by an error; one that does raises the version by one. -/
structure Executes (u : State) (req : Request) : Prop where
  get : ∀ key, req.op = .get key →
    (u.server.handle req).2 = .get (readReply u.server.cache key) ∨
      ∃ req', (req', (u.server.handle req).2) ∈ u.executed ∧ req'.call = req.call
  put : ∀ key value version, req.op = .put key value version → u.server.writes req = false →
    version ≠ versionOf u.server.cache key ∧ (u.server.handle req).2 ≠ .put ⟨.ok⟩
  raises : ∀ key value version, req.op = .put key value version → u.server.writes req = true →
    version = versionOf u.server.cache key ∧
      (version + 1).toNat = (versionOf u.server.cache key).toNat + 1

theorem Executes.of_run {tr : List (State × Action)} {u w : State} {i : ℕ} {req : Request}
    (hrun : kvsrv.Run .initial (tr ++ [(u, .execute i)]) w) (hreq : u.pending[i]? = some req)
    (hcalls : ∀ c, (tr ++ [(u, Action.execute i)]).countP (callsOf c) < 2 ^ 64)
    (hfew : ∀ key, (tr ++ [(u, Action.execute i)]).countP (writesKey key) < 2 ^ 64) :
    Executes u req := by
  have hlast : (tr ++ [(u, Action.execute i)])[tr.length]? = some (u, .execute i) := by simp
  have hexec : ExecutedAt (tr ++ [(u, .execute i)]) tr.length u req := ⟨i, hlast, hreq⟩
  refine ⟨?_, ?_, ?_⟩
  · intro key hop
    obtain ⟨reply, hreply⟩ : ∃ reply, (u.server.handle req).2 = .get reply := by
      simp [KVServer.handle, hop]
    obtain ⟨e', u', req', hle, hexec', hcall, hread, hreplied⟩ :=
      hexec.read hrun (hcalls _) hop hreply
    rcases hle with hlt | ⟨-, rfl⟩
    · refine Or.inr ⟨req', ?_, hcall⟩
      rw [hreply, ← hreplied]
      exact List.mem_of_getElem? (hexec'.entry hrun hlt (visited_of_step hlast))
    · exact Or.inl (by rw [hreply, hread])
  · intro key value version hop hnot
    have hdup := dupPut_eq_none hrun (hcalls _) (hfew key) hexec hop
    rcases KVServer.put_executed hdup with ⟨hver, -⟩ | ⟨hne, hput⟩
    · simp only [KVServer.writes, hop, hdup, Option.isNone_none, Bool.true_and,
        decide_eq_false_iff_not] at hnot
      exact absurd hver hnot
    · refine ⟨hne, ?_⟩
      simp only [KVServer.handle, hop, hput, ne_eq, Reply.put.injEq, PutReply.mk.injEq]
      split <;> simp
  · intro key value version hop hwrites
    obtain ⟨key', value', version', hop', hver, hhandle⟩ := KVServer.handle_writes hwrites
    obtain ⟨rfl, rfl, rfl⟩ : key = key' ∧ value = value' ∧ version = version' := by
      simpa [hop] using hop'
    refine ⟨hver, ?_⟩
    obtain ⟨w', hw', hstep⟩ := hrun.visited_succ hlast
    have hsucc := (version_counts key).val_succ rfl hrun (hfew key) hlast
      (by simp [writesKey, writtenBy, hreq, hwrites, hop, Op.key]) hw'
    obtain ⟨req', hreq', rfl⟩ := State.step_execute hstep
    obtain rfl := Option.some.inj (hreq.symm.trans hreq')
    rw [← hsucc]
    simp [State.execute, hhandle, versionOf_update]

/-- The requests of a call in progress are its own. -/
theorem same_request {tr : List (State × Action)} {u : State} (hrun : kvsrv.Run .initial tr u)
    {c : Int64} {call : Call} {req : Request} (hcall : (u.clerks c).call = some call)
    (hreq : req ∈ u.sent) (hid : req.call = call.id) : req.clientId = c ∧ req.op = call.op := by
  obtain ⟨p, hp⟩ := History.sent_called hrun hreq
  obtain ⟨p', hp'⟩ := (History.of_run hrun).current c call hcall
  rw [hid] at hp
  obtain ⟨-, hclient, hop, -⟩ := hp.unique hrun hp'
  exact ⟨hclient, hop⟩

/-! ## What a client knows of the key -/

def pairVersion : Option KVPair → ℕ
  | some pair => pair.version.toNat
  | none => 0

def pairValue (pair : Option KVPair) : Option String := pair.map KVPair.value

/-- The answer to a `Get`, by what the key holds. -/
def pairReply : Option KVPair → GetReply
  | some pair => ⟨pair.value, pair.version, .ok⟩
  | none => ⟨"", 0, .errNoKey⟩

theorem versionOf_toNat (cache : String → Option KVPair) (key : String) :
    (versionOf cache key).toNat = pairVersion (cache key) := by
  unfold versionOf
  cases cache key with
  | some pair => rfl
  | none => rfl

/-- No client holds the key. -/
def Free (pair : Option KVPair) : Prop := pairValue pair = none ∨ pairValue pair = some ""

namespace Locks

variable (L : Locks) (c : Int64) (pair : Option KVPair)

def Owns : Prop := pairValue pair = some (L.clientID c)

/-- The key is free at the version, or the version is passed. -/
def Grabs (ver : Tversion) : Prop :=
  ver.toNat ≤ pairVersion pair ∧ (ver.toNat = pairVersion pair → Free pair)

/-- The client owns the key at the version, or the version is passed. -/
def Drops (ver : Tversion) : Prop :=
  ver.toNat ≤ pairVersion pair ∧ (ver.toNat = pairVersion pair → L.Owns c pair)

/-- A reply tells what the key holds at the version, or the version is passed. -/
def Seen (reply : GetReply) : Prop :=
  reply.version.toNat ≤ pairVersion pair ∧
    (reply.version.toNat = pairVersion pair → pairReply pair = reply) ∧
    (reply.err = .errNoKey → reply.version = 0)

/-- What holds of a client at a point of its code, with the call it is in and the replies so far. -/
def PhaseOk (call : Option Call) (executed : List (Request × Reply)) : Phase → Prop
  | .outside => ∀ k, call = some k → k.op.putsOn L.key = false
  | .holding => L.Owns c pair ∧ ∀ k, call = some k → k.op.putsOn L.key = false
  | .acquireLoop => call = none
  | .releaseLoop => call = none
  | .acquireGrab ver => call = none ∧ Grabs pair ver
  | .releaseDrop ver => call = none ∧ L.Drops c pair ver
  | .acquireGet => ∃ k, call = some k ∧ k.op = .get L.key ∧
      ∀ req reply, (req, Reply.get reply) ∈ executed → req.call = k.id → Seen pair reply ∧
        (reply.err = .ok → reply.value = L.clientID c → L.Owns c pair)
  | .releaseGet => ∃ k, call = some k ∧ k.op = .get L.key ∧
      ∀ req reply, (req, Reply.get reply) ∈ executed → req.call = k.id → Seen pair reply
  | .acquirePut => ∃ k ver, call = some k ∧ k.op = .put L.key (L.clientID c) ver ∧ Grabs pair ver ∧
      ∀ req reply, (req, Reply.put reply) ∈ executed → req.call = k.id →
        ver.toNat < pairVersion pair ∧ (reply.err = .ok → L.Owns c pair)
  | .releasePut => ∃ k ver, call = some k ∧ k.op = .put L.key "" ver ∧ L.Drops c pair ver ∧
      ∀ req reply, (req, Reply.put reply) ∈ executed → req.call = k.id →
        ver.toNat < pairVersion pair

/-- What holds of a `Put` on the key that is in flight: it is one of `Acquire`, or one of `Release`,
which can still take effect only while its call is in progress. -/
def RequestOk (phase : Phase) (call : Option Call) (req : Request) : Prop :=
  ∀ value ver, req.op = .put L.key value ver →
    (value = L.clientID req.clientId ∧ Grabs pair ver) ∨
    (value = "" ∧ L.Drops req.clientId pair ver ∧ (ver.toNat = pairVersion pair →
      phase = .releasePut ∧ ∃ k, call = some k ∧ k.id = req.call))

end Locks

/-- What holds of every client and of every request in flight. -/
structure Inv (L : Locks) (s : LockState) : Prop where
  phases : ∀ c, L.PhaseOk c (s.kv.server.cache L.key) (s.kv.clerks c).call s.kv.executed (s.phase c)
  requests : ∀ req ∈ s.kv.pending, L.RequestOk (s.kv.server.cache L.key) (s.phase req.clientId)
    (s.kv.clerks req.clientId).call req

namespace Locks

variable {L : Locks} {c : Int64} {pair pair' : Option KVPair} {ver : Tversion}

theorem not_free_of_owns (h : L.Owns c pair) : ¬ Free pair := by
  rintro (hnone | hempty)
  · simp [Owns, hnone] at h
  · obtain hid : "" = L.clientID c := by simpa [Owns, hempty] using h
    exact L.nonempty c hid.symm

theorem owns_unique {c' : Int64} (h : L.Owns c pair) (h' : L.Owns c' pair) : c = c' := by
  rw [Owns, h] at h'
  exact L.distinct (by simpa using h')

/-! ## A `Put` takes effect: every version that was seen is passed -/

section Raised

variable (hver : pairVersion pair' = pairVersion pair + 1)
include hver

theorem Grabs.raised (h : Grabs pair ver) : Grabs pair' ver :=
  ⟨by have := h.1; omega, fun heq => by have := h.1; omega⟩

theorem Drops.raised (h : L.Drops c pair ver) : L.Drops c pair' ver :=
  ⟨by have := h.1; omega, fun heq => by have := h.1; omega⟩

theorem Seen.raised {reply : GetReply} (h : Seen pair reply) : Seen pair' reply :=
  ⟨by have := h.1; omega, fun heq => by have := h.1; omega, h.2.2⟩

end Raised

/-- A client none of whose calls is the one that takes effect, or whose call does. -/
theorem PhaseOk.written {call : Option Call} {executed : List (Request × Reply)} {phase : Phase}
    {req : Request} {value : String} (h : L.PhaseOk c pair call executed phase)
    (hver : pairVersion pair' = pairVersion pair + 1) (hvalue : pairValue pair' = some value)
    (hnot : phase ≠ .releasePut → ¬ L.Owns c pair)
    (hreq : ∀ k, call = some k → req.call = k.id →
      ∀ value' ver', k.op = .put L.key value' ver' → value' = value ∧ ver'.toNat = pairVersion pair) :
    L.PhaseOk c pair' call (executed ++ [(req, .put ⟨.ok⟩)]) phase := by
  cases phase with
  | outside => exact h
  | holding => exact absurd h.1 (hnot (by simp))
  | acquireLoop => exact h
  | releaseLoop => exact h
  | acquireGrab ver => exact ⟨h.1, h.2.raised hver⟩
  | releaseDrop ver => exact ⟨h.1, h.2.raised hver⟩
  | acquireGet =>
    obtain ⟨k, hk, hop, hseen⟩ := h
    refine ⟨k, hk, hop, ?_⟩
    intro req' reply hmem hid
    obtain ⟨hseen, hown⟩ := hseen req' reply (by simpa using hmem) hid
    exact ⟨hseen.raised hver, fun hok hval => absurd (hown hok hval) (hnot (by simp))⟩
  | releaseGet =>
    obtain ⟨k, hk, hop, hseen⟩ := h
    refine ⟨k, hk, hop, ?_⟩
    intro req' reply hmem hid
    exact (hseen req' reply (by simpa using hmem) hid).raised hver
  | acquirePut =>
    obtain ⟨k, ver, hk, hop, hgrabs, hdone⟩ := h
    refine ⟨k, ver, hk, hop, hgrabs.raised hver, ?_⟩
    intro req' reply hmem hid
    rcases List.mem_append.mp hmem with hmem | hmem
    · obtain ⟨hlt, hown⟩ := hdone req' reply hmem hid
      exact ⟨by omega, fun hok => absurd (hown hok) (hnot (by simp))⟩
    · obtain ⟨rfl, -⟩ : req' = req ∧ reply = ⟨.ok⟩ := by simpa using hmem
      obtain ⟨rfl, heq⟩ := hreq k hk hid _ _ hop
      exact ⟨by omega, fun _ => hvalue⟩
  | releasePut =>
    obtain ⟨k, ver, hk, hop, hdrops, hdone⟩ := h
    refine ⟨k, ver, hk, hop, hdrops.raised hver, ?_⟩
    intro req' reply hmem hid
    rcases List.mem_append.mp hmem with hmem | hmem
    · have := hdone req' reply hmem hid
      omega
    · obtain ⟨rfl, -⟩ : req' = req ∧ reply = ⟨.ok⟩ := by simpa using hmem
      obtain ⟨-, heq⟩ := hreq k hk hid _ _ hop
      omega

/-- A reply to the client's `Get` was there before, or is what the last execution read. -/
theorem mem_snoc_get {executed : List (Request × Reply)} {req req' : Request} {r : Reply} {id : ℕ}
    {now reply : GetReply} (hget : req.call = id →
      r = .get now ∨ ∃ req₁, (req₁, r) ∈ executed ∧ req₁.call = req.call)
    (hmem : (req', .get reply) ∈ executed ++ [(req, r)]) (hid : req'.call = id) :
    reply = now ∨ ∃ req₁, (req₁, .get reply) ∈ executed ∧ req₁.call = id := by
  rcases List.mem_append.mp hmem with hmem | hmem
  · exact Or.inr ⟨req', hmem, hid⟩
  · obtain ⟨rfl, rfl⟩ : req' = req ∧ r = .get reply := by simpa [eq_comm] using hmem
    rcases hget hid with hread | ⟨req₁, hmem₁, hcall₁⟩
    · exact Or.inl (by simpa using hread)
    · exact Or.inr ⟨req₁, hmem₁, hcall₁.trans hid⟩

/-- A reply to the client's `Put` was there before, or is that of the last execution. -/
theorem mem_snoc_put {executed : List (Request × Reply)} {req req' : Request} {r : Reply} {id : ℕ}
    {reply : PutReply} (hmem : (req', .put reply) ∈ executed ++ [(req, r)]) (hid : req'.call = id) :
    (req', .put reply) ∈ executed ∨ (req.call = id ∧ r = .put reply) := by
  rcases List.mem_append.mp hmem with hmem | hmem
  · exact Or.inl hmem
  · obtain ⟨rfl, rfl⟩ : req' = req ∧ r = .put reply := by simpa [eq_comm] using hmem
    exact Or.inr ⟨hid, rfl⟩

theorem seen_now (pair : Option KVPair) : Seen pair (pairReply pair) := by
  cases pair with
  | some pair => exact ⟨le_rfl, fun _ => rfl, by simp [pairReply]⟩
  | none => exact ⟨le_rfl, fun _ => rfl, fun _ => rfl⟩

theorem owns_of_pairReply (hok : (pairReply pair).err = .ok)
    (hval : (pairReply pair).value = L.clientID c) : L.Owns c pair := by
  cases pair with
  | some pair => exact congrArg some hval
  | none => simp [pairReply] at hok

/-- An execution that changes nothing at the key. -/
theorem PhaseOk.answered {call : Option Call} {executed : List (Request × Reply)} {phase : Phase}
    {req : Request} {r : Reply} (h : L.PhaseOk c pair call executed phase)
    (hget : ∀ k, call = some k → req.call = k.id → k.op = .get L.key →
      r = .get (pairReply pair) ∨ ∃ req', (req', r) ∈ executed ∧ req'.call = req.call)
    (hput : ∀ k, call = some k → req.call = k.id → ∀ value ver, k.op = .put L.key value ver →
      ver.toNat ≠ pairVersion pair ∧ r ≠ .put ⟨.ok⟩) :
    L.PhaseOk c pair call (executed ++ [(req, r)]) phase := by
  cases phase with
  | outside => exact h
  | holding => exact h
  | acquireLoop => exact h
  | releaseLoop => exact h
  | acquireGrab ver => exact h
  | releaseDrop ver => exact h
  | acquireGet =>
    obtain ⟨k, hk, hop, hseen⟩ := h
    refine ⟨k, hk, hop, fun req' reply hmem hid => ?_⟩
    rcases mem_snoc_get (fun hcall => hget k hk hcall hop) hmem hid with rfl | ⟨req₁, hmem₁, hid₁⟩
    · exact ⟨seen_now pair, owns_of_pairReply⟩
    · exact hseen req₁ reply hmem₁ hid₁
  | releaseGet =>
    obtain ⟨k, hk, hop, hseen⟩ := h
    refine ⟨k, hk, hop, fun req' reply hmem hid => ?_⟩
    rcases mem_snoc_get (fun hcall => hget k hk hcall hop) hmem hid with rfl | ⟨req₁, hmem₁, hid₁⟩
    · exact seen_now pair
    · exact hseen req₁ reply hmem₁ hid₁
  | acquirePut =>
    obtain ⟨k, ver, hk, hop, hgrabs, hdone⟩ := h
    refine ⟨k, ver, hk, hop, hgrabs, fun req' reply hmem hid => ?_⟩
    rcases mem_snoc_put hmem hid with hmem | ⟨hcall, rfl⟩
    · exact hdone req' reply hmem hid
    · obtain ⟨hne, herr⟩ := hput k hk hcall _ _ hop
      refine ⟨lt_of_le_of_ne hgrabs.1 hne, fun hok => absurd ?_ herr⟩
      rw [← hok]
  | releasePut =>
    obtain ⟨k, ver, hk, hop, hdrops, hdone⟩ := h
    refine ⟨k, ver, hk, hop, hdrops, fun req' reply hmem hid => ?_⟩
    rcases mem_snoc_put hmem hid with hmem | ⟨hcall, rfl⟩
    · exact hdone req' reply hmem hid
    · exact lt_of_le_of_ne hdrops.1 (hput k hk hcall _ _ hop).1

/-- Only the call and its number matter, not the attempt. -/
theorem PhaseOk.again {k : Call} {executed : List (Request × Reply)} {phase : Phase}
    (h : L.PhaseOk c pair (some k) executed phase) :
    L.PhaseOk c pair (some k.again) executed phase := by
  cases phase with
  | outside => exact fun k' hk' => by obtain rfl := Option.some.inj hk'; exact h k rfl
  | holding => exact ⟨h.1, fun k' hk' => by obtain rfl := Option.some.inj hk'; exact h.2 k rfl⟩
  | acquireLoop => contradiction
  | releaseLoop => contradiction
  | acquireGrab ver => exact absurd h.1 (by simp)
  | releaseDrop ver => exact absurd h.1 (by simp)
  | acquireGet =>
    obtain ⟨_, hk, hrest⟩ := h
    obtain rfl := Option.some.inj hk
    exact ⟨k.again, rfl, hrest⟩
  | releaseGet =>
    obtain ⟨_, hk, hrest⟩ := h
    obtain rfl := Option.some.inj hk
    exact ⟨k.again, rfl, hrest⟩
  | acquirePut =>
    obtain ⟨_, ver, hk, hrest⟩ := h
    obtain rfl := Option.some.inj hk
    exact ⟨k.again, ver, rfl, hrest⟩
  | releasePut =>
    obtain ⟨_, ver, hk, hrest⟩ := h
    obtain rfl := Option.some.inj hk
    exact ⟨k.again, ver, rfl, hrest⟩

/-- What a client sends is justified by where it is. -/
theorem PhaseOk.request {k : Call} {executed : List (Request × Reply)} {phase : Phase}
    (h : L.PhaseOk c pair (some k) executed phase) :
    L.RequestOk pair phase (some k) (k.request c) := by
  intro value ver hop
  have hop : k.op = .put L.key value ver := hop
  cases phase with
  | outside => simpa [hop, Op.putsOn] using h k rfl
  | holding => simpa [hop, Op.putsOn] using h.2 k rfl
  | acquireLoop => contradiction
  | releaseLoop => contradiction
  | acquireGrab ver => exact absurd h.1 (by simp)
  | releaseDrop ver => exact absurd h.1 (by simp)
  | acquireGet =>
    obtain ⟨_, hk, hget, -⟩ := h
    obtain rfl := Option.some.inj hk
    simp [hop] at hget
  | releaseGet =>
    obtain ⟨_, hk, hget, -⟩ := h
    obtain rfl := Option.some.inj hk
    simp [hop] at hget
  | acquirePut =>
    obtain ⟨_, ver', hk, hput, hgrabs, -⟩ := h
    obtain rfl := Option.some.inj hk
    obtain ⟨rfl, rfl⟩ : value = L.clientID c ∧ ver = ver' := by simpa [hop] using hput
    exact Or.inl ⟨rfl, hgrabs⟩
  | releasePut =>
    obtain ⟨_, ver', hk, hput, hdrops, -⟩ := h
    obtain rfl := Option.some.inj hk
    obtain ⟨rfl, rfl⟩ : value = "" ∧ ver = ver' := by simpa [hop] using hput
    exact Or.inr ⟨rfl, hdrops, fun _ => ⟨rfl, k, rfl, rfl⟩⟩

/-- A client that is not in the `Put` of `Release` may turn to anything. -/
theorem RequestOk.leave {phase phase' : Phase} {call call' : Option Call} {req : Request}
    (h : L.RequestOk pair phase call req) (hne : phase ≠ .releasePut) :
    L.RequestOk pair phase' call' req := by
  intro value ver hop
  rcases h value ver hop with hgrabs | ⟨hvalue, hdrops, hlive⟩
  · exact Or.inl hgrabs
  · exact Or.inr ⟨hvalue, hdrops, fun heq => absurd (hlive heq).1 hne⟩

theorem RequestOk.again {phase : Phase} {k : Call} {req : Request}
    (h : L.RequestOk pair phase (some k) req) : L.RequestOk pair phase (some k.again) req := by
  intro value ver hop
  rcases h value ver hop with hgrabs | ⟨hvalue, hdrops, hlive⟩
  · exact Or.inl hgrabs
  · refine Or.inr ⟨hvalue, hdrops, fun heq => ?_⟩
    obtain ⟨hphase, k', hk', hid⟩ := hlive heq
    obtain rfl := Option.some.inj hk'
    exact ⟨hphase, k.again, rfl, hid⟩

/-- The client's own call passed its version. -/
theorem RequestOk.passed {phase phase' : Phase} {call call' : Option Call} {req : Request}
    (h : L.RequestOk pair phase call req)
    (hpassed : ∀ k value ver, call = some k → k.id = req.call → req.op = .put L.key value ver →
      ver.toNat < pairVersion pair) : L.RequestOk pair phase' call' req := by
  intro value ver hop
  rcases h value ver hop with hgrabs | ⟨hvalue, hdrops, hlive⟩
  · exact Or.inl hgrabs
  · refine Or.inr ⟨hvalue, hdrops, fun heq => ?_⟩
    obtain ⟨-, k, hk, hid⟩ := hlive heq
    exact absurd heq (hpassed k value ver hk hid hop).ne

theorem RequestOk.raised {phase : Phase} {call : Option Call} {req : Request}
    (h : L.RequestOk pair phase call req) (hver : pairVersion pair' = pairVersion pair + 1) :
    L.RequestOk pair' phase call req := by
  intro value ver hop
  rcases h value ver hop with ⟨hvalue, hgrabs⟩ | ⟨hvalue, hdrops, -⟩
  · exact Or.inl ⟨hvalue, hgrabs.raised hver⟩
  · exact Or.inr ⟨hvalue, hdrops.raised hver, fun heq => by have := hdrops.1; omega⟩

/-! ## A call returns -/

theorem Seen.grabs_absent {reply : GetReply} (h : Seen pair reply) (herr : reply.err = .errNoKey) :
    Grabs pair 0 := by
  obtain ⟨-, hsame, hzero⟩ := h
  rw [hzero herr] at hsame
  refine ⟨Nat.zero_le _, fun heq => ?_⟩
  obtain rfl := hsame heq
  cases pair with
  | some pair => simp [pairReply] at herr
  | none => exact Or.inl rfl

/-- What the key holds at the version that was read. -/
theorem Seen.value {reply : GetReply} (h : Seen pair reply) (herr : reply.err = .ok)
    (heq : reply.version.toNat = pairVersion pair) : pairValue pair = some reply.value := by
  obtain rfl := h.2.1 heq
  cases pair with
  | some pair => rfl
  | none => simp [pairReply] at herr

end Locks

/-- An answer OK is the server's. -/
theorem Call.result_put (call : Call) (reply : PutReply) :
    ∃ reply', call.result (.put reply) = .put reply' ∧ (reply'.err = .ok → reply.err = .ok) := by
  refine ⟨_, rfl, fun hok => ?_⟩
  split at hok
  · contradiction
  · exact hok

namespace Locks

variable {L : Locks} {c : Int64} {pair : Option KVPair}

/-- Where the client goes on from is justified by the reply. -/
theorem PhaseOk.returned {k : Call} {executed : List (Request × Reply)} {phase : Phase}
    {reply : Reply} (h : L.PhaseOk c pair (some k) executed phase)
    (hmem : (k.request c, reply) ∈ executed)
    (hget : ∀ key, k.op = .get key → ∃ r, reply = .get r)
    (hput : ∀ key value ver, k.op = .put key value ver → ∃ r, reply = .put r) :
    L.PhaseOk c pair none executed (L.afterReturn c phase (k.result reply)) := by
  cases phase with
  | outside => exact fun _ hk => by contradiction
  | holding => exact ⟨h.1, fun _ hk => by contradiction⟩
  | acquireLoop => contradiction
  | releaseLoop => contradiction
  | acquireGrab ver => exact absurd h.1 (by simp)
  | releaseDrop ver => exact absurd h.1 (by simp)
  | acquireGet =>
    obtain ⟨_, hk, hop, hseen⟩ := h
    obtain rfl := Option.some.inj hk
    obtain ⟨r, rfl⟩ := hget _ hop
    obtain ⟨hseen, hown⟩ := hseen _ r hmem rfl
    simp only [Call.result, afterReturn, acquireAfterGet]
    split
    · rename_i herr
      exact ⟨rfl, hseen.grabs_absent herr⟩
    · split
      · rename_i herr
        split
        · rename_i hval
          exact ⟨hown herr hval, fun _ hk => by contradiction⟩
        · split
          · rename_i hempty
            exact ⟨rfl, hseen.1, fun heq => Or.inr (hempty ▸ hseen.value herr heq)⟩
          · rfl
      · rfl
  | releaseGet =>
    obtain ⟨_, hk, hop, hseen⟩ := h
    obtain rfl := Option.some.inj hk
    obtain ⟨r, rfl⟩ := hget _ hop
    have hseen := hseen _ r hmem rfl
    simp only [Call.result, afterReturn, releaseAfterGet]
    split
    · exact fun _ hk => by contradiction
    · split
      · rename_i herr
        split
        · rename_i hval
          exact ⟨rfl, hseen.1, fun heq => (hseen.value herr heq).trans (congrArg some hval)⟩
        · exact fun _ hk => by contradiction
      · rfl
  | acquirePut =>
    obtain ⟨_, ver, hk, hop, -, hdone⟩ := h
    obtain rfl := Option.some.inj hk
    obtain ⟨r, rfl⟩ := hput _ _ _ hop
    obtain ⟨-, hown⟩ := hdone _ r hmem rfl
    obtain ⟨r', hres, hok⟩ := k.result_put r
    simp only [hres, afterReturn, acquireAfterPut]
    split
    · rename_i herr
      exact ⟨hown (hok herr), fun _ hk => by contradiction⟩
    · rfl
  | releasePut =>
    obtain ⟨_, ver, hk, hop, -, -⟩ := h
    obtain rfl := Option.some.inj hk
    obtain ⟨r, rfl⟩ := hput _ _ _ hop
    obtain ⟨r', hres, -⟩ := k.result_put r
    simp only [hres, afterReturn, releaseAfterPut]
    split
    · exact fun _ hk => by contradiction
    · rfl

end Locks

/-! ## Every step -/

namespace Inv

variable {L : Locks} {s t : LockState}

theorem initial : Inv L .initial := by
  refine ⟨fun c => ?_, ?_⟩
  · intro k hk
    simp [LockState.initial, State.initial] at hk
  · simp [LockState.initial, State.initial]

/-- A client turns to another point of its code without a call. -/
theorem turn (h : Inv L s) {c : Int64} {phase : Phase} (hne : s.phase c ≠ .releasePut)
    (hphase : L.PhaseOk c (s.kv.server.cache L.key) (s.kv.clerks c).call s.kv.executed phase) :
    Inv L (s.setPhase c phase) := by
  refine ⟨fun c' => ?_, fun req hreq => ?_⟩
  · by_cases hc : c' = c
    · subst hc
      simpa [LockState.setPhase] using hphase
    · simpa [LockState.setPhase, hc] using h.phases c'
  · by_cases hc : req.clientId = c
    · exact (h.requests req hreq).leave (by rwa [hc])
    · simpa [LockState.setPhase, hc] using h.requests req hreq

/-- A client makes a call. -/
theorem call (h : Inv L s) {c : Int64} {op : Op} {kv : State} {phase : Phase}
    (hkv : s.kv.step (.call c op) = some kv) (hne : s.phase c ≠ .releasePut)
    (hphase : L.PhaseOk c (s.kv.server.cache L.key) (some (s.kv.newCall c op)) s.kv.executed phase) :
    Inv L ({ s with kv := kv }.setPhase c phase) := by
  obtain ⟨-, rfl⟩ := State.step_call hkv
  refine ⟨fun c' => ?_, fun req hreq => ?_⟩
  · by_cases hc : c' = c
    · subst hc
      simpa [LockState.setPhase, State.send, State.setClerk] using hphase
    · simpa [LockState.setPhase, State.send, State.setClerk, hc] using h.phases c'
  · rcases List.mem_append.mp hreq with hreq | hreq
    · by_cases hc : req.clientId = c
      · exact (h.requests req hreq).leave (by rwa [hc])
      · simpa [LockState.setPhase, State.send, State.setClerk, hc] using h.requests req hreq
    · obtain rfl := List.mem_singleton.mp hreq
      simpa [LockState.setPhase, State.send, State.setClerk, Call.request] using hphase.request

/-- Some requests are lost. -/
theorem drop (h : Inv L s) (i : ℕ) :
    Inv L { s with kv := { s.kv with pending := s.kv.pending.eraseIdx i } } :=
  ⟨h.phases, fun req hreq => h.requests req (List.mem_of_mem_eraseIdx hreq)⟩

theorem fail (h : Inv L s) {c : Int64} {kv : State} (hkv : s.kv.step (.fail c) = some kv) :
    Inv L { s with kv := kv } := by
  obtain ⟨k, hk, rfl⟩ := State.step_fail hkv
  have hphase := h.phases c
  rw [hk] at hphase
  refine ⟨fun c' => ?_, fun req hreq => ?_⟩
  · by_cases hc : c' = c
    · subst hc
      simpa [State.send, State.setClerk] using hphase.again
    · simpa [State.send, State.setClerk, hc] using h.phases c'
  · rcases List.mem_append.mp hreq with hreq | hreq
    · have hold := h.requests req hreq
      by_cases hc : req.clientId = c
      · rw [hc, hk] at hold
        simpa [State.send, State.setClerk, hc] using hold.again
      · simpa [State.send, State.setClerk, hc] using hold
    · obtain rfl := List.mem_singleton.mp hreq
      simpa [State.send, State.setClerk, Call.request] using hphase.again.request

/-- A call returns, and what is left of it in flight has passed its version. -/
theorem deliver (h : Inv L s) {tr : List (State × Action)} (hrun : kvsrv.Run .initial tr s.kv)
    {c : Int64} {i : ℕ} (hstep : s.step L (.deliver c i) = some t) : Inv L t := by
  obtain ⟨k, res, kv, hret, hkv, rfl⟩ := LockState.step_deliver hstep
  obtain ⟨c', i', reply, heq, hk, hanswer, rfl⟩ := State.returned_eq_some hret
  obtain ⟨rfl, rfl⟩ : c = c' ∧ i = i' := by simpa using heq
  obtain ⟨-, rfl⟩ := State.step_deliver hkv
  have hmem := List.mem_of_getElem? hanswer
  obtain ⟨e, u, -, -, hhandle⟩ := (History.of_run hrun).executed i _ _ hanswer
  have hget : ∀ key, k.op = .get key → ∃ r, reply = .get r := by
    intro key hop
    rw [← hhandle]
    simp [KVServer.handle, Call.request, hop]
  have hput : ∀ key value ver, k.op = .put key value ver → ∃ r, reply = .put r := by
    intro key value ver hop
    rw [← hhandle]
    simp [KVServer.handle, Call.request, hop]
  have hphase := h.phases c
  rw [hk] at hphase
  refine ⟨fun c' => ?_, fun req hreq => ?_⟩
  · by_cases hc : c' = c
    · subst hc
      simpa [LockState.setPhase, State.setClerk] using hphase.returned hmem hget hput
    · simpa [LockState.setPhase, State.setClerk, hc] using h.phases c'
  · by_cases hc : req.clientId = c
    · by_cases hrelease : s.phase c = .releasePut
      · rw [hrelease] at hphase
        obtain ⟨_, ver, hk', hop, -, hdone⟩ := hphase
        obtain rfl := Option.some.inj hk'
        obtain ⟨r, rfl⟩ := hput _ _ _ hop
        have hlt := hdone _ r hmem rfl
        refine (h.requests req hreq).passed ?_
        intro k' value ver' hk' hid hop'
        rw [hc, hk] at hk'
        obtain rfl := Option.some.inj hk'
        have hsame := (same_request hrun hk (List.mem_append_left _ hreq) hid.symm).2
        obtain ⟨-, rfl⟩ : value = "" ∧ ver' = ver := by
          rw [hop', hop] at hsame
          simpa using hsame
        exact hlt
      · exact (h.requests req hreq).leave (by rwa [hc])
    · simpa [LockState.setPhase, State.setClerk, hc] using h.requests req hreq

/-- A `Put` that takes effect at the key is one of `Acquire` while the key is free, or one of the owner's
`Release`. -/
theorem writer (h : Inv L s) {req : Request} {value : String} {ver : Tversion}
    (hreq : req ∈ s.kv.pending) (hop : req.op = .put L.key value ver)
    (hver : ver = versionOf s.kv.server.cache L.key) :
    Free (s.kv.server.cache L.key) ∨
      (L.Owns req.clientId (s.kv.server.cache L.key) ∧ s.phase req.clientId = .releasePut) := by
  have heq : ver.toNat = pairVersion (s.kv.server.cache L.key) := by rw [hver, versionOf_toNat]
  rcases h.requests req hreq value ver hop with ⟨-, hgrabs⟩ | ⟨-, hdrops, hlive⟩
  · exact Or.inl (hgrabs.2 heq)
  · exact Or.inr ⟨hdrops.2 heq, (hlive heq).1⟩

/-- It does not take the key from a client that is not in `Release`. -/
theorem not_owns (h : Inv L s) {req : Request} {value : String} {ver : Tversion}
    (hreq : req ∈ s.kv.pending) (hop : req.op = .put L.key value ver)
    (hver : ver = versionOf s.kv.server.cache L.key) {c : Int64} (hne : s.phase c ≠ .releasePut) :
    ¬ L.Owns c (s.kv.server.cache L.key) := by
  intro howns
  rcases h.writer hreq hop hver with hfree | ⟨howner, hphase⟩
  · exact Locks.not_free_of_owns howns hfree
  · obtain rfl := Locks.owns_unique howns howner
    exact hne hphase

theorem execute (h : Inv L s) {tr : List (State × Action)} (hrun : kvsrv.Run .initial tr s.kv)
    {i : ℕ} {req : Request} (hreq : s.kv.pending[i]? = some req) (hexec : Executes s.kv req) :
    Inv L { s with kv := s.kv.execute i req } := by
  have hmem := List.mem_of_getElem? hreq
  have hsame : ∀ {c : Int64} {k : Call}, (s.kv.clerks c).call = some k → req.call = k.id →
      k.op = req.op := fun hk hid =>
    ((same_request hrun hk (List.mem_append_left _ hmem) hid).2).symm
  have hstep : s.kv.step (.execute i) = some (s.kv.execute i req) := by simp [State.step, hreq]
  rcases step_key hstep L.key with ⟨hcache, hnot⟩ | ⟨i', req', value, heq, hreq', hwrites, hop, hcache⟩
  · refine ⟨fun c => ?_, fun req' hreq' => ?_⟩
    · have hanswered : L.PhaseOk c (s.kv.server.cache L.key) (s.kv.clerks c).call
          (s.kv.executed ++ [(req, (s.kv.server.handle req).2)]) (s.phase c) := by
        refine (h.phases c).answered ?_ ?_
        · intro k hk hid hop
          exact hexec.get L.key (hsame hk hid ▸ hop)
        · intro k hk hid value ver hop
          rw [hsame hk hid] at hop
          have hwrites : s.kv.server.writes req = false := by
            by_contra hw
            simp [writesKey, writtenBy, hreq, hw, hop, Op.key] at hnot
          obtain ⟨hne, herr⟩ := hexec.put L.key value ver hop hwrites
          refine ⟨fun heq => hne ?_, herr⟩
          rw [← versionOf_toNat] at heq
          exact UInt64.toNat_inj.mp heq
      rw [← hcache] at hanswered
      exact hanswered
    · have hold := h.requests req' (List.mem_of_mem_eraseIdx hreq')
      rw [← hcache] at hold
      exact hold
  · obtain rfl : i = i' := by simpa using heq
    obtain rfl := Option.some.inj (hreq.symm.trans hreq')
    obtain ⟨-, hraise⟩ := hexec.raises L.key value _ hop hwrites
    have hver : pairVersion ((s.kv.execute i req).server.cache L.key) =
        pairVersion (s.kv.server.cache L.key) + 1 := by
      rw [hcache, ← versionOf_toNat, ← hraise]
      rfl
    have hreply : (s.kv.server.handle req).2 = .put ⟨.ok⟩ := by
      obtain ⟨_, _, _, -, -, hhandle⟩ := KVServer.handle_writes hwrites
      rw [hhandle]
    refine ⟨fun c => ?_, fun req' hreq' => ?_⟩
    · have hvalue : pairValue ((s.kv.execute i req).server.cache L.key) = some value := by
        rw [hcache]
        rfl
      have hwritten : L.PhaseOk c ((s.kv.execute i req).server.cache L.key) (s.kv.clerks c).call
          (s.kv.executed ++ [(req, .put ⟨.ok⟩)]) (s.phase c) := by
        refine (h.phases c).written hver hvalue (h.not_owns hmem hop rfl) ?_
        intro k hk hid value' ver' hop'
        rw [hsame hk hid, hop] at hop'
        obtain ⟨rfl, rfl⟩ : value = value' ∧ versionOf s.kv.server.cache L.key = ver' := by
          simpa using hop'
        exact ⟨rfl, versionOf_toNat _ _⟩
      rw [← hreply] at hwritten
      exact hwritten
    · exact (h.requests req' (List.mem_of_mem_eraseIdx hreq')).raised hver

/-- The call that the client's code comes to. -/
theorem next (h : Inv L s) (hsent : Sent s.kv) {c : Int64} {op : Op} {phase : Phase}
    (hnext : L.nextCall c (s.phase c) = some (op, phase)) : s.phase c ≠ .releasePut ∧
      L.PhaseOk c (s.kv.server.cache L.key) (some (s.kv.newCall c op)) s.kv.executed phase := by
  have hnone : ∀ (req : Request) (r : Reply), (req, r) ∈ s.kv.executed →
      req.call ≠ (s.kv.newCall c op).id := by
    intro req r hmem
    exact (hsent.below req (List.mem_append_right _ (List.mem_map_of_mem hmem))).ne
  have hphase := h.phases c
  cases hp : s.phase c with
  | acquireLoop =>
    rw [hp] at hnext
    obtain ⟨rfl, rfl⟩ := Prod.mk.inj (Option.some.inj hnext)
    exact ⟨by simp, _, rfl, rfl, fun req r hmem hid => absurd hid (hnone req _ hmem)⟩
  | releaseLoop =>
    rw [hp] at hnext
    obtain ⟨rfl, rfl⟩ := Prod.mk.inj (Option.some.inj hnext)
    exact ⟨by simp, _, rfl, rfl, fun req r hmem hid => absurd hid (hnone req _ hmem)⟩
  | acquireGrab ver =>
    rw [hp] at hnext
    obtain ⟨rfl, rfl⟩ := Prod.mk.inj (Option.some.inj hnext)
    rw [hp] at hphase
    exact ⟨by simp, _, ver, rfl, rfl, hphase.2, fun req r hmem hid => absurd hid (hnone req _ hmem)⟩
  | releaseDrop ver =>
    rw [hp] at hnext
    obtain ⟨rfl, rfl⟩ := Prod.mk.inj (Option.some.inj hnext)
    rw [hp] at hphase
    exact ⟨by simp, _, ver, rfl, rfl, hphase.2, fun req r hmem hid => absurd hid (hnone req _ hmem)⟩
  | outside =>
    rw [hp] at hnext
    contradiction
  | acquireGet =>
    rw [hp] at hnext
    contradiction
  | acquirePut =>
    rw [hp] at hnext
    contradiction
  | holding =>
    rw [hp] at hnext
    contradiction
  | releaseGet =>
    rw [hp] at hnext
    contradiction
  | releasePut =>
    rw [hp] at hnext
    contradiction

theorem step (h : Inv L s) {tr : List (State × Action)} (hrun : kvsrv.Run .initial tr s.kv)
    {a : LockAction} (hstep : s.step L a = some t)
    (hexec : ∀ i req, a = .execute i → s.kv.pending[i]? = some req → Executes s.kv req) :
    Inv L t := by
  cases a with
  | acquire c =>
    obtain ⟨hphase, hidle, rfl⟩ := LockState.step_turn hstep
    exact h.turn (by simp [hphase]) hidle
  | release c =>
    obtain ⟨hphase, hidle, rfl⟩ := LockState.step_turn hstep
    exact h.turn (by simp [hphase]) hidle
  | next c =>
    obtain ⟨op, phase, kv, hnext, hkv, rfl⟩ := LockState.step_next hstep
    obtain ⟨hne, hphase⟩ := h.next (Sent.of_run hrun) hnext
    exact h.call hkv hne hphase
  | other c op =>
    obtain ⟨hphase, hop, kv, hkv, rfl⟩ := LockState.step_other hstep
    have hne : s.phase c ≠ .releasePut := by rcases hphase with hp | hp <;> simp [hp]
    have hnot : ∀ k, some (s.kv.newCall c op) = some k → k.op.putsOn L.key = false := by
      intro k hk
      obtain rfl := Option.some.inj hk
      exact hop
    have hsame : L.PhaseOk c (s.kv.server.cache L.key) (some (s.kv.newCall c op)) s.kv.executed
        (s.phase c) := by
      have hnow := h.phases c
      rcases hphase with hp | hp
      · rw [hp]
        exact hnot
      · rw [hp] at hnow ⊢
        exact ⟨hnow.1, hnot⟩
    simpa [LockState.setPhase] using h.call hkv hne hsame
  | execute i =>
    obtain ⟨kv, hkv, rfl⟩ := Option.map_eq_some_iff.mp hstep
    obtain ⟨req, hreq, rfl⟩ := State.step_execute hkv
    exact h.execute hrun hreq (hexec i req rfl hreq)
  | drop i =>
    obtain ⟨kv, hkv, rfl⟩ := Option.map_eq_some_iff.mp hstep
    obtain rfl := State.step_drop hkv
    exact h.drop i
  | deliver c i => exact h.deliver hrun hstep
  | fail c =>
    obtain ⟨kv, hkv, rfl⟩ := Option.map_eq_some_iff.mp hstep
    exact h.fail hkv

/-- In a run whose versions and SeqNums do not wrap around. -/
theorem of_run {tr : List (LockState × LockAction)} (hrun : (locks L).Run .initial tr t)
    (hcalls : ∀ c, (kvTrace L tr).countP (callsOf c) < 2 ^ 64)
    (hfew : ∀ key, (kvTrace L tr).countP (writesKey key) < 2 ^ 64) : Inv L t := by
  induction hrun with
  | nil => exact initial
  | @snoc tr u w a hrun hstep ih =>
    have happend : kvTrace L (tr ++ [(u, a)]) = kvTrace L tr ++ kvTrace L [(u, a)] :=
      List.filterMap_append
    have hle : ∀ p : State × Action → Bool,
        (kvTrace L tr).countP p ≤ (kvTrace L (tr ++ [(u, a)])).countP p := by
      intro p
      rw [happend]
      exact (List.sublist_append_left _ _).countP_le
    refine (ih (fun c => lt_of_le_of_lt (hle _) (hcalls c))
      (fun key => lt_of_le_of_lt (hle _) (hfew key))).step (kvTrace_run hrun) hstep ?_
    rintro i req rfl hreq
    have hkv := kvTrace_run (hrun.snoc hstep)
    rw [happend] at hkv hcalls hfew
    exact Executes.of_run hkv hreq hcalls hfew

theorem of_visited {tr : List (LockState × LockAction)} (hrun : (locks L).Run .initial tr t)
    (hcalls : ∀ c, (kvTrace L tr).countP (callsOf c) < 2 ^ 64)
    (hfew : ∀ key, (kvTrace L tr).countP (writesKey key) < 2 ^ 64) {u : LockState}
    (hu : u ∈ visited tr t) : Inv L u := by
  obtain ⟨tr₁, tr₂, rfl, hbefore, -⟩ := hrun.to_visited hu
  have hle : ∀ p : State × Action → Bool,
      (kvTrace L tr₁).countP p ≤ (kvTrace L (tr₁ ++ tr₂)).countP p := by
    intro p
    rw [kvTrace, kvTrace, List.filterMap_append]
    exact (List.sublist_append_left _ _).countP_le
  exact of_run hbefore (fun c => lt_of_le_of_lt (hle _) (hcalls c))
    (fun key => lt_of_le_of_lt (hle _) (hfew key))

end Inv

/-- In every run in which each clerk makes fewer than `2 ^ 64` calls and fewer than `2 ^ 64` `Put`s are called on
each key: from the return of its `Acquire` until it calls `Release` a client's `clientID` is the value
of the key; no two clients are there at once; and no request that is executed meanwhile changes the key. -/
theorem exclusion {L : Locks} {t : LockState} {tr : List (LockState × LockAction)}
    (hrun : (locks L).Run .initial tr t)
    (hcalls : ∀ c, (kvTrace L tr).countP (callsOf c) < 2 ^ 64)
    (hputs : ∀ key, (kvTrace L tr).countP (putsKey key) < 2 ^ 64) :
    (∀ u ∈ visited tr t, ∀ c, u.phase c = .holding →
      ∃ ver, u.kv.server.cache L.key = some ⟨L.clientID c, ver⟩) ∧
    (∀ u ∈ visited tr t, ∀ c c', u.phase c = .holding → u.phase c' = .holding → c = c') ∧
    (∀ (u : LockState) (i : ℕ) (req : Request), (u, LockAction.execute i) ∈ tr →
      u.kv.pending[i]? = some req → ∀ c, u.phase c = .holding →
      (u.kv.server.handle req).1.cache L.key = u.kv.server.cache L.key) := by
  have hfew : ∀ key, (kvTrace L tr).countP (writesKey key) < 2 ^ 64 := fun key =>
    lt_of_le_of_lt (writes_le_puts (kvTrace_run hrun) key (hputs key)) (hputs key)
  have howns : ∀ u ∈ visited tr t, ∀ c, u.phase c = .holding →
      L.Owns c (u.kv.server.cache L.key) := by
    intro u hu c hc
    have hphase := (Inv.of_visited hrun hcalls hfew hu).phases c
    rw [hc] at hphase
    exact hphase.1
  refine ⟨?_, ?_, ?_⟩
  · intro u hu c hc
    obtain ⟨pair, hpair, hvalue⟩ := Option.map_eq_some_iff.mp (howns u hu c hc)
    exact ⟨pair.version, by rw [hpair, ← hvalue]⟩
  · intro u hu c c' hc hc'
    exact Locks.owns_unique (howns u hu c hc) (howns u hu c' hc')
  · intro u i req hmem hreq c hc
    have hu : u ∈ visited tr t := List.mem_append_left _ (List.mem_map_of_mem hmem)
    cases hwrites : u.kv.server.writes req with
    | false => rw [KVServer.handle_cache hwrites]
    | true =>
      obtain ⟨key, value, version, hop, hver, hhandle⟩ := KVServer.handle_writes hwrites
      by_cases hkey : key = L.key
      · subst hkey
        exact absurd (howns u hu c hc) ((Inv.of_visited hrun hcalls hfew hu).not_owns
          (List.mem_of_getElem? hreq) hop hver (by simp [hc]))
      · simp [hhandle, Ne.symm hkey]

section Sample

/-- Each client has a name of its own length. -/
def sampleLocks : Locks where
  key := "l"
  clientID c := String.ofList (List.replicate (c.toUInt64.toNat + 1) 'a')
  distinct := by
    intro c c' h
    have hlen := congrArg String.length h
    simp only [String.length_ofList, List.length_replicate, Nat.add_right_cancel_iff] at hlen
    have huint := UInt64.toNat_inj.mp hlen
    cases c
    cases c'
    exact congrArg Int64.ofUInt64 huint
  nonempty c := by
    intro h
    have hlen := congrArg String.length h
    simp at hlen

/-- Client 1 sends its `Put` twice, is answered ErrMaybe, and finds its own name; client 2 waits. -/
def contested : List LockAction :=
  [.acquire 1, .next 1, .execute 0, .deliver 1 0, .next 1, .fail 1, .execute 0, .execute 0,
    .deliver 1 2, .next 1, .execute 0, .deliver 1 3, .acquire 2, .next 2, .execute 0, .deliver 2 4]

theorem exclusion_contested :
    (after (LockState.step sampleLocks) .initial contested).phase 1 = .holding ∧
      ∃ ver, (after (LockState.step sampleLocks) .initial contested).kv.server.cache "l" =
        some ⟨sampleLocks.clientID 1, ver⟩ := by
  have hrun : (locks sampleLocks).Run .initial
      (traceOf (LockState.step sampleLocks) .initial contested)
      (after (LockState.step sampleLocks) .initial contested) :=
    Lts.run_of_steps (fun _ _ _ h => h) (by decide)
  have hshort : (kvTrace sampleLocks
      (traceOf (LockState.step sampleLocks) .initial contested)).length < 2 ^ 64 :=
    lt_of_le_of_lt (List.length_filterMap_le _ _) (by decide)
  have hholding : (after (LockState.step sampleLocks) .initial contested).phase 1 = .holding := by
    decide
  exact ⟨hholding, (exclusion hrun (fun _ => lt_of_le_of_lt List.countP_le_length hshort)
    (fun _ => lt_of_le_of_lt List.countP_le_length hshort)).1 _ (by simp [visited]) 1 hholding⟩

/-! ### Versions that come back -/

/-- A request of client 1 that stays in flight: the first attempt of its `Release`. -/
def leftover : Request := ⟨3, 0, 1, 4, .put "l" "" 1⟩

/-- Client 2 is at a point of its code and not in a call, its next SeqNum is new, and the table has
nothing for the request that is left over. -/
structure Wraps (s : LockState) (phase : Phase) (pair : KVPair) : Prop where
  phase : s.phase 2 = phase
  idle : (s.kv.clerks 2).call = none
  entry : ∀ dup, s.kv.server.clientMap 2 = some dup → dup.lastSeqNum = (s.kv.clerks 2).seqNum
  cache : s.kv.server.cache "l" = some pair
  pending : s.kv.pending = [leftover]
  other : ∃ reply, s.kv.server.clientMap 1 = some ⟨5, reply, none⟩

namespace Wraps

variable {s : LockState} {phase phase' : Phase} {pair : KVPair}

/-- A call of client 2 that is answered at once. -/
theorem exchange {op : Op} {kv : KVServer} {reply : Reply} {pair' : KVPair}
    (h : Wraps s phase pair) (hnext : sampleLocks.nextCall 2 phase = some (op, phase'))
    (hhandle : s.kv.server.handle ((s.kv.newCall 2 op).request 2) = (kv, reply))
    (hentry : ∀ dup, kv.clientMap 2 = some dup → dup.lastSeqNum = (s.kv.clerks 2).seqNum + 1)
    (hcache : kv.cache "l" = some pair') (hother : kv.clientMap 1 = s.kv.server.clientMap 1) :
    ∃ tr t, (locks sampleLocks).Run s tr t ∧
      Wraps t (sampleLocks.afterReturn 2 phase' reply) pair' := by
  obtain ⟨tr, -, hrun⟩ := LockState.exchange_run h.idle (h.phase ▸ hnext)
  rw [hhandle] at hrun
  have hserver : (s.kv.exchanged 2 op).server = kv := congrArg Prod.fst hhandle
  refine ⟨tr, _, hrun, ?_, ?_, ?_, ?_, ?_, ?_⟩
  · simp [LockState.setPhase]
  · simp [LockState.setPhase, State.exchanged, State.setClerk]
  · intro dup hdup
    have hseq := hentry dup (hserver ▸ hdup)
    simpa [LockState.setPhase, State.exchanged, State.setClerk, State.newCall] using hseq
  · exact (congrArg (fun kv => KVServer.cache kv "l") hserver).trans hcache
  · exact (s.kv.answered_pending 2 op).trans h.pending
  · obtain ⟨reply', hreply'⟩ := h.other
    refine ⟨reply', ?_⟩
    exact (congrArg (fun kv => KVServer.clientMap kv 1) hserver).trans (hother.trans hreply')

/-- The next SeqNum of client 2 is not in the table. -/
theorem new_seqNum (h : Wraps s phase pair) (dup : DupTab)
    (hdup : s.kv.server.clientMap 2 = some dup) : (s.kv.clerks 2).seqNum + 1 ≠ dup.lastSeqNum := by
  rw [h.entry dup hdup]
  simp

theorem get (h : Wraps s phase pair)
    (hnext : sampleLocks.nextCall 2 phase = some (.get "l", phase')) :
    ∃ tr t, (locks sampleLocks).Run s tr t ∧
      Wraps t (sampleLocks.afterReturn 2 phase' (.get ⟨pair.value, pair.version, .ok⟩)) pair := by
  have hdup : s.kv.server.dupGet ⟨"l", 2, (s.kv.clerks 2).seqNum + 1⟩ = none := by
    cases hentry : s.kv.server.clientMap 2 with
    | none => simp [KVServer.dupGet, hentry]
    | some dup => simp [KVServer.dupGet, hentry, h.new_seqNum dup hentry]
  have hhandle : s.kv.server.handle ((s.kv.newCall 2 (.get "l")).request 2) =
      (⟨s.kv.server.cache, Function.update s.kv.server.clientMap 2 (some
        ⟨(s.kv.clerks 2).seqNum + 1, some ⟨pair.value, pair.version, .ok⟩, none⟩)⟩,
        .get ⟨pair.value, pair.version, .ok⟩) := by
    simp only [KVServer.handle, Call.request, State.newCall, KVServer.get, hdup, readReply, h.cache]
  refine h.exchange hnext hhandle ?_ h.cache ?_
  · intro dup hdup
    obtain rfl : _ = dup := by simpa using hdup
    rfl
  · simp

theorem put {value : String} (h : Wraps s phase pair)
    (hnext : sampleLocks.nextCall 2 phase = some (.put "l" value pair.version, phase')) :
    ∃ tr t, (locks sampleLocks).Run s tr t ∧
      Wraps t (sampleLocks.afterReturn 2 phase' (.put ⟨.ok⟩)) ⟨value, pair.version + 1⟩ := by
  have hdup : s.kv.server.dupPut ⟨"l", value, pair.version, 2, (s.kv.clerks 2).seqNum + 1⟩ =
      none := by
    cases hentry : s.kv.server.clientMap 2 with
    | none => simp [KVServer.dupPut, hentry]
    | some dup => simp [KVServer.dupPut, hentry, h.new_seqNum dup hentry]
  have hhandle : s.kv.server.handle ((s.kv.newCall 2 (.put "l" value pair.version)).request 2) =
      (⟨Function.update s.kv.server.cache "l" (some ⟨value, pair.version + 1⟩),
        Function.update s.kv.server.clientMap 2 (some
          ⟨(s.kv.clerks 2).seqNum + 1, none, some ⟨.ok⟩⟩)⟩, .put ⟨.ok⟩) := by
    simp [KVServer.handle, Call.request, State.newCall, KVServer.put, hdup, h.cache]
  refine h.exchange hnext hhandle ?_ ?_ ?_
  · intro dup hdup
    obtain rfl : _ = dup := by simpa using hdup
    rfl
  · simp
  · simp

theorem turn {a : LockAction} (h : Wraps s phase pair)
    (ha : ∀ u : LockState, u.step sampleLocks a = u.turn 2 phase phase') :
    ∃ tr t, (locks sampleLocks).Run s tr t ∧ Wraps t phase' pair := by
  refine ⟨_, s.setPhase 2 phase', Lts.Run.single (a := a) ?_, by simp [LockState.setPhase], h.idle,
    h.entry, h.cache, h.pending, h.other⟩
  simp [locks, ha, LockState.turn, h.phase, h.idle]

/-- `Acquire` of a free lock. -/
theorem acquire {ver : Tversion} (h : Wraps s .outside ⟨"", ver⟩) :
    ∃ tr t, (locks sampleLocks).Run s tr t ∧
      Wraps t .holding ⟨sampleLocks.clientID 2, ver + 1⟩ := by
  obtain ⟨tr₁, s₁, hrun₁, h₁⟩ := h.turn (a := .acquire 2) (fun _ => rfl)
  obtain ⟨tr₂, s₂, hrun₂, h₂⟩ := h₁.get rfl
  have hgrab : sampleLocks.afterReturn 2 .acquireGet (.get ⟨"", ver, .ok⟩) = .acquireGrab ver := by
    simp [Locks.afterReturn, Locks.acquireAfterGet, (sampleLocks.nonempty 2).symm]
  rw [hgrab] at h₂
  obtain ⟨tr₃, s₃, hrun₃, h₃⟩ := h₂.put rfl
  exact ⟨_, s₃, (hrun₁.append hrun₂).append hrun₃, h₃⟩

/-- `Release` of the lock. -/
theorem release {ver : Tversion} (h : Wraps s .holding ⟨sampleLocks.clientID 2, ver⟩) :
    ∃ tr t, (locks sampleLocks).Run s tr t ∧ Wraps t .outside ⟨"", ver + 1⟩ := by
  obtain ⟨tr₁, s₁, hrun₁, h₁⟩ := h.turn (a := .release 2) (fun _ => rfl)
  obtain ⟨tr₂, s₂, hrun₂, h₂⟩ := h₁.get rfl
  have hdrop : sampleLocks.afterReturn 2 .releaseGet
      (.get ⟨sampleLocks.clientID 2, ver, .ok⟩) = .releaseDrop ver := by
    simp [Locks.afterReturn, Locks.releaseAfterGet]
  rw [hdrop] at h₂
  obtain ⟨tr₃, s₃, hrun₃, h₃⟩ := h₂.put rfl
  exact ⟨_, s₃, (hrun₁.append hrun₂).append hrun₃, h₃⟩

/-- Any number of times. -/
theorem rounds {ver : Tversion} (h : Wraps s .outside ⟨"", ver⟩) (n : ℕ) :
    ∃ tr t, (locks sampleLocks).Run s tr t ∧
      Wraps t .outside ⟨"", ver + UInt64.ofNat (2 * n)⟩ := by
  induction n with
  | zero => exact ⟨[], s, .nil, by simpa using h⟩
  | succ n ih =>
    obtain ⟨tr, t, hrun, ht⟩ := ih
    obtain ⟨tr₁, t₁, hrun₁, ht₁⟩ := ht.acquire
    obtain ⟨tr₂, t₂, hrun₂, ht₂⟩ := ht₁.release
    refine ⟨_, t₂, (hrun.append hrun₁).append hrun₂, ?_⟩
    have hnext : UInt64.ofNat (2 * (n + 1)) = UInt64.ofNat (2 * n) + 1 + 1 := by
      rw [Nat.mul_add, UInt64.ofNat_add, UInt64.add_assoc]
      rfl
    rwa [hnext, ← UInt64.add_assoc, ← UInt64.add_assoc]

end Wraps

/-- Client 1 acquires and releases; the first attempt of its last `Put` stays in flight, and a `Get`
replaces what the table has for it. -/
def released : List LockAction :=
  [.acquire 1, .next 1, .execute 0, .deliver 1 0, .next 1, .execute 0, .deliver 1 1, .release 1,
    .next 1, .execute 0, .deliver 1 2, .next 1, .fail 1, .execute 1, .deliver 1 3,
    .other 1 (.get "y"), .execute 1, .deliver 1 4]

/-- Without a bound on the `Put`s a late one frees a held lock: after `2 ^ 63 - 1` rounds of client 2 the
version is the one that client 1's `Release` was sent with. -/
theorem wrapped_lock : ∃ (L : Locks) (tr : List (LockState × LockAction)) (t : LockState) (c : Int64),
    (locks L).Run .initial tr t ∧ t.phase c = .holding ∧
      ∃ ver, t.kv.server.cache L.key = some ⟨"", ver⟩ := by
  have hreleased : (locks sampleLocks).Run .initial
      (traceOf (LockState.step sampleLocks) .initial released)
      (after (LockState.step sampleLocks) .initial released) :=
    Lts.run_of_steps (fun _ _ _ h => h) (by decide)
  have hstart : Wraps (after (LockState.step sampleLocks) .initial released) .outside ⟨"", 2⟩ :=
    ⟨by decide, by decide, by decide, by decide, by decide,
      some ⟨"", 0, .errNoKey⟩, by decide⟩
  obtain ⟨tr, t, hrun, ht⟩ := hstart.rounds (2 ^ 63 - 1)
  obtain ⟨tr', t', hrun', ht'⟩ := ht.acquire
  have hver : (2 + UInt64.ofNat (2 * (2 ^ 63 - 1)) + 1 : Tversion) = 1 := by decide
  rw [hver] at ht'
  obtain ⟨reply, hother⟩ := ht'.other
  have hhandle : (t'.kv.server.handle leftover).1.cache "l" = some ⟨"", 2⟩ := by
    have hdup : t'.kv.server.dupPut ⟨"l", "", 1, 1, 4⟩ = none := by
      simp [KVServer.dupPut, hother]
    simp [KVServer.handle, leftover, KVServer.put, hdup, ht'.cache]
  refine ⟨sampleLocks, _, { t' with kv := t'.kv.execute 0 leftover }, 2,
    ((hreleased.append hrun).append hrun').snoc (a := .execute 0) ?_, ht'.phase, 2, hhandle⟩
  simp [locks, LockState.step, State.step, ht'.pending]

/-! ### SeqNums that come back -/

/-- A call outside `Acquire` and `Release`, answered at once. -/
theorem LockState.other_run {L : Locks} {s : LockState} {c : Int64} {op : Op}
    (hidle : (s.kv.clerks c).call = none) (hphase : s.phase c = .outside)
    (hop : op.putsOn L.key = false) :
    ∃ tr, (locks L).Run s tr { s with kv := s.kv.exchanged c op } ∧
      kvTrace L tr = s.kv.exchange c op := by
  have hasked : (locks L).Run s [(s, .other c op)] { s with kv := s.kv.asked c op } := by
    refine Lts.Run.single ?_
    simp [locks, step, hphase, hop, State.step_asked _ _ _ hidle]
  refine ⟨_, (hasked.snoc (a := .execute s.kv.pending.length)
    (u := { s with kv := s.kv.answered c op }) ?_).snoc (a := .deliver c s.kv.executed.length) ?_, ?_⟩
  · simp [locks, step, State.step_answered]
  · have hafter : ∀ reply, L.afterReturn c .outside reply = .outside := by
      intro reply
      cases reply <;> rfl
    simp only [locks, step, setPhase, State.answered_returned, State.step_exchanged, hphase, hafter,
      Option.bind_some, Option.map_some]
    rw [← hphase, Function.update_eq_self]
  · rfl

/-- A request of client 1 that stays in flight: its call has returned ErrNoKey to a second attempt. -/
def unheeded : Request := ⟨0, 0, 1, 1, .put "y" "" 1⟩

/-- Client 1 is at a point of its code and not in a call, its next SeqNum is new, and the request in
flight would now succeed. -/
structure Reuses (s : LockState) (phase : Phase) (seqNum : Int64) : Prop where
  phase : s.phase 1 = phase
  clerk : s.kv.clerks 1 = ⟨seqNum, none⟩
  entry : ∀ dup, s.kv.server.clientMap 1 = some dup → dup.lastSeqNum = seqNum
  lock : s.kv.server.cache "l" = none
  other : s.kv.server.cache "y" = some ⟨"", 1⟩
  pending : s.kv.pending = [unheeded]

namespace Reuses

variable {s : LockState} {phase : Phase} {seqNum : Int64}

/-- A `Get` with the next SeqNum is executed. -/
theorem handle_get (h : Reuses s phase seqNum) (key : String) :
    s.kv.server.handle ((s.kv.newCall 1 (.get key)).request 1) =
      (⟨s.kv.server.cache, Function.update s.kv.server.clientMap 1 (some
        ⟨seqNum + 1, some (readReply s.kv.server.cache key), none⟩)⟩,
        .get (readReply s.kv.server.cache key)) := by
  have hdup : s.kv.server.dupGet ⟨key, 1, seqNum + 1⟩ = none := by
    cases hentry : s.kv.server.clientMap 1 with
    | none => simp [KVServer.dupGet, hentry]
    | some dup => simp [KVServer.dupGet, hentry, h.entry dup hentry]
  simp only [KVServer.handle, Call.request, State.newCall, KVServer.get, h.clerk, hdup]

/-- After the `Get` returns, at whatever point the client then is. -/
theorem get (h : Reuses s phase seqNum) (key : String) {t : LockState} {phase' : Phase}
    (hkv : t.kv = s.kv.exchanged 1 (.get key)) (hphase : t.phase 1 = phase') :
    Reuses t phase' (seqNum + 1) := by
  have hserver : t.kv.server = ⟨s.kv.server.cache, Function.update s.kv.server.clientMap 1 (some
      ⟨seqNum + 1, some (readReply s.kv.server.cache key), none⟩)⟩ := by
    rw [hkv]
    exact congrArg Prod.fst (h.handle_get key)
  refine ⟨hphase, ?_, fun dup hdup => ?_, by rw [hserver]; exact h.lock, by rw [hserver]; exact h.other,
    ?_⟩
  · rw [hkv]
    simp only [State.exchanged, State.setClerk, State.newCall, h.clerk, Function.update_self]
  · obtain rfl : _ = dup := by simpa [hserver] using hdup
    rfl
  · rw [hkv]
    exact (s.kv.answered_pending 1 (.get key)).trans h.pending

/-- Any number of `Get`s of another key. -/
theorem rounds (h : Reuses s .outside seqNum) (n : ℕ) :
    ∃ tr t, (locks sampleLocks).Run s tr t ∧ Reuses t .outside (seqNum + Int64.ofNat n) ∧
      ∀ key, (kvTrace sampleLocks tr).countP (putsKey key) = 0 := by
  induction n with
  | zero => exact ⟨[], s, .nil, by simpa using h, fun _ => rfl⟩
  | succ n ih =>
    obtain ⟨tr, t, hrun, ht, hputs⟩ := ih
    have hop : (Op.get "x").putsOn sampleLocks.key = false := rfl
    obtain ⟨tr', hrun', htrace⟩ := LockState.other_run (by rw [ht.clerk]) ht.phase hop
    refine ⟨_, _, hrun.append hrun', ?_, fun key => ?_⟩
    · have hnext := ht.get "x" (t := { t with kv := t.kv.exchanged 1 (.get "x") }) rfl ht.phase
      rwa [Int64.add_assoc, show Int64.ofNat n + 1 = Int64.ofNat (n + 1) from
        (Int64.ofNat_add n 1).symm] at hnext
    · rw [kvTrace, List.filterMap_append, ← kvTrace, ← kvTrace, htrace, List.countP_append, hputs]
      simp [State.exchange, putsKey, putBy]

/-- The late request leaves an OK in the table, which answers the `Put` of `Acquire`. -/
theorem put (h : Reuses s (.acquireGrab 0) 0) :
    ∃ tr t, tr.length = 4 ∧ (locks sampleLocks).Run s tr t ∧ t.phase 1 = .holding ∧
      t.kv.server.cache "l" = none := by
  obtain ⟨u, hu⟩ : ∃ u : LockState, u = { s with kv := s.kv.execute 0 unheeded } := ⟨_, rfl⟩
  have hrun : (locks sampleLocks).Run s [(s, .execute 0)] u := by
    refine Lts.Run.single ?_
    simp [locks, LockState.step, State.step, h.pending, hu]
  have hclerk : u.kv.clerks 1 = ⟨0, none⟩ := by
    rw [hu]
    exact h.clerk
  have hdup : s.kv.server.dupPut ⟨"y", "", 1, 1, 1⟩ = none := by
    cases hold : s.kv.server.clientMap 1 with
    | none => simp [KVServer.dupPut, hold]
    | some dup => simp [KVServer.dupPut, hold, h.entry dup hold]
  have hserver : u.kv.server = (s.kv.server.handle unheeded).1 := by rw [hu]; rfl
  have hlock : u.kv.server.cache "l" = none := by
    rw [hserver]
    simp [KVServer.handle, unheeded, KVServer.put, hdup, h.other, h.lock]
  have hentry : u.kv.server.clientMap 1 = some ⟨1, none, some ⟨.ok⟩⟩ := by
    rw [hserver]
    simp [KVServer.handle, unheeded, KVServer.put, hdup, h.other]
  have hnext : sampleLocks.nextCall 1 (u.phase 1) =
      some (.put "l" (sampleLocks.clientID 1) 0, .acquirePut) := by
    rw [hu]
    exact congrArg (sampleLocks.nextCall 1) h.phase
  obtain ⟨tr, hlen, hput⟩ := LockState.exchange_run (by rw [hclerk]) hnext
  have hhandle : u.kv.server.handle
      ((u.kv.newCall 1 (.put "l" (sampleLocks.clientID 1) 0)).request 1) =
      (u.kv.server, .put ⟨.ok⟩) := by
    simp [KVServer.handle, Call.request, State.newCall, hclerk, KVServer.put, KVServer.dupPut, hentry,
      hlock]
  refine ⟨_, _, ?_, hrun.append hput, ?_, ?_⟩
  · simp [hlen]
  · simp [LockState.setPhase, hhandle, Locks.afterReturn, Locks.acquireAfterPut]
  · exact (congrArg (fun x => x.1.cache "l") hhandle).trans hlock

/-- `Acquire` returns, and the lock is free. -/
theorem acquire (h : Reuses s .outside (-1)) :
    ∃ tr t, tr.length = 8 ∧ (locks sampleLocks).Run s tr t ∧ t.phase 1 = .holding ∧
      t.kv.server.cache "l" = none := by
  have hturn : (locks sampleLocks).Run s [(s, .acquire 1)] (s.setPhase 1 .acquireLoop) := by
    refine Lts.Run.single ?_
    simp [locks, LockState.step, LockState.turn, h.phase, h.clerk]
  have hnext : sampleLocks.nextCall 1 ((s.setPhase 1 .acquireLoop).phase 1) =
      some (.get "l", .acquireGet) := by
    simp [LockState.setPhase]
    rfl
  obtain ⟨tr₁, hlen₁, hrun₁⟩ :=
    LockState.exchange_run (by simp [LockState.setPhase, h.clerk]) hnext
  have hgrab : sampleLocks.afterReturn 1 .acquireGet
      (s.kv.server.handle ((s.kv.newCall 1 (.get "l")).request 1)).2 = .acquireGrab 0 := by
    rw [h.handle_get]
    simp [readReply, h.lock, Locks.afterReturn, Locks.acquireAfterGet]
  rw [show (s.setPhase 1 .acquireLoop).kv = s.kv from rfl, hgrab] at hrun₁
  have hread := h.get "l"
    (t := { s.setPhase 1 .acquireLoop with kv := s.kv.exchanged 1 (.get "l") }.setPhase 1
      (.acquireGrab 0)) rfl (by simp [LockState.setPhase]; rfl)
  rw [show (-1 + 1 : Int64) = 0 by decide] at hread
  obtain ⟨tr₂, t, hlen₂, hrun₂, ht⟩ := hread.put
  refine ⟨_, t, ?_, (hturn.append hrun₁).append hrun₂, ht⟩
  simp [hlen₁, hlen₂]

end Reuses

/-- A `Put` of client 1 to a key that is not there, of which one attempt stays in flight; then client 2
creates the key. -/
def refused : List LockAction :=
  [.other 1 (.put "y" "" 1), .fail 1, .execute 1, .deliver 1 0, .other 2 (.put "y" "" 0), .execute 1,
    .deliver 2 1]

/-- Without a bound on the calls of a clerk an `Acquire` returns without the lock: after `2 ^ 64 - 2`
calls in between, its `Put` has the SeqNum of one that is executed late, and is answered for that. -/
theorem reused_lock : ∃ (L : Locks) (tr : List (LockState × LockAction)) (t : LockState) (c : Int64),
    (locks L).Run .initial tr t ∧ (∀ key, (kvTrace L tr).countP (putsKey key) < 2 ^ 64) ∧
      t.phase c = .holding ∧ t.kv.server.cache L.key = none := by
  have hrefused : (locks sampleLocks).Run .initial
      (traceOf (LockState.step sampleLocks) .initial refused)
      (after (LockState.step sampleLocks) .initial refused) :=
    Lts.run_of_steps (fun _ _ _ h => h) (by decide)
  have hstart : Reuses (after (LockState.step sampleLocks) .initial refused) .outside 1 :=
    ⟨by decide, by decide, by decide, by decide, by decide, by decide⟩
  obtain ⟨tr, t, hrun, ht, hputs⟩ := hstart.rounds (2 ^ 64 - 2)
  obtain ⟨tr', t', hlen, hrun', hholding, hfree⟩ := Reuses.acquire (by
    rwa [show (1 + Int64.ofNat (2 ^ 64 - 2) : Int64) = -1 by decide] at ht)
  refine ⟨sampleLocks, _, t', 1, (hrefused.append hrun).append hrun', fun key => ?_, hholding, hfree⟩
  have hfew : ∀ tr : List (LockState × LockAction),
      (kvTrace sampleLocks tr).countP (putsKey key) ≤ tr.length := fun tr =>
    List.countP_le_length.trans (List.length_filterMap_le _ _)
  have hfirst := hfew (traceOf (LockState.step sampleLocks) .initial refused)
  have hlast := hfew tr'
  have hseven : (traceOf (LockState.step sampleLocks) .initial refused).length = 7 := rfl
  have hmiddle := hputs key
  unfold kvTrace at hfirst hmiddle hlast ⊢
  rw [List.filterMap_append, List.filterMap_append, List.countP_append, List.countP_append]
  omega

end Sample

end DistSys.Kvsrv1
