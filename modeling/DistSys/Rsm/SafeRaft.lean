import DistSys.Lib.Transition
import Mathlib.Data.List.Induction
import Mathlib.Logic.Function.Basic

/- Raft as the layer above sees it: an agreed log, delivered in order.

   The state is what a safe Raft promises and nothing of how it is done. Every
   successful `Start` is recorded with the index and term it returned; no two have
   the same. The agreed log grows at its end by an entry that some `Start` returned
   that index for. Each replica is delivered the agreed commands one by one from
   where it is, or jumps ahead with a snapshot that some service handed over.
   A restart goes back to the snapshot in the persister. -/
namespace DistSys.Rsm

variable {n : Nat} {C D : Type}

/-- A successful `Start` on `server`. -/
structure Started (n : Nat) (C : Type) where
  server : Fin n
  index : Nat
  term : Nat
  command : C
  deriving DecidableEq

structure SafeRaft (n : Nat) (C D : Type) where
  started : List (Started n C)
  /-- Term and command of the agreed entries, from index 1 on. -/
  agreed : List (Nat × C)
  /-- The index of the last message delivered to a replica, or where it booted. -/
  position : Fin n → Nat
  /-- The snapshots handed over so far, with their index. -/
  taken : List (Nat × D)
  /-- The snapshot in the persister of a replica. -/
  saved : Fin n → Option (Nat × D)

namespace SafeRaft

def initial (n : Nat) (C D : Type) : SafeRaft n C D where
  started := []
  agreed := []
  position := fun _ => 0
  taken := []
  saved := fun _ => none

def savedIndex (raft : SafeRaft n C D) (r : Fin n) : Nat := ((raft.saved r).map Prod.fst).getD 0

/-- `Start` on a leader: a position of the log that no other `Start` got in this term, beyond what
the leader has delivered. -/
def start (raft : SafeRaft n C D) (r : Fin n) (index term : Nat) (command : C) :
    Option (SafeRaft n C D) :=
  if raft.position r < index ∧
      ∀ x ∈ raft.started, ¬ (x.index = index ∧ x.term = term) then
    some { raft with started := ⟨r, index, term, command⟩ :: raft.started }
  else none

/-- The `k`-th recorded `Start` is agreed on at the next index. -/
def commit (raft : SafeRaft n C D) (k : Nat) : Option (SafeRaft n C D) :=
  match raft.started[k]? with
  | some x =>
    if x.index = raft.agreed.length + 1 then
      some { raft with agreed := raft.agreed ++ [(x.term, x.command)] }
    else none
  | none => none

/-- The next command message to a replica. -/
def next (raft : SafeRaft n C D) (r : Fin n) : Option (Nat × C) :=
  raft.agreed[raft.position r]?.map fun e => (raft.position r + 1, e.2)

/-- The replica has taken a message for that index. -/
def advance (raft : SafeRaft n C D) (r : Fin n) (index : Nat) : SafeRaft n C D :=
  { raft with position := Function.update raft.position r index }

/-- `Snapshot(index, data)`; an index not beyond the one saved is ignored. -/
def snapshot (raft : SafeRaft n C D) (r : Fin n) (index : Nat) (data : D) : SafeRaft n C D :=
  if index ≤ raft.savedIndex r then raft
  else { raft with
    taken := (index, data) :: raft.taken
    saved := Function.update raft.saved r (some (index, data)) }

/-- A snapshot from another replica is installed in the persister. -/
def install (raft : SafeRaft n C D) (r : Fin n) (k : Nat) : Option (SafeRaft n C D) :=
  match raft.taken[k]? with
  | some (index, data) =>
    if index ≤ raft.savedIndex r then none
    else some { raft with saved := Function.update raft.saved r (some (index, data)) }
  | none => none

/-- The snapshot message that a replica may be delivered next. -/
def nextSnapshot (raft : SafeRaft n C D) (r : Fin n) (k : Nat) : Option (Nat × D) :=
  match raft.taken[k]? with
  | some (index, data) => if raft.position r < index then some (index, data) else none
  | none => none

def restart (raft : SafeRaft n C D) (r : Fin n) : SafeRaft n C D :=
  raft.advance r (raft.savedIndex r)

/-! ## Its runs -/

inductive Label (n : Nat) (C D : Type) where
  | start (r : Fin n) (index term : Nat) (command : C)
  | commit (k : Nat)
  | deliver (r : Fin n) (index : Nat) (command : C)
  | snapshot (r : Fin n) (index : Nat) (data : D)
  | install (r : Fin n) (k : Nat)
  /-- A snapshot message carries data or, by its type, nothing. -/
  | deliverSnapshot (r : Fin n) (index : Nat) (data : Option D)
  | restart (r : Fin n)

/-- Agreement and the transfer of snapshots go on inside Raft. -/
def Label.isVisible : Label n C D → Bool
  | .commit _ => false
  | .install _ _ => false
  | _ => true

inductive Step (raft : SafeRaft n C D) : Label n C D → SafeRaft n C D → Prop where
  | start {r : Fin n} {index term : Nat} {command : C} {raft' : SafeRaft n C D}
      (h : raft.start r index term command = some raft') : Step raft (.start r index term command) raft'
  | commit {k : Nat} {raft' : SafeRaft n C D} (h : raft.commit k = some raft') :
      Step raft (.commit k) raft'
  | deliver {r : Fin n} {index : Nat} {command : C} (h : raft.next r = some (index, command)) :
      Step raft (.deliver r index command) (raft.advance r index)
  | snapshot (r : Fin n) (index : Nat) (data : D) :
      Step raft (.snapshot r index data) (raft.snapshot r index data)
  | install {r : Fin n} {k : Nat} {raft' : SafeRaft n C D} (h : raft.install r k = some raft') :
      Step raft (.install r k) raft'
  | deliverSnapshot {r : Fin n} {k index : Nat} {data : D}
      (h : raft.nextSnapshot r k = some (index, data)) :
      Step raft (.deliverSnapshot r index (some data)) (raft.advance r index)
  | restart (r : Fin n) : Step raft (.restart r) (raft.restart r)

def lts (n : Nat) (C D : Type) : Lib.Lts (SafeRaft n C D) (Label n C D) where
  init := fun raft => raft = initial n C D
  step := Step

/-- What the layer above sees of a run. -/
def seen (tr : List (SafeRaft n C D × Label n C D)) : List (Label n C D) :=
  (tr.map Prod.snd).filter Label.isVisible

@[simp] theorem seen_nil : seen ([] : List (SafeRaft n C D × Label n C D)) = [] := rfl

@[simp] theorem seen_append (tr tr' : List (SafeRaft n C D × Label n C D)) :
    seen (tr ++ tr') = seen tr ++ seen tr' := by
  simp [seen]

theorem seen_single (raft : SafeRaft n C D) (l : Label n C D) :
    seen [(raft, l)] = if l.isVisible then [l] else [] := by
  simp only [seen, List.map_cons, List.map_nil, List.filter_cons, List.filter_nil]

theorem run_single {raft raft' : SafeRaft n C D} {l : Label n C D} (h : Step raft l raft') :
    (lts n C D).Run raft [(raft, l)] raft' :=
  Lib.Lts.Run.single (M := lts n C D) h

/-- Entries that were started at the next indices may be agreed on, one after the other. -/
theorem run_commits {raft : SafeRaft n C D} {es : List (Nat × C)}
    (h : ∀ i e, es[i]? = some e → ∃ x ∈ raft.started,
      x.index = raft.agreed.length + i + 1 ∧ x.term = e.1 ∧ x.command = e.2) :
    ∃ tr, (lts n C D).Run raft tr { raft with agreed := raft.agreed ++ es } ∧ seen tr = [] := by
  induction es using List.reverseRecOn with
  | nil => exact ⟨[], by simpa using Lib.Lts.Run.nil, rfl⟩
  | append_singleton es e ih =>
    obtain ⟨tr, hrun, hseen⟩ := ih fun i x hx =>
      h i x (by rw [List.getElem?_append_left (List.getElem?_eq_some_iff.mp hx).1]; exact hx)
    obtain ⟨x, hx, hidx, hterm, hcmd⟩ := h es.length e (by simp)
    obtain ⟨k, hk, hkx⟩ := List.getElem_of_mem hx
    have hstep : (SafeRaft.mk raft.started (raft.agreed ++ es) raft.position raft.taken
        raft.saved).commit k = some { raft with agreed := raft.agreed ++ (es ++ [e]) } := by
      simp [commit, List.getElem?_eq_getElem hk, hkx, hidx, hterm, hcmd]
    refine ⟨_, hrun.append (run_single (.commit hstep)), ?_⟩
    rw [seen_append, hseen, seen_single]
    rfl

/-! ## What holds of every safe Raft -/

theorem start_eq {raft raft' : SafeRaft n C D} {r : Fin n} {index term : Nat} {command : C}
    (hs : raft.start r index term command = some raft') :
    raft' = { raft with started := ⟨r, index, term, command⟩ :: raft.started } := by
  obtain ⟨-, hs⟩ := Option.ite_none_right_eq_some.mp hs
  exact (Option.some.inj hs).symm

theorem commit_eq {raft raft' : SafeRaft n C D} {k : Nat} (hs : raft.commit k = some raft') :
    ∃ x, raft.started[k]? = some x ∧ x.index = raft.agreed.length + 1 ∧
      raft' = { raft with agreed := raft.agreed ++ [(x.term, x.command)] } := by
  unfold SafeRaft.commit at hs
  split at hs
  · rename_i x hx
    obtain ⟨hidx, hs⟩ := Option.ite_none_right_eq_some.mp hs
    exact ⟨x, hx, hidx, (Option.some.inj hs).symm⟩
  · contradiction

theorem nextSnapshot_mem {raft : SafeRaft n C D} {r : Fin n} {k index : Nat} {data : D}
    (h : raft.nextSnapshot r k = some (index, data)) : (index, data) ∈ raft.taken := by
  unfold nextSnapshot at h
  split at h
  · rename_i index' data' hget
    obtain ⟨-, h⟩ := Option.ite_none_right_eq_some.mp h
    obtain ⟨rfl, rfl⟩ := Prod.mk.inj (Option.some.inj h)
    exact List.mem_of_getElem? hget
  · contradiction

/-- Every agreed entry was started at its index. -/
def AgreedStarted (raft : SafeRaft n C D) : Prop :=
  ∀ i e, raft.agreed[i]? = some e →
    ∃ x ∈ raft.started, x.index = i + 1 ∧ x.term = e.1 ∧ x.command = e.2

theorem AgreedStarted.start {raft raft' : SafeRaft n C D} (h : raft.AgreedStarted) {r : Fin n}
    {index term : Nat} {command : C} (hs : raft.start r index term command = some raft') :
    raft'.AgreedStarted := by
  obtain rfl := start_eq hs
  intro i e he
  obtain ⟨x, hx, hrest⟩ := h i e he
  exact ⟨x, List.mem_cons_of_mem _ hx, hrest⟩

theorem AgreedStarted.commit {raft raft' : SafeRaft n C D} (h : raft.AgreedStarted) {k : Nat}
    (hs : raft.commit k = some raft') : raft'.AgreedStarted := by
  obtain ⟨x, hx, hidx, rfl⟩ := commit_eq hs
  intro i e he
  rcases Nat.lt_or_ge i raft.agreed.length with hlt | hge
  · rw [List.getElem?_append_left hlt] at he
    exact h i e he
  · rw [List.getElem?_append_right hge] at he
    -- the entry is the one just agreed on
    obtain rfl : i = raft.agreed.length := by
      by_contra hne
      rw [List.getElem?_eq_none (by simp; omega)] at he
      simp at he
    obtain rfl : (x.term, x.command) = e := by simpa using he
    exact ⟨x, List.mem_of_getElem? hx, hidx, rfl, rfl⟩

end SafeRaft

end DistSys.Rsm
