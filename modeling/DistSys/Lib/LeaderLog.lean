import DistSys.Lib.Majority
import Mathlib.Data.List.Basic
import Mathlib.Logic.Function.Basic

/- Leader-based log replication, as a protocol on durable state only.

   Nodes hold a term, a vote and a log that survive a crash. A term has at most
   one leader; the leader's log in its term only grows, and `llog T` keeps it.
   Everything a node can do to its durable state is one of seven steps: raise
   its term (`bump`), stand for election (`campaign`), vote (`grant`), win
   (`lead`), extend its own log as leader (`append`), confirm that its log
   already holds a piece of a leader's log (`ack`), or replace its log by such
   a piece (`adopt`). What is volatile in an implementation (commit indices,
   counters, messages in flight) is not here: it only ever repeats facts of
   this state.

   The state carries history: who stood in which term with which log (`camp`),
   who voted for whom (`ballot`) and with which log while the term had no leader
   yet (`vlog`), and how much of a leader's log a node confirmed in its term
   (`acked`). -/
namespace DistSys.Lib

/-- A log entry: the term of the leader that created it, and its command. -/
structure Entry (α : Type*) where
  term : Nat
  cmd : α

variable {ι α : Type*}

/-- The term at a position of a log, counted from 1; position 0 stands for the
empty prefix and has term 0. -/
def termAt (ℓ : List (Entry α)) : Nat → Nat
  | 0 => 0
  | i + 1 => match ℓ[i]? with
    | some e => e.term
    | none => 0

/-- The term of the last entry. -/
def lastTerm (ℓ : List (Entry α)) : Nat := termAt ℓ ℓ.length

/-- Log `C` is at least as up-to-date as log `V`. -/
def UpToDate (C V : List (Entry α)) : Prop :=
  lastTerm V < lastTerm C ∨ (lastTerm C = lastTerm V ∧ V.length ≤ C.length)

/-! ## Terms of a log -/

@[simp] theorem termAt_zero (ℓ : List (Entry α)) : termAt ℓ 0 = 0 := rfl

theorem termAt_succ {ℓ : List (Entry α)} {i : Nat} {e : Entry α} (h : ℓ[i]? = some e) :
    termAt ℓ (i + 1) = e.term := by
  simp [termAt, h]

theorem termAt_le {ℓ : List (Entry α)} {T : Nat} (h : ∀ e ∈ ℓ, e.term ≤ T) (i : Nat) :
    termAt ℓ i ≤ T := by
  cases i with
  | zero => exact Nat.zero_le T
  | succ i =>
    cases he : ℓ[i]? with
    | some e =>
      rw [termAt_succ he]
      exact h e (List.mem_of_getElem? he)
    | none => simp [termAt, he]

/-- A position inside the log names an entry of it. -/
theorem exists_entry {ℓ : List (Entry α)} {i : Nat} (h₁ : 1 ≤ i) (h₂ : i ≤ ℓ.length) :
    ∃ e ∈ ℓ, ℓ[i - 1]? = some e ∧ termAt ℓ i = e.term := by
  obtain ⟨j, rfl⟩ : ∃ j, i = j + 1 := ⟨i - 1, by omega⟩
  have hj : j < ℓ.length := by omega
  have he : ℓ[j]? = some ℓ[j] := List.getElem?_eq_getElem hj
  exact ⟨ℓ[j], List.getElem_mem hj, by simp, termAt_succ he⟩

theorem termAt_prefix_eq {ℓ m : List (Entry α)} (h : ℓ <+: m) {i : Nat} (hi : i ≤ ℓ.length) :
    termAt m i = termAt ℓ i := by
  obtain ⟨r, rfl⟩ := h
  cases i with
  | zero => rfl
  | succ j =>
    have hj : j < ℓ.length := by omega
    simp only [termAt, List.getElem?_append_left hj]

theorem getElem?_of_isPrefix {β : Type*} {ℓ m : List β} (h : ℓ <+: m) {i : Nat} {x : β}
    (hx : ℓ[i]? = some x) : m[i]? = some x := by
  obtain ⟨r, rfl⟩ := h
  rw [List.getElem?_append_left (List.getElem?_eq_some_iff.mp hx).1]
  exact hx

theorem termAt_take {ℓ : List (Entry α)} {k i : Nat} (h : i ≤ k) :
    termAt (ℓ.take k) i = termAt ℓ i := by
  cases i with
  | zero => rfl
  | succ j => simp only [termAt, List.getElem?_take_of_lt (show j < k by omega)]

theorem termAt_append_length (ℓ : List (Entry α)) (e : Entry α) :
    termAt (ℓ ++ [e]) (ℓ.length + 1) = e.term :=
  termAt_succ (by simp)

/-! ## The protocol -/

/-- The durable state of all nodes, with its history. -/
structure Repl (ι α : Type*) where
  term : ι → Nat
  vote : ι → Option ι
  log : ι → List (Entry α)
  /-- The log a node stood for election with in a term. -/
  camp : Nat → ι → Option (List (Entry α))
  /-- Whom a node voted for in a term. -/
  ballot : ι → Nat → Option ι
  /-- The log a node voted with, when the term had no leader yet. -/
  vlog : ι → Nat → Option (List (Entry α))
  /-- The leader of a term: the node, and which of its lives won it. -/
  leader : Nat → Option (ι × Nat)
  /-- The leader's log in its term, as far as it grew. -/
  llog : Nat → List (Entry α)
  /-- How much of the leader's log of a term a node confirmed in that term. -/
  acked : ι → Nat → Nat

/-- Nobody has stood, voted or written anything. -/
def Repl.initial (ι α : Type*) : Repl ι α where
  term := fun _ => 0
  vote := fun _ => none
  log := fun _ => []
  camp := fun _ _ => none
  ballot := fun _ _ => none
  vlog := fun _ _ => none
  leader := fun _ => none
  llog := fun _ => []
  acked := fun _ _ => 0

/-- A function of two arguments changed at one point. -/
def update₂ {β γ δ : Type*} [DecidableEq β] [DecidableEq γ] (f : β → γ → δ) (b : β) (c : γ)
    (d : δ) : β → γ → δ :=
  fun b' c' => if b' = b ∧ c' = c then d else f b' c'

section Update
variable {β γ δ : Type*} [DecidableEq β] [DecidableEq γ] (f : β → γ → δ) (b : β) (c : γ) (d : δ)

@[simp] theorem update₂_self : update₂ f b c d b c = d := by simp [update₂]

end Update

namespace Repl

variable [DecidableEq ι]

/-- `n` raises its term to `T` and records the vote `v`. -/
def bump (g : Repl ι α) (n : ι) (T : Nat) (v : Option ι) : Repl ι α :=
  { g with term := Function.update g.term n T, vote := Function.update g.vote n v }

/-- `n` stands for election in `T` and votes for itself. -/
def campaign (g : Repl ι α) (n : ι) (T : Nat) : Repl ι α :=
  { g with
    term := Function.update g.term n T
    vote := Function.update g.vote n (some n)
    camp := update₂ g.camp T n (some (g.log n))
    ballot := update₂ g.ballot n T (some n)
    vlog := if g.leader T = none then update₂ g.vlog n T (some (g.log n)) else g.vlog }

/-- `v` votes for `k` in its term `T`. -/
def grant (g : Repl ι α) (v k : ι) (T : Nat) : Repl ι α :=
  { g with
    vote := Function.update g.vote v (some k)
    ballot := update₂ g.ballot v T (some k)
    vlog := if g.leader T = none then update₂ g.vlog v T (some (g.log v)) else g.vlog }

/-- `k`, in its life `e`, becomes the leader of `T`. -/
def lead (g : Repl ι α) (k : ι) (T e : Nat) : Repl ι α :=
  { g with
    leader := Function.update g.leader T (some (k, e))
    llog := Function.update g.llog T (g.log k)
    acked := update₂ g.acked k T (g.log k).length }

/-- The leader `k` of `T` appends a command to its log. -/
def append (g : Repl ι α) (k : ι) (T : Nat) (a : α) : Repl ι α :=
  { g with
    log := Function.update g.log k (g.log k ++ [⟨T, a⟩])
    llog := Function.update g.llog T (g.log k ++ [⟨T, a⟩])
    acked := update₂ g.acked k T ((g.log k).length + 1) }

/-- `n` confirms `m` entries of the log of the leader of `T`. -/
def ack (g : Repl ι α) (n : ι) (T m : Nat) : Repl ι α :=
  { g with acked := update₂ g.acked n T (max (g.acked n T) m) }

/-- `n` replaces its log by the piece `P` of the log of the leader of `T`. -/
def adopt (g : Repl ι α) (n : ι) (T : Nat) (P : List (Entry α)) : Repl ι α :=
  { g with
    log := Function.update g.log n P
    acked := update₂ g.acked n T (max (g.acked n T) P.length) }

variable [Fintype ι]

/-- The steps of the protocol. -/
inductive Step (g : Repl ι α) : Repl ι α → Prop where
  | bump (n : ι) (T : Nat) (v : Option ι) (hT : g.term n < T) : Step g (g.bump n T v)
  | campaign (n : ι) (T : Nat) (hT : g.term n < T) : Step g (g.campaign n T)
  | grant (v k : ι) (T : Nat) (C : List (Entry α)) (hT : g.term v = T)
      (hv : g.vote v = none ∨ g.vote v = some k) (hC : g.camp T k = some C)
      (hup : UpToDate C (g.log v)) : Step g (g.grant v k T)
  | lead (k : ι) (T e : Nat) (Q : Finset ι) (hT : g.term k = T)
      (hC : g.camp T k = some (g.log k)) (hnone : g.leader T = none) (hQ : IsMajority Q)
      (hvotes : ∀ v ∈ Q, g.ballot v T = some k) : Step g (g.lead k T e)
  | append (k : ι) (T e : Nat) (a : α) (hT : g.term k = T) (hk : g.leader T = some (k, e)) :
      Step g (g.append k T a)
  | ack (n : ι) (T m : Nat) (hT : g.term n ≤ T) (hled : g.leader T ≠ none)
      (hm : m ≤ (g.llog T).length) (hP : (g.llog T).take m <+: g.log n) : Step g (g.ack n T m)
  | adopt (n : ι) (T : Nat) (P : List (Entry α)) (hT : g.term n = T) (hled : g.leader T ≠ none)
      (hP : P <+: g.llog T) (hnew : ¬ P <+: g.log n) : Step g (g.adopt n T P)

end Repl

end DistSys.Lib
