import DistSys.Lib.LeaderLogSafety
import DistSys.Raft1.Node

/- A compacted log as a view of a whole one.

   `compact ℓ b` is what `rf.logs` holds when the whole log is `ℓ` and the first
   `b` entries are in the snapshot: the placeholder `logs[0]` with index `b` and
   the term of entry `b`, then the entries after it with their indices. Every
   function of the source that reads or cuts `rf.logs` is described here by what
   it does to `ℓ` and `b`. -/
namespace DistSys.Raft1

open Lib

variable {n : Nat} {C D : Type}

/-- Entries numbered from `b + 1` on. -/
def tag : Nat → List (Entry (Option C)) → List (LogEntry C)
  | _, [] => []
  | b, e :: es => { command := e.cmd, term := e.term, index := b + 1 } :: tag (b + 1) es

/-- The log `ℓ` with its first `b` entries compacted into the placeholder. -/
def compact (ℓ : List (Entry (Option C))) (b : Nat) : List (LogEntry C) :=
  { command := none, term := termAt ℓ b, index := b } :: tag b (ℓ.drop b)

/-! ## Numbered entries -/

@[simp] theorem tag_length (b : Nat) (es : List (Entry (Option C))) :
    (tag b es).length = es.length := by
  induction es generalizing b with
  | nil => rfl
  | cons e es ih => simp [tag, ih]

theorem tag_append (b : Nat) (xs ys : List (Entry (Option C))) :
    tag b (xs ++ ys) = tag b xs ++ tag (b + xs.length) ys := by
  induction xs generalizing b with
  | nil => simp [tag]
  | cons x xs ih => simp [tag, ih, Nat.add_assoc, Nat.add_comm 1]

theorem tag_getElem? (b k : Nat) (es : List (Entry (Option C))) :
    (tag b es)[k]? = es[k]?.map fun e => { command := e.cmd, term := e.term, index := b + 1 + k } := by
  induction es generalizing b k with
  | nil => simp [tag]
  | cons e es ih =>
    cases k with
    | zero => simp [tag]
    | succ k =>
      simp only [tag, List.getElem?_cons_succ, ih]
      congr 2
      funext e
      congr 1
      omega

theorem tag_drop (b k : Nat) (es : List (Entry (Option C))) :
    (tag b es).drop k = tag (b + k) (es.drop k) := by
  induction es generalizing b k with
  | nil => simp [tag]
  | cons e es ih =>
    cases k with
    | zero => simp [tag]
    | succ k => simp [tag, ih, Nat.add_assoc, Nat.add_comm 1]

theorem tag_take (b k : Nat) (es : List (Entry (Option C))) :
    (tag b es).take k = tag b (es.take k) := by
  induction es generalizing b k with
  | nil => simp [tag]
  | cons e es ih =>
    cases k with
    | zero => simp [tag]
    | succ k => simp [tag, ih]

theorem tag_inj {b : Nat} {xs ys : List (Entry (Option C))} (h : tag b xs = tag b ys) : xs = ys := by
  induction xs generalizing b ys with
  | nil => cases ys with
    | nil => rfl
    | cons y ys => simp [tag] at h
  | cons x xs ih => cases ys with
    | nil => simp [tag] at h
    | cons y ys =>
      simp only [tag, List.cons.injEq, LogEntry.mk.injEq, and_true] at h
      obtain ⟨⟨hcmd, hterm⟩, hrest⟩ := h
      rw [ih hrest]
      cases x
      cases y
      simp_all

/-! ## Reading a compacted log -/

variable {ℓ P : List (Entry (Option C))} {b : Nat}

theorem compact_length : (compact ℓ b).length = ℓ.length - b + 1 := by
  simp [compact]

/-- The entry of a compacted log at an index above the placeholder. -/
theorem compact_getElem? {k : Nat} :
    (compact ℓ b)[k + 1]? =
      ℓ[b + k]?.map fun e => { command := e.cmd, term := e.term, index := b + 1 + k } := by
  simp [compact, tag_getElem?, List.getElem?_drop]

/-- The entry at an index that the log retains has that index and its term. -/
theorem compact_getD {i : Nat} (h₁ : b ≤ i) (h₂ : i ≤ ℓ.length) :
    ((compact ℓ b).getD (i - b) default).term = termAt ℓ i ∧
      ((compact ℓ b).getD (i - b) default).index = i := by
  rcases Nat.eq_or_lt_of_le h₁ with rfl | h
  · simp [compact]
  · obtain ⟨k, rfl⟩ : ∃ k, i = b + k + 1 := ⟨i - b - 1, by omega⟩
    have hk : b + k < ℓ.length := by omega
    rw [show b + k + 1 - b = k + 1 by omega, List.getD_eq_getElem?_getD, compact_getElem?,
      List.getElem?_eq_getElem hk]
    simp only [Option.map_some, Option.getD_some, termAt, List.getElem?_eq_getElem hk]
    exact ⟨trivial, by omega⟩

theorem compact_head : (compact ℓ b).headD default = ⟨none, termAt ℓ b, b⟩ := rfl

theorem compact_getLast (hb : b ≤ ℓ.length) :
    ((compact ℓ b).getLastD default).index = ℓ.length ∧
      ((compact ℓ b).getLastD default).term = lastTerm ℓ := by
  have hlast : (compact ℓ b).getLastD default = (compact ℓ b).getD (ℓ.length - b) default := by
    rw [List.getLastD_eq_getLast?, List.getLast?_eq_getElem?, compact_length,
      List.getD_eq_getElem?_getD]
    simp
  obtain ⟨h₁, h₂⟩ := compact_getD hb (Nat.le_refl ℓ.length)
  rw [hlast]
  exact ⟨h₂, h₁⟩

/-- The placeholder is the only entry without an entry of the whole log behind it. -/
theorem mem_compact {e : LogEntry C} (hb : b ≤ ℓ.length) (he : e ∈ compact ℓ b) :
    b ≤ e.index ∧ e.index ≤ ℓ.length ∧ e.term = termAt ℓ e.index ∧
      (b < e.index → ∃ x, ℓ[e.index - 1]? = some x ∧ e.command = x.cmd ∧ e.term = x.term) := by
  obtain ⟨k, hk⟩ := List.mem_iff_getElem?.mp he
  cases k with
  | zero =>
    obtain rfl : (⟨none, termAt ℓ b, b⟩ : LogEntry C) = e := by simpa [compact] using hk
    exact ⟨Nat.le_refl _, hb, rfl, fun h => absurd h (Nat.lt_irrefl _)⟩
  | succ k =>
    rw [compact_getElem?] at hk
    obtain ⟨x, hx, rfl⟩ := Option.map_eq_some_iff.mp hk
    have hlt : b + k < ℓ.length := (List.getElem?_eq_some_iff.mp hx).1
    refine ⟨by simp; omega, by simp; omega, ?_, fun _ => ⟨x, ?_, rfl, rfl⟩⟩
    · simp only
      rw [show b + 1 + k = (b + k) + 1 by omega]
      exact (termAt_succ hx).symm
    · simp only
      rw [show b + 1 + k - 1 = b + k by omega]
      exact hx

/-- The entries after a retained index. -/
theorem compact_drop_succ {i : Nat} (h : b ≤ i) :
    (compact ℓ b).drop (i + 1 - b) = tag i (ℓ.drop i) := by
  obtain ⟨k, rfl⟩ : ∃ k, i = b + k := ⟨i - b, by omega⟩
  rw [show b + k + 1 - b = k + 1 by omega]
  simp [compact, tag_drop]

/-! ## Cutting and extending a compacted log -/

/-- `Snapshot` at a retained index compacts further. -/
theorem compact_advance {i : Nat} (h₁ : b ≤ i) (h₂ : i ≤ ℓ.length) :
    { ((compact ℓ b).drop (i - b)).headD default with command := none } ::
      ((compact ℓ b).drop (i - b)).tail = compact ℓ i := by
  obtain ⟨ht, hidx⟩ := compact_getD (C := C) h₁ h₂
  have hhead : ((compact ℓ b).drop (i - b)).headD default = (compact ℓ b).getD (i - b) default := by
    rw [List.headD_eq_head?_getD, List.head?_drop, List.getD_eq_getElem?_getD]
  have htail : ((compact ℓ b).drop (i - b)).tail = tag i (ℓ.drop i) := by
    rw [List.tail_drop, ← compact_drop_succ h₁]
    congr 1
    omega
  simp only [htail, hhead, ht, hidx]
  rfl

theorem compact_append (hb : b ≤ ℓ.length) (e : Entry (Option C)) :
    compact (ℓ ++ [e]) b = compact ℓ b ++ [⟨e.cmd, e.term, ℓ.length + 1⟩] := by
  simp only [compact, List.drop_append_of_le_length hb, tag_append, List.length_drop,
    termAt_prefix_eq (List.prefix_append ℓ [e]) hb, List.cons_append, tag]
  congr 5
  omega

/-- Cutting after `j` entries and continuing with those of another log. -/
theorem compact_take_append {j : Nat} (h₁ : b ≤ j) (h₂ : j ≤ ℓ.length) (hag : ℓ.take j = P.take j) :
    (compact ℓ b).take (j + 1 - b) ++ tag j (P.drop j) = compact P b := by
  have hterm : termAt ℓ b = termAt P b := by
    rw [← termAt_take h₁, hag, termAt_take h₁]
  have hsplit : P.drop b = (ℓ.drop b).take (j - b) ++ P.drop j := by
    conv_lhs => rw [← List.take_append_drop j P, ← hag]
    rw [List.drop_append_of_le_length (by simp; omega), List.drop_take]
  rw [show j + 1 - b = (j - b) + 1 by omega]
  simp only [compact, List.take_succ_cons, List.cons_append, tag_take, hterm, hsplit, tag_append]
  congr 3
  simp
  omega

/-- A compacted log determines the whole one among those that leaders sent: the entry at the
placeholder fixes everything below it. -/
theorem compact_inj {c : Repl (Fin n) (Option C)} (hℓ : c.Sourced ℓ) (hP : c.Sourced (P.take b))
    (h₁ : b ≤ ℓ.length) (h₂ : b ≤ P.length) (h : compact ℓ b = compact P b) : ℓ = P := by
  simp only [compact, List.cons.injEq, LogEntry.mk.injEq, true_and, and_true] at h
  obtain ⟨hterm, hrest⟩ := h
  have hlow : ℓ.take b = P.take b := by
    have := hℓ.matching hP h₁ (by rw [List.length_take]; omega) (by rw [termAt_take le_rfl]; exact hterm)
    rwa [List.take_take, Nat.min_self] at this
  rw [← List.take_append_drop b ℓ, hlow, tag_inj hrest, List.take_append_drop]

/-! ## The append loop -/

/-- The loop of `AppendEntry` on a log that agrees with the leader's piece `P` up
to the previous index: nothing happens when the log holds all of `P`, and
otherwise `P` replaces it. -/
theorem appendNewEntries_compact {g : Repl (Fin n) (Option C)} (hℓ : g.Sourced ℓ)
    (hP : g.Sourced P) (hb : b ≤ ℓ.length) : ∀ (m j : Nat), j + m = P.length → b ≤ j →
    j ≤ ℓ.length → ℓ.take j = P.take j →
    (P <+: ℓ ∧ Raft.appendNewEntries b (compact ℓ b) (tag j (P.drop j)) = none) ∨
      (¬ P <+: ℓ ∧ Raft.appendNewEntries b (compact ℓ b) (tag j (P.drop j)) = some (compact P b)) := by
  intro m
  induction m with
  | zero =>
    intro j hj hbj hjℓ hag
    obtain rfl : j = P.length := by omega
    rw [List.take_length] at hag
    refine Or.inl ⟨hag ▸ List.take_prefix _ _, ?_⟩
    simp [tag, Raft.appendNewEntries]
  | succ m ih =>
    intro j hj hbj hjℓ hag
    have hlt : j < P.length := by omega
    have hstep : P.drop j = P[j] :: P.drop (j + 1) := List.drop_eq_getElem_cons hlt
    have htermP : termAt P (j + 1) = P[j].term := termAt_succ (List.getElem?_eq_getElem hlt)
    have hcut : (compact ℓ b).take (j + 1 - b) ++ tag j (P.drop j) = compact P b :=
      compact_take_append hbj hjℓ hag
    rw [hstep] at hcut ⊢
    simp only [tag, Raft.appendNewEntries] at hcut ⊢
    rw [compact_length]
    split
    · rename_i hc
      refine Or.inr ⟨fun hpre => ?_, by rw [hcut]⟩
      -- either the log ends here or the terms differ
      have hlen := hpre.length_le
      rcases hc with hc | hc
      · omega
      · rw [(compact_getD (by omega) (by omega)).1, termAt_prefix_eq hpre (by omega), htermP] at hc
        exact hc rfl
    · rename_i hc
      simp only [not_or, not_not, ge_iff_le, Nat.not_le] at hc
      obtain ⟨hc₁, hc₂⟩ := hc
      rw [(compact_getD (by omega) (by omega)).1, ← htermP] at hc₂
      exact ih (j + 1) (by omega) (by omega) (by omega)
        (hℓ.matching hP (by omega) (by omega) hc₂)

end DistSys.Raft1
