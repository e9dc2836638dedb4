import Mathlib.Data.List.Perm.Subperm

/- Messages that are under way in two descriptions of one network.

   In the one a message is what an exchange in progress stands for, so the messages are a
   `filterMap` of the exchanges; in the other they are a list by themselves, from which a message is
   taken by its position. The second may hold messages that the first has lost: the one is a
   `Subperm` of the other. -/
namespace DistSys.Lib

variable {α β : Type*}

/-- The messages are that of the exchange at position `c` and those of the others. -/
theorem filterMap_set_perm {l : List α} {c : Nat} {x : α} (f : α → Option β)
    (hc : c < l.length) :
    ((l.set c x).filterMap f).Perm ((f x).toList ++ (l.eraseIdx c).filterMap f) := by
  have hperm := (List.set_perm_cons_eraseIdx hc x).filterMap f
  cases hx : f x <;> simpa [List.filterMap_cons, hx] using hperm

theorem filterMap_perm {l : List α} {c : Nat} {x : α} (f : α → Option β)
    (hc : l[c]? = some x) : (l.filterMap f).Perm ((f x).toList ++ (l.eraseIdx c).filterMap f) := by
  obtain ⟨hlt, hget⟩ := List.getElem?_eq_some_iff.mp hc
  have hset : l.set c x = l := by rw [← hget, List.set_getElem_self]
  have hperm := filterMap_set_perm (x := x) f hlt
  rwa [hset] at hperm

/-- A message that is under way can be taken from the network. -/
theorem take_message {m : α} {rest net : List α} (h : (m :: rest).Subperm net) :
    ∃ k, net[k]? = some m ∧ rest.Subperm (net.eraseIdx k) := by
  obtain ⟨k, hlt, hk⟩ := List.getElem_of_mem (h.subset List.mem_cons_self)
  refine ⟨k, by rw [List.getElem?_eq_getElem hlt, hk], ?_⟩
  have hperm := List.getElem_cons_eraseIdx_perm hlt
  rw [hk] at hperm
  exact (List.subperm_cons m).mp ((hperm.subperm_left).mpr h)

/-- The network without messages that are lost. -/
theorem filterMap_sublist {f g : α → Option β} {l : List α}
    (h : ∀ x ∈ l, g x = none ∨ g x = f x) : (l.filterMap g).Sublist (l.filterMap f) := by
  induction l with
  | nil => simp
  | cons x l ih =>
    have hrest := ih fun y hy => h y (List.mem_cons_of_mem x hy)
    rcases h x List.mem_cons_self with hx | hx
    · rw [List.filterMap_cons_none hx]
      cases hf : f x with
      | none => rwa [List.filterMap_cons_none hf]
      | some y =>
        rw [List.filterMap_cons_some hf]
        exact hrest.cons y
    · cases hf : f x with
      | none => rwa [List.filterMap_cons_none hf, List.filterMap_cons_none (hx.trans hf)]
      | some y =>
        rw [List.filterMap_cons_some hf, List.filterMap_cons_some (hx.trans hf)]
        exact hrest.cons_cons y

end DistSys.Lib
