import DistSys.Raft1.Incarnation
import DistSys.Raft1.Settled

/- What holds along a run without crashes.

   A restart takes the commit index back to the first log index. Without one it
   never goes back, so a snapshot under way covers no more than its sender has
   committed by now. -/
namespace DistSys.Raft1

open Lib

variable {n : Nat} {C D : Type} {svc : Service C D} {s t : Cluster n C D} {g : Ghost n C D}

/-! ## Messages under way -/

/-- The index a snapshot under way covers. -/
def Rpc.snapIndex (m : Rpc n C D) : Option Nat :=
  match m.payload with
  | .snapReq args => some args.lastIncludedIndex
  | .snapRep args _ => some args.lastIncludedIndex
  | _ => none

/-- No peer calls itself, and a snapshot under way covers what its sender has committed. -/
structure NetInv (s : Cluster n C D) : Prop where
  apart : ∀ m ∈ s.net, m.caller ≠ m.server
  covered : ∀ m ∈ s.net, ∀ i, m.snapIndex = some i → i ≤ (s.proc m.caller).rf.commitIndex

/-- A reply covers what its request did. -/
theorem Answers.snapIndex {m : Rpc n C D} {rf rf' : Raft n C D} {reply : Payload n C D}
    (h : Answers rf m.payload rf' reply) :
    ({ m with payload := reply } : Rpc n C D).snapIndex = m.snapIndex := by
  unfold Rpc.snapIndex
  generalize m.payload = payload at h
  cases h <;> rfl

/-- A message after an event is one from before, perhaps answered, or a new one. -/
theorem exec_net {e : Event n C D} (ht : s.exec e = some t) {m : Rpc n C D} (hm : m ∈ t.net) :
    (∃ m' ∈ s.net, m'.caller = m.caller ∧ m'.server = m.server ∧ m'.snapIndex = m.snapIndex) ∨
      (m.caller ≠ m.server ∧
        ∀ i, m.snapIndex = some i → i = (s.proc m.caller).rf.getFirstLog.index) := by
  have hold : ∀ {x : Rpc n C D}, x ∈ s.net → ∃ m' ∈ s.net, m'.caller = x.caller ∧
      m'.server = x.server ∧ m'.snapIndex = x.snapIndex := fun hx => ⟨_, hx, rfl, rfl, rfl⟩
  have hrest : ∀ {x : Rpc n C D} {k : Nat}, x ∈ s.net.eraseIdx k → ∃ m' ∈ s.net,
      m'.caller = x.caller ∧ m'.server = x.server ∧ m'.snapIndex = x.snapIndex :=
    fun hx => hold (List.mem_of_mem_eraseIdx hx)
  cases exec_cases ht with
  | electionTimeout me =>
    rcases List.mem_append.mp hm with hm | hm
    · obtain ⟨peer, hpeer, rfl⟩ := List.mem_map.mp hm
      refine Or.inr ⟨fun he => ?_, fun i hi => by simp [Rpc.snapIndex] at hi⟩
      have : peer ≠ me := by simpa using (List.mem_filter.mp hpeer).2
      exact this he.symm
    · exact Or.inl (hold hm)
  | start me command => exact Or.inl (hold hm)
  | sendAppend me peer args hne hsend =>
    rcases List.mem_cons.mp hm with rfl | hm
    · exact Or.inr ⟨hne, fun i hi => by simp [Rpc.snapIndex] at hi⟩
    · exact Or.inl (hold hm)
  | sendSnapshot me peer args hne hsend =>
    rcases List.mem_cons.mp hm with rfl | hm
    · obtain ⟨-, -, rfl⟩ := doSendAppendEntry_snapshot hsend
      exact Or.inr ⟨hne, fun i hi => (Option.some.inj hi).symm⟩
    · exact Or.inl (hold hm)
  | request k m' rf reply hm' hanswer =>
    rcases List.mem_cons.mp hm with rfl | hm
    · exact Or.inl ⟨m', List.mem_of_getElem? hm', rfl, rfl, hanswer.snapIndex.symm⟩
    · exact Or.inl (hrest hm)
  | reply k m' p hm' hlife hreceive => exact Or.inl (hrest hm)
  | stale k m' hm' hlife => exact Or.inl (hrest hm)
  | lose k => exact Or.inl (hrest hm)
  | snapshot me index data => exact Or.inl (hold hm)
  | applier me hsending => exact Or.inl (hold hm)
  | deliver me msg hsending => exact Or.inl (hold hm)

theorem NetInv.exec (h : NetInv s) (hc : Coupled svc s g) {e : Event n C D}
    (ht : s.exec e = some t) : NetInv t where
  apart := by
    intro m hm
    rcases exec_net ht hm with ⟨m', hm', hcall, hserv, -⟩ | ⟨hne, -⟩
    · rw [← hcall, ← hserv]
      exact h.apart m' hm'
    · exact hne
  covered := by
    intro m hm i hi
    refine le_trans ?_ (exec_commitIndex ht m.caller)
    rcases exec_net ht hm with ⟨m', hm', hcall, -, hidx⟩ | ⟨-, hfirst⟩
    · rw [← hcall]
      exact h.covered m' hm' i (hidx.trans hi)
    · have hlog := (hc.node m.caller).log
      rw [hfirst i hi, hlog.first]
      exact hlog.first_le.trans hlog.applied_le

end DistSys.Raft1
