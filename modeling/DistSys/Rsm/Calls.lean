import DistSys.Rsm.Cases

/- What the code of one replica keeps of its `Submit` calls.

   The meaning of a good answer is a parameter: `St index term op` that a `Start`
   returned `index` and `term` for `op`, `Good index term op v` that `v` is an answer
   to it. The code then keeps that every call holds an op of its own request, that a
   call told to succeed has a good result, and that the map names calls that wait at
   that index. Only two steps need something from outside: `Start`, that its answer
   is recorded, and `applyCommand`, that what its test accepts is good. -/
namespace DistSys.Rsm

open Kvsrv1

variable {n : Nat} {Q R : Type} {M : StateMachine Q R}

namespace Stage

/-- The index a call is registered at, once it is. -/
def slot : Stage n Q R → Option Nat
  | waiting _ index _ => some index
  | leaving _ index _ _ _ => some index
  | returned _ index _ _ _ => some index
  | _ => none

/-- What `doSubmit` is to return, once that is known. -/
def outcome : Stage n Q R → Option (Err × Option R)
  | refused => some (.errWrongLeader, none)
  | leaving _ _ _ err result => some (err, result)
  | returned _ _ _ err result => some (err, result)
  | _ => none

@[simp] theorem own_mapPending (f : PendingOp n Q R → PendingOp n Q R) (st : Stage n Q R) :
    (st.mapPending f).own = st.own.map fun x => (f x.1, x.2) := by
  cases st <;> rfl

@[simp] theorem slot_mapPending (f : PendingOp n Q R → PendingOp n Q R) (st : Stage n Q R) :
    (st.mapPending f).slot = st.slot := by
  cases st <;> rfl

@[simp] theorem outcome_mapPending (f : PendingOp n Q R → PendingOp n Q R) (st : Stage n Q R) :
    (st.mapPending f).outcome = st.outcome := by
  cases st <;> rfl

theorem mapPending_eq_numbered {f : PendingOp n Q R → PendingOp n Q R} {st : Stage n Q R}
    {op : Op n Q} (h : st.mapPending f = .numbered op) : st = .numbered op := by
  cases st <;> simp_all [mapPending]

theorem own_of_slot {st : Stage n Q R} {i : Nat} (h : st.slot = some i) :
    ∃ p term, st.own = some (p, i, term) := by
  cases st <;> simp_all [slot, own]

end Stage

section

variable (St : Nat → Nat → Op n Q → Prop) (Good : Nat → Nat → Op n Q → Option R → Prop)

/-- A value that a call got or is to return is good for its own op. -/
def Stage.Answered (st : Stage n Q R) (v : Option R) : Prop :=
  ∃ p i term, st.own = some (p, i, term) ∧ Good i term p.op v

structure Call.Ok (me : Fin n) (call : Call n Q R) : Prop where
  numbered : ∀ op, call.stage = .numbered op → op.me = me ∧ op.req = call.req
  own : ∀ p i term, call.stage.own = some (p, i, term) →
    p.op.me = me ∧ p.op.req = call.req ∧ St i term p.op
  done : ∀ p i term, call.stage.own = some (p, i, term) → p.done = some true →
    Good i term p.op p.result
  outcome : ∀ v, call.stage.outcome = some (.ok, v) → call.stage.Answered Good v
  answer : ∀ v, call.answer = some (.ok, v) → call.stage.outcome = some (.ok, v)

structure RSM.Ok (me : Fin n) (rsm : RSM n M) : Prop where
  me_eq : rsm.me = me
  calls : ∀ (c : Nat) (call : Call n Q R), rsm.calls[c]? = some call → call.Ok St Good me
  registered : ∀ i c, rsm.pendingOps i = some c → (rsm.stage c).bind Stage.slot = some i

end

variable {St St' : Nat → Nat → Op n Q → Prop} {Good Good' : Nat → Nat → Op n Q → Option R → Prop}

theorem PendingOp.send_op (p : PendingOp n Q R) (res : Bool) : (p.send res).op = p.op := by
  unfold PendingOp.send
  split <;> rfl

theorem PendingOp.send_result (p : PendingOp n Q R) (res : Bool) :
    (p.send res).result = p.result := by
  unfold PendingOp.send
  split <;> rfl

theorem PendingOp.send_false_done {p : PendingOp n Q R} (h : (p.send false).done = some true) :
    p.done = some true := by
  unfold PendingOp.send at h
  split at h
  · simp at h
  · exact h

/-! ## Calls -/

namespace Call.Ok

variable {me : Fin n} {call : Call n Q R}

theorem mono (h : call.Ok St Good me) (hSt : ∀ i term op, St i term op → St' i term op)
    (hGood : ∀ i term op v, Good i term op v → Good' i term op v) : call.Ok St' Good' me where
  numbered := h.numbered
  own := fun p i term hown => ⟨(h.own p i term hown).1, (h.own p i term hown).2.1,
    hSt _ _ _ (h.own p i term hown).2.2⟩
  done := fun p i term hown hdone => hGood _ _ _ _ (h.done p i term hown hdone)
  outcome := fun v hv => by
    obtain ⟨p, i, term, hown, hgood⟩ := h.outcome v hv
    exact ⟨p, i, term, hown, hGood _ _ _ _ hgood⟩
  answer := h.answer

/-- A call with no op, and no answer that promises one. -/
theorem of_no_op {req : Q} {st : Stage n Q R} {answer : Option (Err × Option R)}
    (hst : st = .entered ∨ st = .refused) (ha : ∀ v, answer ≠ some (.ok, v)) :
    (⟨req, st, answer⟩ : Call n Q R).Ok St Good me := by
  rcases hst with rfl | rfl
  all_goals
    refine ⟨?_, ?_, ?_, ?_, fun v hv => absurd hv (ha v)⟩ <;>
      simp [Stage.own, Stage.outcome]

/-- The pending op is changed in a way that keeps the op and makes no unfounded promise. -/
theorem mapPending (h : call.Ok St Good me) {f : PendingOp n Q R → PendingOp n Q R}
    (hop : ∀ p, (f p).op = p.op)
    (hdone : ∀ p i term, call.stage.own = some (p, i, term) → (f p).done = some true →
      Good i term p.op (f p).result) : (call.mapPending f).Ok St Good me := by
  have hown : ∀ {p i term}, (call.stage.mapPending f).own = some (p, i, term) →
      ∃ q, call.stage.own = some (q, i, term) ∧ p = f q := by
    intro p i term hp
    rw [Stage.own_mapPending, Option.map_eq_some_iff] at hp
    obtain ⟨⟨q, i', term'⟩, hq, heq⟩ := hp
    obtain ⟨rfl, rfl, rfl⟩ : f q = p ∧ i' = i ∧ term' = term := by simpa using heq
    exact ⟨q, hq, rfl⟩
  have hanswered : ∀ {v}, call.stage.Answered Good v → (call.stage.mapPending f).Answered Good v := by
    rintro v ⟨p, i, term, hp, hgood⟩
    refine ⟨f p, i, term, ?_, ?_⟩
    · rw [Stage.own_mapPending, hp]
      rfl
    · rw [hop]
      exact hgood
  refine ⟨?_, ?_, ?_, ?_, ?_⟩
  · intro op hnum
    exact h.numbered op (Stage.mapPending_eq_numbered hnum)
  · intro p i term hp
    obtain ⟨q, hq, rfl⟩ := hown hp
    rw [hop]
    exact h.own q i term hq
  · intro p i term hp hd
    obtain ⟨q, hq, rfl⟩ := hown hp
    rw [hop]
    exact hdone q i term hq hd
  · intro v hv
    refine hanswered (h.outcome v ?_)
    simpa [Call.mapPending] using hv
  · intro v hv
    simpa [Call.mapPending] using h.answer v hv

theorem send_false (h : call.Ok St Good me) :
    (call.mapPending fun p => p.send false).Ok St Good me := by
  refine h.mapPending (fun p => p.send_op false) ?_
  intro p i term hp hd
  rw [PendingOp.send_result]
  exact h.done p i term hp (PendingOp.send_false_done hd)

/-- `Start` returned for the op of the call. -/
theorem started (h : call.Ok St Good me) {op : Op n Q} (hst : call.stage = .numbered op)
    {index term : Nat} (hs : St index term op) :
    ({ call with stage := .started ⟨op, none, none⟩ index term } : Call n Q R).Ok St Good me := by
  refine ⟨by simp, ?_, ?_, by simp [Stage.outcome], ?_⟩
  · intro p i t hp
    obtain ⟨rfl, rfl, rfl⟩ : (⟨op, none, none⟩ : PendingOp n Q R) = p ∧ index = i ∧ term = t := by
      simpa [Stage.own] using hp
    exact ⟨(h.numbered op hst).1, (h.numbered op hst).2, hs⟩
  · intro p i t hp hd
    obtain ⟨rfl, -⟩ : (⟨op, none, none⟩ : PendingOp n Q R) = p ∧ _ := by simpa [Stage.own] using hp
    simp at hd
  · intro v hv
    have hout := h.answer v hv
    rw [hst] at hout
    simp [Stage.outcome] at hout

/-- The call goes on with its op; a value it is to return is good. -/
theorem goes_on (h : call.Ok St Good me) {p p' : PendingOp n Q R} {i term : Nat} {st : Stage n Q R}
    (hold : call.stage.own = some (p, i, term)) (hnew : st.own = some (p', i, term))
    (hop : p'.op = p.op) (hdone : p'.done = some true → p.done = some true ∧ p'.result = p.result)
    (hout : ∀ v, st.outcome = some (.ok, v) → Good i term p.op v)
    (hkeep : ∀ x, call.stage.outcome = some x → st.outcome = some x) :
    ({ call with stage := st } : Call n Q R).Ok St Good me := by
  have hsame : ∀ {q i' term'}, st.own = some (q, i', term') → q = p' ∧ i' = i ∧ term' = term := by
    intro q i' term' hq
    rw [hnew] at hq
    simpa [eq_comm] using hq
  refine ⟨?_, ?_, ?_, ?_, ?_⟩
  · rintro op rfl
    simp [Stage.own] at hnew
  · intro q i' term' hq
    obtain ⟨rfl, rfl, rfl⟩ := hsame hq
    rw [hop]
    exact h.own p i' term' hold
  · intro q i' term' hq hd
    obtain ⟨rfl, rfl, rfl⟩ := hsame hq
    rw [hop, (hdone hd).2]
    exact h.done p i' term' hold (hdone hd).1
  · intro v hv
    refine ⟨p', i, term, hnew, ?_⟩
    rw [hop]
    exact hout v hv
  · intro v hv
    exact hkeep _ (h.answer v hv)

end Call.Ok

/-! ## The functions of a replica -/

namespace RSM.Ok

variable {me : Fin n} {rsm : RSM n M}

theorem newRSM (me : Fin n) (maxraftstate : Int) :
    (RSM.newRSM M me maxraftstate).Ok St Good me := by
  refine ⟨rfl, ?_, ?_⟩
  · intro c call hcall
    simp [RSM.newRSM] at hcall
  · intro i c hi
    simp [RSM.newRSM] at hi

theorem mono (h : rsm.Ok St Good me) (hSt : ∀ i term op, St i term op → St' i term op)
    (hGood : ∀ i term op v, Good i term op v → Good' i term op v) : rsm.Ok St' Good' me where
  me_eq := h.me_eq
  calls := fun c call hcall => (h.calls c call hcall).mono hSt hGood
  registered := h.registered

/-- The call at `c` is changed to one that keeps its registration. -/
theorem modify (h : rsm.Ok St Good me) {rsm' : RSM n M} {c : Nat} {f : Call n Q R → Call n Q R}
    (hme : rsm'.me = rsm.me) (hcalls : rsm'.calls = rsm.calls.modify c f)
    (hf : ∀ call, rsm.calls[c]? = some call → (f call).Ok St Good me)
    (hslot : ∀ call i, rsm.calls[c]? = some call → call.stage.slot = some i →
      (f call).stage.slot = some i)
    (hreg : ∀ i d, rsm'.pendingOps i = some d → rsm.pendingOps i = some d ∨
      (d = c ∧ (rsm'.stage c).bind Stage.slot = some i)) : rsm'.Ok St Good me := by
  refine ⟨hme.trans h.me_eq, ?_, ?_⟩
  · intro d call hcall
    rw [hcalls, List.getElem?_modify] at hcall
    by_cases hdc : c = d
    · subst hdc
      obtain ⟨call', hcall', rfl⟩ : ∃ call', rsm.calls[c]? = some call' ∧ f call' = call := by
        simpa using hcall
      exact hf call' hcall'
    · refine h.calls d call ?_
      simpa [hdc] using hcall
  · intro i d hd
    rcases hreg i d hd with hold | ⟨rfl, hnew⟩
    · have hst := h.registered i d hold
      obtain ⟨st, hst, hi⟩ := Option.bind_eq_some_iff.mp hst
      obtain ⟨call, hcall, rfl⟩ := Option.map_eq_some_iff.mp hst
      rw [RSM.stage, hcalls, List.getElem?_modify, hcall]
      by_cases hdc : c = d
      · subst hdc
        simpa using hslot call i hcall hi
      · simpa [hdc] using hi
    · exact hnew

/-- A stage of the call at `c` is replaced, with nothing registered or removed. -/
theorem setStage (h : rsm.Ok St Good me) {c : Nat} {st : Stage n Q R}
    (hst : ∀ call, rsm.calls[c]? = some call → ({ call with stage := st } : Call n Q R).Ok St Good me)
    (hslot : ∀ old i, rsm.stage c = some old → old.slot = some i → st.slot = some i) :
    (rsm.setStage c st).Ok St Good me :=
  h.modify rfl rfl hst
    (fun call i hcall hi => hslot call.stage i (by rw [RSM.stage, hcall]; rfl) hi)
    (fun _ _ hd => Or.inl hd)

theorem setPending (h : rsm.Ok St Good me) {c : Nat} {f : PendingOp n Q R → PendingOp n Q R}
    (hf : ∀ call, rsm.calls[c]? = some call → (call.mapPending f).Ok St Good me) :
    (rsm.setPending c f).Ok St Good me :=
  h.modify rfl rfl hf (fun call i _ hi => by simpa [Call.mapPending] using hi)
    (fun _ _ hd => Or.inl hd)

theorem updateAt (h : rsm.Ok St Good me) {index : Nat} {f : PendingOp n Q R → PendingOp n Q R}
    (hf : ∀ c call, rsm.pendingOps index = some c → rsm.calls[c]? = some call →
      (call.mapPending f).Ok St Good me) : (rsm.updateAt index f).Ok St Good me := by
  unfold RSM.updateAt
  split
  · rename_i c hc
    exact h.setPending fun call hcall => hf c call hc hcall
  · exact h

theorem call_at (h : rsm.Ok St Good me) {c : Nat} {st : Stage n Q R} (hst : rsm.stage c = some st) :
    ∃ call, rsm.calls[c]? = some call ∧ call.stage = st ∧ call.Ok St Good me := by
  obtain ⟨call, hcall, rfl⟩ := Option.map_eq_some_iff.mp hst
  exact ⟨call, hcall, rfl, h.calls c call hcall⟩

theorem setStage_goes_on (h : rsm.Ok St Good me) {c : Nat} {old st : Stage n Q R}
    {p p' : PendingOp n Q R} {i term : Nat} (hst : rsm.stage c = some old)
    (hold : old.own = some (p, i, term)) (hnew : st.own = some (p', i, term))
    (hop : p'.op = p.op) (hdone : p'.done = some true → p.done = some true ∧ p'.result = p.result)
    (hout : ∀ v, st.outcome = some (.ok, v) → Good i term p.op v)
    (hkeep : ∀ x, old.outcome = some x → st.outcome = some x)
    (hslot : ∀ j, old.slot = some j → st.slot = some j) :
    (rsm.setStage c st).Ok St Good me := by
  refine h.setStage ?_ ?_
  · intro call hcall
    obtain ⟨call', hcall', rfl, hok⟩ := h.call_at hst
    obtain rfl : call' = call := by
      rw [hcall'] at hcall
      exact Option.some.inj hcall
    exact hok.goes_on hold hnew hop hdone hout hkeep
  · intro old' j hold' hj
    rw [hst] at hold'
    obtain rfl := Option.some.inj hold'
    exact hslot j hj

theorem setStage_refused (h : rsm.Ok St Good me) {c : Nat} {old : Stage n Q R}
    (hst : rsm.stage c = some old) (hslot : old.slot = none) (hout : old.outcome = none) :
    (rsm.setStage c .refused).Ok St Good me := by
  refine h.setStage ?_ ?_
  · intro call hcall
    obtain ⟨call', hcall', rfl, hok⟩ := h.call_at hst
    obtain rfl : call' = call := by
      rw [hcall'] at hcall
      exact Option.some.inj hcall
    refine .of_no_op (Or.inr rfl) ?_
    intro v hv
    simpa [hout] using hok.answer v hv
  · intro old' j hold' hj
    rw [hst] at hold'
    obtain rfl := Option.some.inj hold'
    simp [hslot] at hj

theorem submit (h : rsm.Ok St Good me) (req : Q) : (rsm.submit req).Ok St Good me := by
  have happend : ∀ call : Call n Q R, call.Ok St Good me →
      ({ rsm with calls := rsm.calls ++ [call] } : RSM n M).Ok St Good me := by
    intro call hok
    refine ⟨h.me_eq, ?_, ?_⟩
    · intro c call' hcall
      rcases Nat.lt_or_ge c rsm.calls.length with hlt | hge
      · rw [List.getElem?_append_left hlt] at hcall
        exact h.calls c call' hcall
      · rw [List.getElem?_append_right hge] at hcall
        obtain rfl : call' = call := List.mem_singleton.mp (List.mem_of_getElem? hcall)
        exact hok
    · intro i c hi
      obtain ⟨st, hst, hslot⟩ := Option.bind_eq_some_iff.mp (h.registered i c hi)
      obtain ⟨old, hold, rfl⟩ := Option.map_eq_some_iff.mp hst
      obtain ⟨hlt, -⟩ := List.getElem?_eq_some_iff.mp hold
      simp only [RSM.stage, List.getElem?_append_left hlt, hold]
      exact hslot
  unfold RSM.submit
  split
  · exact happend _ (.of_no_op (Or.inr rfl) (by simp))
  · exact happend _ (.of_no_op (Or.inl rfl) (by simp))

/-- An answer of `Submit` is recorded. -/
theorem setAnswer (h : rsm.Ok St Good me) {c : Nat} {call : Call n Q R} {err : Err} {result : Option R}
    (hcall : rsm.calls[c]? = some call)
    (ha : ∀ v, (err, result) = (.ok, v) → call.stage.outcome = some (.ok, v)) :
    ({ rsm with calls := rsm.calls.set c { call with answer := some (err, result) } } :
      RSM n M).Ok St Good me := by
  have hok := h.calls c call hcall
  refine h.modify (c := c) (f := fun call => { call with answer := some (err, result) }) rfl ?_ ?_ ?_
    (fun _ _ hd => Or.inl hd)
  · refine List.ext_getElem? fun d => ?_
    rw [List.getElem?_modify, List.getElem?_set]
    obtain ⟨hlt, hget⟩ := List.getElem?_eq_some_iff.mp hcall
    by_cases hcd : c = d
    · subst hcd
      simp [hget, hlt]
    · simp [hcd]
  · intro call' hcall'
    obtain rfl : call = call' := Option.some.inj (hcall ▸ hcall')
    exact ⟨hok.numbered, hok.own, hok.done, hok.outcome, fun v hv => ha v (Option.some.inj hv)⟩
  · intro call' i _ hi
    exact hi

theorem submitDone (h : rsm.Ok St Good me) {c : Nat} {rsm' : RSM n M}
    (hs : rsm.submitDone c = some rsm') : rsm'.Ok St Good me := by
  obtain ⟨call, err, result, hcall, hstage, rfl⟩ := RSM.submitDone_cases hs
  apply h.setAnswer hcall
  intro v hv
  rcases hstage with ⟨-, rfl, -⟩ | ⟨p, index, term, hst⟩
  · simp at hv
  · rw [hst]
    exact congrArg some hv

theorem submitTimeout (h : rsm.Ok St Good me) {c : Nat} {rsm' : RSM n M}
    (hs : rsm.submitTimeout c = some rsm') : rsm'.Ok St Good me := by
  obtain ⟨call, hcall, rfl⟩ := RSM.submitTimeout_cases hs
  exact h.setAnswer hcall (by simp)

theorem doSubmitNumber (h : rsm.Ok St Good me) {c : Nat} {rsm' : RSM n M}
    (hs : rsm.doSubmitNumber c = some rsm') : rsm'.Ok St Good me := by
  obtain ⟨call, hcall, hentered, hrsm⟩ := RSM.doSubmitNumber_cases hs
  have hok := h.calls c call hcall
  rcases hrsm with rfl | rfl
  · have hst : rsm.stage c = some .entered := by rw [RSM.stage, hcall, Option.map_some, hentered]
    exact h.setStage_refused hst rfl rfl
  · refine h.modify (c := c) rfl rfl ?_ ?_ (fun _ _ hd => Or.inl hd)
    · intro call' hcall'
      obtain rfl : call = call' := Option.some.inj (hcall ▸ hcall')
      refine ⟨?_, by simp [Stage.own], by simp [Stage.own], by simp [Stage.outcome], ?_⟩
      · intro op hop
        obtain rfl := Stage.numbered.inj hop
        exact ⟨h.me_eq, rfl⟩
      · intro v hv
        simpa [hentered, Stage.outcome] using hok.answer v hv
    · intro call' i hcall' hi
      obtain rfl : call = call' := Option.some.inj (hcall ▸ hcall')
      simp [hentered, Stage.slot] at hi

/-- What `Start` answered is recorded. -/
theorem doSubmitStarted (h : rsm.Ok St Good me) {c : Nat} {start : Option (Nat × Nat)}
    (hstart : ∀ op index term, rsm.stage c = some (.numbered op) → start = some (index, term) →
      St index term op)
    {rsm' : RSM n M} (hs : rsm.doSubmitStarted c start = some rsm') : rsm'.Ok St Good me := by
  obtain ⟨op, hst, ⟨-, rfl⟩ | ⟨index, term, rfl, rfl⟩⟩ := RSM.doSubmitStarted_cases hs
  · exact h.setStage_refused hst rfl rfl
  · obtain ⟨call, hcall, hop, hok⟩ := h.call_at hst
    refine h.setStage ?_ ?_
    · intro call' hcall'
      obtain rfl : call = call' := Option.some.inj (hcall ▸ hcall')
      exact hok.started hop (hstart op index term hst rfl)
    · intro old i hold hi
      obtain rfl := Option.some.inj (hst ▸ hold)
      simp [Stage.slot] at hi

/-- A call that is not registered keeps its stage when the pending op at an index is changed. -/
theorem stage_updateAt (h : rsm.Ok St Good me) {c index : Nat} {st : Stage n Q R}
    (hst : rsm.stage c = some st) (hslot : st.slot = none)
    (f : PendingOp n Q R → PendingOp n Q R) : (rsm.updateAt index f).stage c = some st := by
  unfold RSM.updateAt
  split
  · rename_i d hd
    have hne : d ≠ c := by
      rintro rfl
      have hreg := h.registered index d hd
      rw [hst] at hreg
      simp [hslot] at hreg
    rw [← hst]
    simp [RSM.stage, RSM.setPending, hne]
  · exact hst

theorem doSubmitRegister (h : rsm.Ok St Good me) {c : Nat} {rsm' : RSM n M}
    (hs : rsm.doSubmitRegister c = some rsm') : rsm'.Ok St Good me := by
  obtain ⟨p, index, term, hst, ⟨-, rfl⟩ | ⟨-, rfl⟩⟩ := RSM.doSubmitRegister_cases hs
  · exact h.setStage_refused hst rfl rfl
  · have hok₁ : (rsm.updateAt index fun q => q.send false).Ok St Good me :=
      h.updateAt fun d call _ hcall => (h.calls d call hcall).send_false
    have hst₁ : (rsm.updateAt index fun q => q.send false).stage c = some (.started p index term) :=
      h.stage_updateAt hst rfl _
    have hpending : (rsm.updateAt index fun q => q.send false).pendingOps = rsm.pendingOps := by
      rw [RSM.updateAt_eq]
    obtain ⟨call, hcall, hop, hok⟩ := hok₁.call_at hst₁
    refine hok₁.modify (c := c) rfl rfl ?_ ?_ ?_
    · intro call' hcall'
      obtain rfl : call = call' := Option.some.inj (hcall ▸ hcall')
      have hown : call.stage.own = some (p, index, term) := by
        rw [hop]
        rfl
      exact hok.goes_on hown rfl rfl (fun hd => ⟨hd, rfl⟩) (by simp [Stage.outcome])
        (by simp [hop, Stage.outcome])
    · intro call' i hcall' hi
      obtain rfl : call = call' := Option.some.inj (hcall ▸ hcall')
      simp [hop, Stage.slot] at hi
    · intro i d hd
      by_cases hi : i = index
      · subst hi
        refine Or.inr ⟨by simpa [eq_comm, RSM.setStage] using hd, ?_⟩
        simp [RSM.stage, RSM.setStage, hcall, Stage.slot]
      · refine Or.inl ?_
        rw [hpending]
        simpa [RSM.setStage, hi] using hd

theorem waitDone (h : rsm.Ok St Good me) {c : Nat} {rsm' : RSM n M}
    (hs : rsm.waitDone c = some rsm') : rsm'.Ok St Good me := by
  obtain ⟨p, index, term, err, result, hst, hdone, rfl⟩ := RSM.waitDone_cases hs
  obtain ⟨call, hcall, hop, hok⟩ := h.call_at hst
  have hgood : ∀ v, (err, result) = (Err.ok, v) → Good index term p.op v := by
    intro v hv
    rcases hdone with ⟨hdone, -, rfl⟩ | ⟨-, rfl, -⟩
    · obtain rfl : p.result = v := (Prod.mk.inj hv).2
      exact hok.done p index term (by rw [hop]; rfl) hdone
    · simp at hv
  exact h.setStage_goes_on hst rfl rfl rfl (by simp)
    (fun v hv => hgood v (Option.some.inj hv)) (by simp [Stage.outcome]) (fun j hj => hj)

/-- `waitForResult` gives up. -/
theorem give_up (h : rsm.Ok St Good me) {c : Nat} {p : PendingOp n Q R} {index term : Nat}
    (hst : rsm.stage c = some (.waiting p index term)) :
    (rsm.setStage c (.leaving p index term .errWrongLeader none)).Ok St Good me :=
  h.setStage_goes_on hst rfl rfl rfl (fun hd => ⟨hd, rfl⟩) (by simp [Stage.outcome])
    (by simp [Stage.outcome]) (fun _ hj => hj)

theorem waitShutdown (h : rsm.Ok St Good me) {c : Nat} {rsm' : RSM n M}
    (hs : rsm.waitShutdown c = some rsm') : rsm'.Ok St Good me := by
  obtain ⟨p, index, term, hst, rfl⟩ := RSM.waitShutdown_cases hs
  exact h.give_up hst

theorem waitTimer (h : rsm.Ok St Good me) {c currentTerm : Nat} {isLeader : Bool} {rsm' : RSM n M}
    (hs : rsm.waitTimer c currentTerm isLeader = some rsm') : rsm'.Ok St Good me := by
  rcases RSM.waitTimer_cases hs with rfl | ⟨p, index, term, hst, rfl⟩
  · exact h
  · exact h.give_up hst

/-- Registrations may go. -/
theorem forget (h : rsm.Ok St Good me) {pendingOps : Nat → Option Nat}
    (hsub : ∀ i c, pendingOps i = some c → rsm.pendingOps i = some c) :
    ({ rsm with pendingOps := pendingOps } : RSM n M).Ok St Good me where
  me_eq := h.me_eq
  calls := h.calls
  registered := fun i c hi => h.registered i c (hsub i c hi)

theorem doSubmitRemove (h : rsm.Ok St Good me) {c : Nat} {rsm' : RSM n M}
    (hs : rsm.doSubmitRemove c = some rsm') : rsm'.Ok St Good me := by
  obtain ⟨p, index, term, err, result, hst, rfl⟩ := RSM.doSubmitRemove_cases hs
  obtain ⟨call, hcall, hop, hok⟩ := h.call_at hst
  have hforget : ({ rsm with pendingOps := fun i => if i = index then none else rsm.pendingOps i } :
      RSM n M).Ok St Good me := by
    refine h.forget ?_
    intro i d hd
    split at hd
    · simp at hd
    · exact hd
  refine hforget.setStage_goes_on hst rfl rfl rfl (fun hd => ⟨hd, rfl⟩) ?_ (fun _ hx => hx)
    (fun _ hj => hj)
  intro v hv
  obtain ⟨q, i, t, hq, hgood⟩ := hok.outcome v (by rw [hop]; exact hv)
  rw [hop] at hq
  obtain ⟨rfl, rfl, rfl⟩ : p = q ∧ index = i ∧ term = t := by simpa [Stage.own] using hq
  exact hgood

/-! ## The reader -/

/-- Only the calls and the map matter. -/
theorem congr {rsm' : RSM n M} (h : rsm.Ok St Good me) (hme : rsm'.me = rsm.me)
    (hcalls : rsm'.calls = rsm.calls) (hpending : rsm'.pendingOps = rsm.pendingOps) :
    rsm'.Ok St Good me := by
  refine ⟨hme.trans h.me_eq, ?_, ?_⟩
  · rw [hcalls]
    exact h.calls
  · unfold RSM.stage
    rw [hcalls, hpending]
    exact h.registered

theorem readSnapshot (h : rsm.Ok St Good me) (snapshot : Option (Blob M.Bytes)) :
    (rsm.readSnapshot snapshot).Ok St Good me := by
  unfold RSM.readSnapshot
  dsimp only
  split
  · split
    · exact h.congr rfl rfl rfl
    · exact h.congr rfl rfl rfl
  · exact h.congr rfl rfl rfl

/-- The call registered at an index has its op there. -/
theorem own_at (h : rsm.Ok St Good me) {c index i term : Nat} {call : Call n Q R} {p : PendingOp n Q R}
    (hreg : rsm.pendingOps index = some c) (hcall : rsm.calls[c]? = some call)
    (hown : call.stage.own = some (p, i, term)) : i = index := by
  have hslot := h.registered index c hreg
  rw [RSM.stage, hcall] at hslot
  obtain ⟨q, term', hq⟩ := Stage.own_of_slot (show call.stage.slot = some index from hslot)
  rw [hown] at hq
  simp only [Option.some.injEq, Prod.mk.injEq] at hq
  exact hq.2.1

/-- What the test of `applyCommand` accepts has to be good. -/
theorem applyCommand (h : rsm.Ok St Good me) {index : Nat} {op : Op n Q} {large : Bool}
    (hgood : rsm.lastApplied < index → ∀ c p term, rsm.pendingOps index = some c →
      (rsm.stage c).bind Stage.own = some (p, index, term) → p.op.id = op.id → p.op.me = me →
      St index term p.op → Good index term p.op (some (M.doOp rsm.sm op.req).2)) :
    (rsm.applyCommand index op large).Ok St Good me := by
  unfold RSM.applyCommand
  split
  · exact h
  · rename_i hnew
    have hcalls : ∀ c call, rsm.pendingOps index = some c → rsm.calls[c]? = some call →
        (call.mapPending fun pendingOp =>
          if pendingOp.op.id = op.id ∧ pendingOp.op.me = rsm.me then
            { pendingOp with result := some (M.doOp rsm.sm op.req).2 }.send true
          else pendingOp.send false).Ok St Good me := by
      intro c call hreg hcall
      have hok := h.calls c call hcall
      refine hok.mapPending ?_ ?_
      · intro p
        split <;> simp [PendingOp.send_op]
      · intro p i term hown hdone
        obtain rfl := h.own_at hreg hcall hown
        split at hdone
        · rename_i hacc
          rw [if_pos hacc, PendingOp.send_result]
          refine hgood (by omega) c p term hreg ?_ hacc.1 (hacc.2.trans h.me_eq)
            (hok.own p i term hown).2.2
          rw [RSM.stage, hcall]
          exact hown
        · rename_i hrej
          rw [if_neg hrej, PendingOp.send_result]
          exact hok.done p i term hown (PendingOp.send_false_done hdone)
    have happlied : ({ rsm with sm := (M.doOp rsm.sm op.req).1, lastApplied := index } :
        RSM n M).Ok St Good me := h.congr rfl rfl rfl
    have hdone := happlied.updateAt hcalls
    dsimp only
    split
    · exact hdone.congr rfl rfl rfl
    · exact hdone

theorem notify_false (h : rsm.Ok St Good me) (at_ : Nat → Bool) : (rsm.notify at_ false).Ok St Good me := by
  have hcall : ∀ {c : Nat} {call : Call n Q R}, (rsm.notify at_ false).calls[c]? = some call →
      ∃ old : Call n Q R, rsm.calls[c]? = some old ∧ (call = old ∨ call = old.mapPending fun p => p.send false) := by
    intro c call hc
    rw [RSM.notify, List.getElem?_mapIdx, Option.map_eq_some_iff] at hc
    obtain ⟨old, hold, rfl⟩ := hc
    refine ⟨old, hold, ?_⟩
    split
    · split
      · exact Or.inr rfl
      · exact Or.inl rfl
    · exact Or.inl rfl
  refine ⟨h.me_eq, ?_, ?_⟩
  · intro c call hc
    obtain ⟨old, hold, rfl | rfl⟩ := hcall hc
    · exact h.calls c call hold
    · exact (h.calls c old hold).send_false
  · intro i c hi
    obtain ⟨st, hst, hslot⟩ := Option.bind_eq_some_iff.mp (h.registered i c hi)
    obtain ⟨old, hold, rfl⟩ := Option.map_eq_some_iff.mp hst
    obtain ⟨call, hc⟩ : ∃ call, (rsm.notify at_ false).calls[c]? = some call := by
      rw [RSM.notify, List.getElem?_mapIdx, hold]
      exact ⟨_, rfl⟩
    rw [RSM.stage, hc]
    obtain ⟨old', hold', rfl | rfl⟩ := hcall hc
    · obtain rfl := Option.some.inj (hold ▸ hold')
      exact hslot
    · obtain rfl := Option.some.inj (hold ▸ hold')
      simpa [Call.mapPending] using hslot

theorem applySnapshot (h : rsm.Ok St Good me) {snapshotIndex : Nat} {data : Blob M.Bytes}
    {rsm' : RSM n M} (hs : rsm.applySnapshot snapshotIndex data = some rsm') : rsm'.Ok St Good me := by
  rcases RSM.applySnapshot_cases hs with ⟨-, rfl⟩ | ⟨-, -, rfl⟩
  · exact h
  · refine notify_false ?_ _
    exact h.congr rfl rfl rfl

theorem doShutdown (h : rsm.Ok St Good me) : rsm.doShutdown.Ok St Good me := by
  refine forget ?_ (by simp)
  refine notify_false ?_ _
  exact h.congr rfl rfl rfl

end RSM.Ok

end DistSys.Rsm
