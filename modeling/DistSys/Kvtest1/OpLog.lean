import DistSys.Kvsrv1.Clerk
import DistSys.Models1.Kv

/- What the tests log of the calls of a Clerk, and how they check it: kvtest1/porcupine.go.

   `Get` and `Put` append one operation for each call that returned. The times that go with it are
   those of the call and the return, which a history has; the order that the checker searches for
   is one of all the operations here, so that its parts by key are orders as well. -/
namespace DistSys.Kvtest1

open Kvsrv1 (Op Reply)
open Models1

/-- The input of the operation that is logged for a call. -/
def input : Op → KvInput
  | .get key => { op := 0, key := key, value := "", version := 0 }
  | .put key value version => { op := 1, key := key, value := value, version := version }

/-- The output that is logged for what the Clerk returned. -/
def output : Reply → KvOutput
  | .get reply => { value := reply.value, version := reply.version, err := reply.err.string }
  | .put reply => { value := "", version := 0, err := reply.err.string }

def operation (op : Op) (answer : Reply) : Operation := ⟨input op, output answer⟩

def operations (calls : List (Op × Reply)) : List Operation :=
  calls.map fun x => operation x.1 x.2

/-- `KvModel` accepts the calls in this order, part by part. -/
def Legal (calls : List (Op × Reply)) : Prop :=
  ∀ ops ∈ KvModel.partition (operations calls), (KvModel.run KvModel.init ops).isSome

/-- ErrMaybe is accepted where ErrVersion is. -/
theorem step_errMaybe {st : KvState} {inp : KvInput} {st' : Option KvState}
    (h : KvModel.step st inp (output (.put ⟨.errVersion⟩)) = (true, st')) :
    KvModel.step st inp (output (.put ⟨.errMaybe⟩)) = (true, st') := by
  simp only [KvModel.step, output, Kvsrv1.Err.string] at h ⊢
  split at h
  · simpa using h
  · split at h
    · simp at h
    · rename_i hver
      simpa [hver] using h
  · simp at h

/-- The calls lead the model of each key to the state `st` has for it. -/
def LeadsTo (calls : List (Op × Reply)) (st : String → KvState) : Prop :=
  ∀ key, KvModel.run KvModel.init (KvModel.onKey key (operations calls)) = some (st key)

namespace LeadsTo

theorem nil : LeadsTo [] fun _ => KvModel.init := fun _ => rfl

/-- One more call, which the model of its key accepts. -/
theorem snoc {calls : List (Op × Reply)} {st st' : String → KvState} (h : LeadsTo calls st)
    {op : Op} {answer : Reply}
    (hstep : KvModel.step (st (input op).key) (input op) (output answer) =
      (true, some (st' (input op).key)))
    (hother : ∀ key ≠ (input op).key, st' key = st key) : LeadsTo (calls ++ [(op, answer)]) st' := by
  intro key
  rw [operations, List.map_append, KvModel.onKey, List.filter_append]
  by_cases hkey : key = (input op).key
  · subst hkey
    have hlast : [(op, answer)].map (fun x => operation x.1 x.2) = [operation op answer] := rfl
    rw [hlast, List.filter_cons_of_pos (by simp [operation]), List.filter_nil]
    exact KvModel.run_snoc (h _) hstep
  · rw [hother key hkey]
    have hlast : ([(op, answer)].map fun x => operation x.1 x.2).filter
        (fun v => v.input.key = key) = [] := by
      simpa [operation] using Ne.symm hkey
    rw [hlast, List.append_nil]
    exact h key

theorem legal {calls : List (Op × Reply)} {st : String → KvState} (h : LeadsTo calls st) :
    Legal calls := by
  intro ops hops
  obtain ⟨v, -, rfl⟩ := KvModel.mem_partition.mp hops
  exact Option.isSome_of_eq_some (h v.input.key)

end LeadsTo

end DistSys.Kvtest1
