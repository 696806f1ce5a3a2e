import Epx.System

/-!
# Instance ids

`max_local` bounds the ids of a replica's own instances, those that `clear` has dropped included:
registering never lowers it and `clear` keeps the last entry of an index.
-/

namespace Epx

namespace InstanceIndex

/-- The instance id of `LLRB_MAX`. -/
def maxId (index : InstanceIndex) : ℕ :=
  (index.entries.head?.map fun i => i.key.instanceId).getD 0

theorem le_maxId {index : InstanceIndex} {i : Instance} (h : i ∈ index.entries) :
    i.key.instanceId ≤ index.maxId := by
  obtain ⟨xs, hxs⟩ := index
  cases xs with
  | nil => simp at h
  | cons x xs =>
    simp only [maxId, List.head?_cons, Option.map_some, Option.getD_some]
    rcases List.mem_cons.1 h with rfl | h
    · exact le_rfl
    · exact ((List.pairwise_cons.1 hxs).1 i h).le

theorem le_maxId_set (index : InstanceIndex) (i : Instance) :
    i.key.instanceId ≤ (index.set i).maxId := by
  refine le_maxId (((index.set i).find_eq_some_iff i.key.instanceId i).1 ?_).1
  rw [find_set, if_pos rfl]

theorem maxId_le_set (index : InstanceIndex) (i : Instance) :
    index.maxId ≤ (index.set i).maxId := by
  cases hx : index.entries with
  | nil => simp [maxId, hx]
  | cons x xs =>
    have hm : index.maxId = x.key.instanceId := by simp [maxId, hx]
    have hmem : x ∈ index.entries := by simp [hx]
    rw [hm]
    by_cases he : x.key.instanceId = i.key.instanceId
    · exact he ▸ index.le_maxId_set i
    · refine le_maxId (((index.set i).find_eq_some_iff x.key.instanceId x).1 ?_).1
      rw [find_set, if_neg he]
      exact (index.find_eq_some_iff _ _).2 ⟨hmem, rfl⟩

theorem getLast?_dropExecuted : ∀ xs : List Instance, (dropExecuted xs).getLast? = xs.getLast?
  | [] => rfl
  | [x] => rfl
  | x :: y :: rest => by
    simp only [dropExecuted]
    split_ifs
    · rw [getLast?_dropExecuted (y :: rest), List.getLast?_cons_cons]
    · rfl

theorem maxId_clear (index : InstanceIndex) : index.clear.maxId = index.maxId := by
  simp [maxId, clear, List.head?_reverse, getLast?_dropExecuted]

end InstanceIndex

namespace Replica

theorem maxLocal_eq (r : Replica) : r.maxLocal = (r.index r.id).maxId := rfl

/-- No event lowers `max_local`, and it is no smaller than the id of the instance handled. -/
theorem maxLocal_apply (r : Replica) (e : Effect) :
    r.maxLocal ≤ (r.apply e).maxLocal
      ∧ (e.inst.key.replicaId = r.id → e.inst.key.instanceId ≤ (r.apply e).maxLocal) := by
  have hput : r.maxLocal ≤ (r.put e.inst).maxLocal
      ∧ (e.inst.key.replicaId = r.id → e.inst.key.instanceId ≤ (r.put e.inst).maxLocal) := by
    simp only [maxLocal_eq, put_id]
    by_cases hk : r.id = e.inst.key.replicaId
    · have : (r.put e.inst).index r.id = (r.index r.id).set e.inst := by
        simp [put, hk]
      rw [this]
      exact ⟨InstanceIndex.maxId_le_set _ _, fun _ => InstanceIndex.le_maxId_set _ _⟩
    · have : (r.put e.inst).index r.id = r.index r.id := by
        simp [put, Function.update_of_ne hk]
      rw [this]
      exact ⟨le_rfl, fun h => absurd h.symm hk⟩
  have hclear : (r.put e.inst).clear.maxLocal = (r.put e.inst).maxLocal :=
    InstanceIndex.maxId_clear _
  have happly : (r.apply e).maxLocal = (r.put e.inst).maxLocal := by
    have : (r.apply e).maxLocal
        = (if e.cleared then (r.put e.inst).clear else r.put e.inst).maxLocal := rfl
    rw [this]
    split_ifs
    · exact hclear
    · rfl
  rwa [happly]

/-- An own instance that is registered is no larger than `max_local`. -/
theorem le_maxLocal {r : Replica} {id : InstanceId} {i : Instance} (h : r.find id = some i)
    (hk : id.replicaId = r.id) : id.instanceId ≤ r.maxLocal := by
  unfold find at h
  rw [hk] at h
  obtain ⟨hm, hi⟩ := (InstanceIndex.find_eq_some_iff _ _ _).1 h
  exact hi ▸ InstanceIndex.le_maxId hm

/-- `max_local` is 0 or the id of a registered own instance. -/
theorem exists_maxLocal (r : Replica) :
    r.maxLocal = 0 ∨ ∃ i, r.find ⟨r.id, r.maxLocal⟩ = some i := by
  cases hx : (r.index r.id).entries with
  | nil => exact .inl (by simp [maxLocal, hx])
  | cons x xs =>
    refine .inr ⟨x, ?_⟩
    have hm : r.maxLocal = x.key.instanceId := by simp [maxLocal, hx]
    exact (InstanceIndex.find_eq_some_iff _ _ _).2 ⟨by simp [hx], hm.symm⟩

end Replica

end Epx
