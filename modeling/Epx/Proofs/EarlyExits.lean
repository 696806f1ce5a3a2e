import Epx.Instance
import Epx.Proofs.Deps

/-!
# The scans that end early

`has_uncommitted_deps` ends at the first empty slot and `lt_dep_replica` at the first slot of the
replica. The entries stand in front, the larger instance ids first, so both find what a scan of the
whole array finds.
-/

namespace Epx

/-- The calls that write to a dependency array. -/
inductive DepCall
  | update (d : Dependency)
  | add (i : Instance)

/-- The array after a call. -/
def DepCall.apply (deps : Deps) : DepCall → Deps
  | .update d => (deps.update d).1
  | .add i => (addDep deps i).1

/-- A zeroed array after the calls. -/
def afterCalls (calls : List DepCall) : Deps := calls.foldl DepCall.apply .zero

namespace Deps

/-- `n` is the largest instance id of the replica's entries, or 0 where it has none. -/
def Largest (deps : Deps) (replicaId n : ℕ) : Prop :=
  (∃ d ∈ deps.slots, ¬ d.Empty ∧ d.id.replicaId = replicaId ∧ d.id.instanceId = n
      ∧ ∀ e ∈ deps.slots, ¬ e.Empty → e.id.replicaId = replicaId → e.id.instanceId ≤ n)
    ∨ n = 0 ∧ ∀ e ∈ deps.slots, ¬ e.Empty → e.id.replicaId ≠ replicaId

theorem mem_slots {deps : Deps} {d : Dependency} :
    d ∈ deps.entries ↔ d ∈ deps.slots ∧ ¬ d.Empty := by
  unfold entries
  rw [List.mem_filter, decide_eq_true_iff]

/-- An entry without a flag is met before the first empty slot. -/
theorem hasUncommitted_of_mem {es : List Dependency} {d : Dependency} :
    ∀ {ds : List Dependency}, (∀ x ∈ ds, ¬ x.Empty) → d ∈ ds → d.committed = 0 →
      hasUncommitted (ds ++ es) = true
  | x :: ds, hf, hd, hc => by
    rw [List.forall_mem_cons] at hf
    rw [List.cons_append, hasUncommitted, if_neg hf.1]
    split_ifs with hx
    · rfl
    · rcases List.mem_cons.1 hd with rfl | hd
      · exact absurd hc hx
      · exact hasUncommitted_of_mem hf.2 hd hc

theorem exists_uncommitted : ∀ {xs : List Dependency}, hasUncommitted xs = true →
    ∃ d ∈ xs, ¬ d.Empty ∧ d.committed = 0
  | x :: xs, h => by
    rw [hasUncommitted] at h
    split_ifs at h with he hc
    · exact ⟨x, List.mem_cons_self, he, hc⟩
    · obtain ⟨d, hd, hdc⟩ := exists_uncommitted h
      exact ⟨d, List.mem_cons_of_mem _ hd, hdc⟩

theorem hasUncommitted_iff (deps : Deps) : hasUncommitted deps.slots = true ↔
    ∃ d ∈ deps.slots, ¬ d.Empty ∧ d.committed = 0 := by
  refine ⟨exists_uncommitted, ?_⟩
  rintro ⟨d, hd, he, hc⟩
  obtain ⟨n, hs, -, hw⟩ := deps.exists_entries
  rw [hs]
  exact hasUncommitted_of_mem hw.full (mem_slots.2 ⟨hd, he⟩) hc

/-- In a sorted list, the first of the replica's entries is its largest. -/
theorem find_largest {replicaId : ℕ} {d : Dependency} : ∀ {ds : List Dependency},
    ds.Pairwise (fun a b => b.id.instanceId ≤ a.id.instanceId) →
      ds.find? (fun d => d.id.replicaId = replicaId) = some d →
        ∀ e ∈ ds, e.id.replicaId = replicaId → e.id.instanceId ≤ d.id.instanceId
  | x :: ds, hs, hf, e, he, hr => by
    obtain ⟨hx, hs⟩ := List.pairwise_cons.1 hs
    by_cases hxr : x.id.replicaId = replicaId
    · rw [List.find?_cons_of_pos (by simpa using hxr)] at hf
      cases hf
      rcases List.mem_cons.1 he with rfl | he
      · exact le_rfl
      · exact hx e he
    · rw [List.find?_cons_of_neg (by simpa using hxr)] at hf
      rcases List.mem_cons.1 he with rfl | he
      · exact absurd hr hxr
      · exact find_largest hs hf e he hr

/-- Empty slots are of no replica but 0, which they answer for. -/
theorem find_zeros (replicaId n : ℕ) :
    (((zeros n).find? fun d => d.id.replicaId = replicaId).map fun d => d.id.instanceId).getD 0
      = 0 := by
  rcases hf : (zeros n).find? fun d => d.id.replicaId = replicaId with _ | d
  · rw [hf]
    rfl
  · rw [hf]
    exact empty_of_mem_zeros (List.mem_of_find?_eq_some hf)

theorem ltDepReplica_largest (deps : Deps) (replicaId : ℕ) :
    deps.Largest replicaId (deps.ltDepReplica replicaId) := by
  obtain ⟨n, hs, -, hw⟩ := deps.exists_entries
  unfold ltDepReplica Epx.ltDepReplica
  rw [hs, List.find?_append]
  rcases hf : deps.entries.find? fun d => d.id.replicaId = replicaId with _ | d
  · rw [hf, Option.none_or, find_zeros]
    refine .inr ⟨rfl, fun e he hne hr => ?_⟩
    exact absurd hr (by simpa using List.find?_eq_none.1 hf e (mem_slots.2 ⟨he, hne⟩))
  · obtain ⟨hd, hne⟩ := mem_slots.1 (List.mem_of_find?_eq_some hf)
    rw [hf]
    refine .inl ⟨d, hd, hne, by simpa using List.find?_some hf, rfl, fun e he hee hr => ?_⟩
    exact find_largest hw.sorted hf e (mem_slots.2 ⟨he, hee⟩) hr

end Deps

/-- After any calls on a zeroed array, both scans find what a scan of all slots finds. -/
theorem scans_agree (calls : List DepCall) :
    (hasUncommitted (afterCalls calls).slots = true ↔
      ∃ d ∈ (afterCalls calls).slots, ¬ d.Empty ∧ d.committed = 0)
    ∧ ∀ replicaId, (afterCalls calls).Largest replicaId
      ((afterCalls calls).ltDepReplica replicaId) :=
  ⟨Deps.hasUncommitted_iff _, Deps.ltDepReplica_largest _⟩

end Epx
