import Epx.Proofs.Scan
import Epx.Proofs.Schedules

/-!
# What a checkpoint depends on

`barrier_dep` takes the instance before the largest of an index. That is the one to depend on in the
index the new instance has just been registered in. In another index the largest is left out, and
where there is no other instance a missing one is read.
-/

namespace Epx

/-- Every instance is registered in the index of its replica. -/
def Replica.Filed (r : Replica) : Prop := ∀ id i, r.find id = some i → i.key = id

/-- `x` is the instance of index `k` with the largest id. -/
def Replica.Latest (r : Replica) (k : ℕ) (x : Instance) : Prop :=
  x ∈ (r.index k).entries ∧ ∀ y ∈ (r.index k).entries, y.key.instanceId ≤ x.key.instanceId

/-- `checkpoint` registers an instance that depends on the latest of each index, and on no other. -/
def DependsOnLatest (T : RangeTree) (r : Replica) (m : Message) : Prop :=
  ∃ i e, r.handle T (.checkpoint m) = .handled i e ∧ ∀ d, d ∈ e.inst.deps.entries
    ↔ ∃ k < N, ∃ x, r.Latest k x ∧ d = ⟨x.key, if isCommitted x then 1 else 0⟩

section Barrier

variable {T : RangeTree} {r : Replica} {m : Message} {k : ℕ} {x : Instance}

theorem Replica.Filed.replicaId (h : r.Filed) (hx : x ∈ (r.index k).entries) :
    x.key.replicaId = k := by
  have hf : r.find ⟨k, x.key.instanceId⟩ = some x :=
    ((r.index k).find_eq_some_iff _ _).2 ⟨hx, rfl⟩
  exact congrArg InstanceId.replicaId (h _ x hf)

theorem Replica.Filed.put (h : r.Filed) (i : Instance) : (r.put i).Filed := by
  intro id j hj
  rw [Replica.find_put] at hj
  split_ifs at hj with hid
  · rw [← Option.some.inj hj, hid]
  · exact h id j hj

theorem barrierDep_eq {index : InstanceIndex} {deps deps' : Deps}
    (h : barrierDep index deps = some deps') : ∃ x y rest, index.entries = x :: y :: rest
      ∧ deps' = (addDep deps y).1 := by
  unfold barrierDep at h
  split at h
  · rename_i x y rest he
    exact ⟨x, y, rest, he, (Option.some.inj h).symm⟩
  · cases h

/-- A barrier reads two instances of each index, and depends on the second largest only. -/
theorem barrierLoop_has : ∀ {ks : List ℕ} {deps deps' : Deps},
    barrierLoop r ks deps = some deps' →
      (∀ k ∈ ks, ∃ x y rest, (r.index k).entries = x :: y :: rest)
        ∧ ∀ id, deps'.Has id → deps.Has id
          ∨ ∃ k ∈ ks, ∃ x y rest, (r.index k).entries = x :: y :: rest ∧ id = y.key
  | [], _, _, h => by
    cases h
    exact ⟨fun _ h => absurd h List.not_mem_nil, fun _ h => .inl h⟩
  | k :: ks, deps, deps', h => by
    obtain ⟨deps₁, h₁, h⟩ := Option.bind_eq_some_iff.1 h
    obtain ⟨x, y, rest, he, rfl⟩ := barrierDep_eq h₁
    obtain ⟨hall, hhas⟩ := barrierLoop_has h
    refine ⟨List.forall_mem_cons.2 ⟨⟨x, y, rest, he⟩, hall⟩, fun id hid => ?_⟩
    rcases hhas id hid with hid | ⟨j, hj, hrow⟩
    · rcases Deps.has_update hid with hid | ⟨-, rfl⟩
      · exact .inl hid
      · exact .inr ⟨k, List.mem_cons_self, x, y, rest, he, rfl⟩
    · exact .inr ⟨j, List.mem_cons_of_mem _ hj, hrow⟩

theorem checkpoint_barrier {i : Instance} {e : Effect}
    (h : r.handle T (.checkpoint m) = .handled i e) :
    i = r.ownInstance ∧ barrier (r.put i) = some e.inst.deps := by
  unfold Replica.handle at h
  dsimp only at h
  split_ifs at h
  cases hc : r.checkpointEffect r.ownInstance m <;> rw [hc] at h <;> cases h
  obtain ⟨deps, hb, rfl⟩ := Option.map_eq_some_iff.1 hc
  exact ⟨rfl, hb⟩

/-- No state of a replica lets a checkpoint depend on the latest instances: of another replica's
the second latest is read, and has to be there. -/
theorem checkpoint_never (h : r.Filed) : ¬ DependsOnLatest T r m := by
  rintro ⟨i, e, hh, hdeps⟩
  obtain ⟨rfl, hb⟩ := checkpoint_barrier hh
  obtain ⟨hrows, hhas⟩ := barrierLoop_has hb
  -- the index of another replica, which the new instance is not in
  obtain ⟨k, hk, hne⟩ : ∃ k < N, k ≠ r.id := by
    by_cases hid : r.id = 0
    · exact ⟨1, by decide, by omega⟩
    · exact ⟨0, by decide, fun h => hid h.symm⟩
  have hrow : (r.put r.ownInstance).index k = r.index k := Function.update_of_ne hne _ _
  obtain ⟨x, y, rest, he⟩ := hrows k (List.mem_range.2 hk)
  rw [hrow] at he
  have hord := (r.index k).ordered
  rw [he] at hord
  obtain ⟨hx, -⟩ := List.pairwise_cons.1 hord
  have hlatest : r.Latest k x := by
    refine ⟨he ▸ List.mem_cons_self, ?_⟩
    rw [he]
    exact List.forall_mem_cons.2 ⟨le_rfl, fun z hz => (hx z hz).le⟩
  have hmem := (hdeps _).2 ⟨k, hk, x, hlatest, rfl⟩
  rcases hhas x.key ⟨_, hmem, rfl⟩ with hz | ⟨j, -, x', y', rest', he', hxy⟩
  · exact Deps.not_has_zero _ hz
  · -- the second of index `j` is in index `j`
    have hj : x.key.replicaId = j := by
      rw [hxy]
      exact (h.put _).replicaId (he' ▸ List.mem_cons_of_mem _ List.mem_cons_self)
    have hjk : j = k := hj.symm.trans (h.replicaId (he ▸ List.mem_cons_self))
    rw [hjk, hrow, he] at he'
    have hy : y = y' := (List.cons.inj (List.cons.inj he').2).1
    have hlt := hx y List.mem_cons_self
    rw [hxy, hy] at hlt
    exact lt_irrefl _ hlt

end Barrier

/-- A proposal of replica 0, and two of replica 1 and of replica 2 pre-accepted there. -/
def twoEach : List Move :=
  [proposeAt 0 [97] [97], proposeAt 1 [98] [98], deliverAt 0 .preAccept ⟨1, 1⟩,
    proposeAt 1 [99] [99], deliverAt 0 .preAccept ⟨1, 2⟩, proposeAt 2 [100] [100],
    deliverAt 0 .preAccept ⟨2, 1⟩, proposeAt 2 [101] [101], deliverAt 0 .preAccept ⟨2, 2⟩]

theorem checkpoint_never_twoEach : ∃ w, Run listTree w ∧ w.log.length = 9
    ∧ ¬ DependsOnLatest listTree (w.replica 0) zeroMessage := by
  obtain ⟨w, hr, hl⟩ := @exists_run twoEach (fun w => w.log.length = 9) _ (by decide +kernel)
  exact ⟨w, hr, hl, checkpoint_never fun _ _ => hr.key⟩

/-- The dependencies of the instance that the outcome leaves. -/
def Outcome.ids : Outcome → Option (List InstanceId)
  | .handled _ e => some (e.inst.deps.entries.map Dependency.id)
  | _ => none

/-- On empty indexes a checkpoint reads a missing instance. With two instances of each other replica
it depends on the first of them. -/
theorem checkpoint_stale : ¬ DependsOnLatest listTree (newReplica 0) zeroMessage
    ∧ ∃ w, Run listTree w
      ∧ ((w.replica 0).handle listTree (.checkpoint zeroMessage)).ids =
        some [⟨0, 1⟩, ⟨1, 1⟩, ⟨2, 1⟩]
      ∧ (w.replica 0).find ⟨1, 2⟩ ≠ none
      ∧ ¬ DependsOnLatest listTree (w.replica 0) zeroMessage := by
  constructor
  · rintro ⟨i, e, h, -⟩
    obtain ⟨rfl, hb⟩ := checkpoint_barrier h
    have hnone : barrier ((newReplica 0).put (newReplica 0).ownInstance) = none := by decide
    rw [hnone] at hb
    cases hb
  · obtain ⟨w, hr, hids, hlate⟩ := @exists_run twoEach (fun w =>
      ((w.replica 0).handle listTree (.checkpoint zeroMessage)).ids =
          some [⟨0, 1⟩, ⟨1, 1⟩, ⟨2, 1⟩]
        ∧ ((w.replica 0).index 1).entries.head?.map Instance.key = some ⟨1, 2⟩) _ (by decide +kernel)
    obtain ⟨x, hx, hkey⟩ := Option.map_eq_some_iff.1 hlate
    obtain ⟨rest, he⟩ : ∃ rest, ((w.replica 0).index 1).entries = x :: rest := by
      rcases hl : ((w.replica 0).index 1).entries with _ | ⟨y, rest⟩ <;> rw [hl] at hx
      · cases hx
      · exact ⟨rest, by rw [Option.some.inj hx]⟩
    have hfind : (w.replica 0).find ⟨1, 2⟩ = some x :=
      (((w.replica 0).index 1).find_eq_some_iff _ _).2 ⟨he ▸ List.mem_cons_self, by rw [hkey]⟩
    refine ⟨w, hr, hids, by rw [hfind]; exact Option.some_ne_none x, ?_⟩
    rintro ⟨i, e, hh, hdeps⟩
    have hord := ((w.replica 0).index 1).ordered
    rw [he] at hord
    have hmem := (hdeps _).2 ⟨1, by decide, x, ⟨he ▸ List.mem_cons_self, by
      rw [he]
      exact List.forall_mem_cons.2
        ⟨le_rfl, fun z hz => ((List.pairwise_cons.1 hord).1 z hz).le⟩⟩, rfl⟩
    rw [hh] at hids
    have hin : x.key ∈ e.inst.deps.entries.map Dependency.id := List.mem_map.2 ⟨_, hmem, rfl⟩
    rw [show e.inst.deps.entries.map Dependency.id = _ from Option.some.inj hids, hkey] at hin
    exact absurd hin (by decide)

end Epx
