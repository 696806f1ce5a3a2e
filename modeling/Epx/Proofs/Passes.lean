import Epx.Proofs.Waiting

/-!
# A pass ends

The executor's steps can all be taken: it reads slots of registered instances, and an index that the
replica has. Each takes one off the steps of the pass that are left, so it gets back to the channel,
and by then what is ready in its map is executed.
-/

namespace Epx

open Log Relation

/-- The slots to come are slots of arrays, no more than there are, and the components to come have
members. -/
def Task.InArrays (ids : List InstanceId) : Task → Prop
  | .waiting => True
  | .linking todo _ => (∀ s ∈ todo, s.1 ∈ ids ∧ s.2 < maxDeps) ∧ todo.length ≤ maxDeps * ids.length
  | .checking comp todo comps => (∀ s ∈ todo, s.1 ∈ comp ∧ s.2 < maxDeps)
      ∧ todo.length ≤ maxDeps * comp.length ∧ ∀ c ∈ comp :: comps, c ≠ []
  | .marking _ comps => ∀ c ∈ comps, c ≠ []

/-- The steps that the components to come take at most. -/
def stepsOf (comps : List (List InstanceId)) : ℕ :=
  (comps.map fun comp => (maxDeps + 1) * comp.length + 2).sum

/-- The steps that a pass over `n` instances still takes at most. -/
def Task.left (n : ℕ) : Task → ℕ
  | .waiting => 0
  | .linking todo _ => todo.length + (maxDeps + 3) * n + 1
  | .checking comp todo comps => todo.length + comp.length + stepsOf comps + 2
  | .marking todo comps => todo.length + stepsOf comps + 1

section Tasks

variable {n n' : Node} {r : Replica} {ids : List InstanceId} {x : Option InstanceId}

theorem length_slotsOf (ids : List InstanceId) : (slotsOf ids).length = maxDeps * ids.length := by
  simp [slotsOf, List.length_flatMap, mul_comm]

theorem of_mem_slotsOf {s : Slot} (h : s ∈ slotsOf ids) : s.1 ∈ ids ∧ s.2 < maxDeps := by
  obtain ⟨v, hv, hs⟩ := List.mem_flatMap.1 h
  obtain ⟨i, hi, rfl⟩ := List.mem_map.1 hs
  exact ⟨hv, List.mem_range.1 hi⟩

theorem inArrays_next {comps : List (List InstanceId)} (h : ∀ c ∈ comps, c ≠ []) :
    (Task.next comps).InArrays ids := by
  cases comps with
  | nil => trivial
  | cons comp comps => exact ⟨fun s => of_mem_slotsOf, (length_slotsOf comp).le, h⟩

theorem left_next (comps : List (List InstanceId)) (m : ℕ) :
    (Task.next comps).left m ≤ stepsOf comps := by
  cases comps with
  | nil => exact Nat.zero_le _
  | cons comp comps =>
    simp only [Task.next, Task.left, stepsOf, length_slotsOf, List.map_cons, List.sum_cons]
    rw [add_mul]
    omega

theorem Node.Steps.inArrays (h : n.task.InArrays n.vertices.ids) (hs : n.Steps r n' x) :
    n'.task.InArrays n'.vertices.ids := by
  cases hs with
  | link ht =>
    rw [ht] at h
    exact ⟨fun s hs => h.1 s (List.mem_cons_of_mem _ hs), (Nat.le_succ _).trans h.2⟩
  | connect ht hs => exact inArrays_next (components_of_strongConnect hs).nonempty
  | @check comp s todo comps d ready ht =>
    rw [ht] at h
    cases ready with
    | true =>
      exact ⟨fun s hs => h.1 s (List.mem_cons_of_mem _ hs), (Nat.le_succ _).trans h.2.1, h.2.2⟩
    | false => exact inArrays_next fun c hc => h.2.2 c (List.mem_cons_of_mem comp hc)
  | sort ht =>
    rw [ht] at h
    exact fun c hc => h.2.2 c (List.mem_cons_of_mem _ hc)
  | mark ht =>
    rw [ht] at h
    exact h
  | finish ht =>
    rw [ht] at h
    exact inArrays_next h

theorem stepsOf_eq (comps : List (List InstanceId)) :
    stepsOf comps = (maxDeps + 1) * comps.flatten.length + 2 * comps.length := by
  induction comps with
  | nil => rfl
  | cons comp comps ih =>
    rw [stepsOf, List.map_cons, List.sum_cons, ← stepsOf, ih, List.flatten_cons, List.length_append,
      List.length_cons]
    ring

theorem length_le_flatten {comps : List (List InstanceId)} (h : ∀ c ∈ comps, c ≠ []) :
    comps.length ≤ comps.flatten.length := by
  induction comps with
  | nil => exact Nat.zero_le _
  | cons comp comps ih =>
    obtain ⟨hc, h⟩ := List.forall_mem_cons.1 h
    have := List.length_pos_iff.2 hc
    have := ih h
    rw [List.flatten_cons, List.length_append, List.length_cons]
    omega

/-- The components of a map of `n` instances. -/
theorem stepsOf_le {comps : List (List InstanceId)} (h : ∀ c ∈ comps, c ≠ [])
    (hn : comps.flatten.Nodup) (hs : comps.flatten ⊆ ids) :
    stepsOf comps ≤ (maxDeps + 3) * ids.length := by
  have h₁ := length_le_flatten h
  have h₂ := (List.subperm_of_subset hn hs).length_le
  rw [stepsOf_eq]
  unfold maxDeps
  omega

/-- Every step takes one off. -/
theorem Node.Steps.left_lt (hs : n.Steps r n' x) :
    n'.task.left n'.vertices.ids.length < n.task.left n.vertices.ids.length := by
  cases hs with
  | link ht =>
    rw [ht]
    simp only [Task.left, List.length_cons]
    omega
  | @connect deps s ht hs =>
    have hc := components_of_strongConnect hs
    have hin : s.sccs.flatten ⊆ n.vertices.ids := by
      intro v hv
      exact (hc.cover v).2 (List.mem_flatten.1 hv)
    have hle := stepsOf_le hc.nonempty hc.once hin
    rw [ht]
    exact (left_next _ _).trans_lt (hle.trans_lt (by simp [Task.left]))
  | @check comp s todo comps d ready ht =>
    rw [ht]
    cases ready with
    | true => simp [Task.left]
    | false => exact (left_next _ _).trans_lt (by simp only [Task.left]; omega)
  | sort ht =>
    rw [ht]
    simp only [Task.left, List.length_nil, (sortScc_perm _ _).length_eq]
    omega
  | mark ht =>
    rw [ht]
    simp [Task.left]
  | finish ht =>
    rw [ht]
    exact (left_next _ _).trans_lt (by simp [Task.left])

/-- The steps of a pass over the map. -/
theorem Node.Unspent.left_le {done : InstanceId → Prop} (hu : n.Unspent done)
    (hi : n.task.InArrays n.vertices.ids) :
    n.task.left n.vertices.ids.length ≤ (2 * maxDeps + 3) * n.vertices.ids.length + 1 := by
  have hn := hu.once
  have hk := hu.known
  cases ht : n.task with
  | waiting => exact Nat.zero_le _
  | linking todo deps =>
    rw [ht] at hi
    have := hi.2
    simp only [Task.left]
    unfold maxDeps at *
    omega
  | checking comp todo comps =>
    rw [ht] at hi hn hk
    have hp : (comp :: comps).flatten = (Task.checking comp todo comps).pending := List.flatten_cons
    have hall := stepsOf_le hi.2.2 (hp ▸ hn) (hp ▸ hk)
    have := hi.2.1
    rw [stepsOf, List.map_cons, List.sum_cons, ← stepsOf] at hall
    simp only [Task.left]
    unfold maxDeps at *
    omega
  | marking todo comps =>
    rw [ht] at hi hn hk
    have h₁ := length_le_flatten hi
    have h₂ := (List.subperm_of_subset hn hk).length_le
    simp only [Task.pending, List.length_append] at h₂
    simp only [Task.left, stepsOf_eq]
    unfold maxDeps
    omega

theorem exists_slot {v : InstanceId} {i : ℕ} (hv : r.HasCommitted v) (hi : i < maxDeps) :
    ∃ d, r.slot (v, i) = some d := by
  obtain ⟨inst, hf, -⟩ := hv
  have hlt : i < inst.deps.slots.length := by rwa [inst.deps.size]
  exact ⟨inst.deps.slots[i], by simp [Replica.slot, hf, hlt]⟩

/-- No step reads what is not there. -/
theorem Node.Orderly.exists_advance {done : InstanceId → Prop}
    {needs : InstanceId → InstanceId → Prop} (h : n.Orderly done needs r) (hu : n.Unspent done)
    (hi : n.task.InArrays n.vertices.ids)
    (hN : ∀ u v, r.HasCommitted u → r.Depends u v → v.replicaId < N) :
    n.task = .waiting ∨ ∃ p, n.advance r = some p := by
  have hk := hu.known
  unfold Node.advance
  cases ht : n.task with
  | waiting => exact .inl rfl
  | linking todo deps =>
    rw [ht] at hi
    right
    cases todo with
    | nil =>
      obtain ⟨s, hs⟩ := exists_strongConnect n.vertices deps
      exact ⟨_, by simp only [hs]; rfl⟩
    | cons s todo =>
      obtain ⟨hs, hlt⟩ := hi.1 s List.mem_cons_self
      obtain ⟨d, hd⟩ := exists_slot (h.map s.1 hs) hlt
      exact ⟨_, by simp only [hd]; rfl⟩
  | checking comp todo comps =>
    rw [ht] at hi hk
    right
    cases todo with
    | nil => exact ⟨_, rfl⟩
    | cons s todo =>
      obtain ⟨hs, hlt⟩ := hi.1 s List.mem_cons_self
      have hc := h.map s.1 (hk (List.mem_append_left _ hs))
      obtain ⟨d, hd⟩ := exists_slot hc hlt
      have hready : ∃ b, depReady r n.vertices comp d = some b := by
        unfold depReady
        split_ifs with he _ hlt
        · exact ⟨_, rfl⟩
        · exact ⟨_, rfl⟩
        · have := hN s.1 d.id hc ⟨d, mem_of_slot hd, he, rfl⟩
          omega
        · exact ⟨_, rfl⟩
      obtain ⟨b, hb⟩ := hready
      exact ⟨_, by simp only [hd, Option.bind_some, hb]; rfl⟩
  | marking todo comps =>
    right
    cases todo <;> exact ⟨_, rfl⟩

end Tasks

section Runs

variable {T : RangeTree} {c c' : Cluster} {a : Action} {k : ℕ}
  {ok : Cluster → ℕ → Action → Prop}

theorem ClusterRun.inArrays (h : ClusterRun ok T c) :
    ∀ k, (c.node k).task.InArrays (c.node k).vertices.ids := by
  induction h with
  | init => exact fun _ => trivial
  | @next c c' k a _ _ hn ih =>
    have hupdate : ∀ {n : Node}, n.task.InArrays n.vertices.ids → ∀ j,
        (Function.update c.node k n j).task.InArrays
          (Function.update c.node k n j).vertices.ids := by
      intro n hn j
      by_cases hj : j = k
      · subst hj
        rwa [Function.update_self]
      · rw [Function.update_of_ne hj]
        exact ih j
    cases Cluster.next_step hn with
    | @replica ev _ i e =>
      refine hupdate ?_
      unfold Node.handOver
      split_ifs <;> exact ih k
    | write => exact hupdate (ih k)
    | receive =>
      refine hupdate ?_
      unfold Node.receive
      dsimp only
      split_ifs
      · exact ⟨fun s => of_mem_slotsOf, (length_slotsOf _).le⟩
      · trivial
    | advance ha | mark ha => exact hupdate ((Node.advance_steps ha).inArrays (ih k))

/-- The cluster after `n` steps of executor `k`. -/
def Cluster.advances (T : RangeTree) (k : ℕ) : ℕ → Cluster → Option Cluster
  | 0, c => some c
  | n + 1, c => (c.next T k .advance).bind (advances T k n)

theorem World.Small.execute {w w' : World} {id : InstanceId} (h : w.Small)
    (hn : w.next T k (.execute id) = some w') : w'.Small := by
  obtain ⟨-, -, i, e, -, rfl⟩ := next_eq hn
  intro j
  refine lt_of_eq_of_lt ?_ (h j)
  exact List.countP_cons_of_neg (by simp [Event.Assigns])

theorem World.Kept.execute {w w' : World} {id : InstanceId} (h : w.Kept) (hr : Run T w)
    (hn : w.next T k (.execute id) = some w') : w'.Kept := by
  have hg' := (Run.next hr hn).grown.1
  obtain ⟨-, -, i, e, hh, rfl⟩ := next_eq hn
  have hf : (w.replica k).find id = some i := hg'.head.located
  have hk : i.key = id := hr.key hf
  simp only [Replica.handle, hf] at hh
  split_ifs at hh
  cases hh
  have hfind : ∀ v,
      ((w.replica k).apply (quiet (w.replica k) { i with status := .executed })).find v
        = if v = id then some { i with status := .executed } else (w.replica k).find v := fun v => by
    show ((w.replica k).put { i with status := .executed }).find v = _
    rw [Replica.find_put, hk]
  intro t ht hx
  rcases List.mem_cons.1 ht with rfl | ht
  · show (Function.update w.replica k _ k).hasExecuted i.key = true
    rw [Function.update_self, Replica.hasExecuted, hfind, if_pos hk]
    rfl
  · have hold := h t ht hx
    by_cases hw : t.who = k
    · subst hw
      simp only [Function.update_self, Replica.hasExecuted, hfind]
      split_ifs
      · rfl
      · exact hold
    · simpa only [Function.update_of_ne hw] using hold

/-- In the middle of a pass the executor can take its next step. -/
theorem exists_next (h : ClusterRun (Serving T) T c) (hs : c.world.Small) (hk : c.world.Kept) :
    (c.node k).task = .waiting ∨ ∃ c', ClusterRun (Serving T) T c' ∧ c'.world.Small ∧ c'.world.Kept
      ∧ c.next T k .advance = some c'
      ∧ (c'.node k).task.left (c'.node k).vertices.ids.length
        < (c.node k).task.left (c.node k).vertices.ids.length
      ∧ (∀ v ∈ (c.node k).vertices.ids,
        v ∈ (c'.node k).vertices.ids ∨ c'.world.Executed k v)
      ∧ ∀ v, c.world.Executed k v → c'.world.Executed k v := by
  have hsealed : ClusterRun (SealedUnmet T) T c := h.imp fun _ _ _ => And.left
  have hl := (hsealed.imp fun _ _ _ => And.left).sound.2
  have hset := (hsealed.imp fun _ _ _ => And.right).settled
  have hu := hset.unspent k
  have ho := (hsealed.orderly hs).node k
  have hN : ∀ u v, (c.view k).HasCommitted u → (c.view k).Depends u v → v.replicaId < N := by
    intro u v hu hd
    rw [Replica.HasCommitted, hl.find_view] at hu
    have hd := (Replica.Reads.of_find (hl.find_view k u).symm).depends.2 hd
    exact ((Replica.HasCommitted.depends hu h.run hd).2.small h.run hs).2
  refine (((hl.orderly_iff hu).2 ho).exists_advance hu (h.inArrays k) hN).imp_right ?_
  rintro ⟨⟨n, x⟩, hn⟩
  have hsteps := Node.advance_steps hn
  have hok : Serving T c k .advance := ⟨⟨trivial, trivial⟩, hk, trivial⟩
  cases x with
  | none =>
    have hnext : c.next T k .advance = some { c with node := Function.update c.node k n } := by
      simp only [Cluster.next, hn, Option.bind_some]
    have hkeep : n.vertices = (c.node k).vertices := by
      cases hsteps <;> rfl
    refine ⟨_, .next h hok hnext, hs, hk, hnext, ?_, fun v hv => .inl ?_, fun v => id⟩
    · simpa only [Function.update_self] using hsteps.left_lt
    · simpa only [Function.update_self, hkeep] using hv
  | some id =>
    have hid : id ∈ (c.node k).vertices.ids := by
      have := hu.known
      cases hsteps with
      | mark ht =>
        rw [ht] at this
        exact this (List.mem_append_left _ List.mem_cons_self)
    obtain ⟨i, hf, -⟩ := ho.map id hid
    have hhanded : id ∈ (c.world.replica k).handed := ((h.held hs).supplied k).map id hid
    obtain ⟨t, ht, hwho, -⟩ := h.run.handed_committed k id hhanded
    have hkN : k < N := by
      obtain ⟨_, _, -, -, hh⟩ := h.run.grown.1.of_mem ht
      exact hwho ▸ hh.who_lt
    obtain ⟨w, hw⟩ : ∃ w, c.world.next T k (.execute id) = some w := by
      unfold World.next
      rw [if_pos ⟨hkN, trivial⟩]
      simp only [Replica.handle, hf, if_pos hhanded]
      exact ⟨_, rfl⟩
    have hnext : c.next T k .advance = some ⟨w, Function.update c.node k n⟩ := by
      simp only [Cluster.next, hn, Option.bind_some, hw, Option.map_some]
    refine ⟨_, .next h hok hnext, hs.execute hw, hk.execute h.run hw, hnext, ?_, fun v hv => ?_,
      fun v hv => (executed_next hw k v).2 (.inl hv)⟩
    · simpa only [Function.update_self] using hsteps.left_lt
    · simp only [Function.update_self]
      cases hsteps with
      | mark ht =>
        by_cases he : v = id
        · exact .inr ((executed_next hw k v).2 (.inr ⟨rfl, by simp [Event.executes, he]⟩))
        · exact .inl ((mem_del_iff hid).2 ⟨hv, he⟩)

/-- However far the executor is, after so many steps of its own it is at the channel again. -/
theorem exists_advances (m : ℕ) : ∀ {c : Cluster}, ClusterRun (Serving T) T c → c.world.Small →
    c.world.Kept → (c.node k).task.left (c.node k).vertices.ids.length ≤ m →
    ∃ n c', n ≤ m ∧ c.advances T k n = some c' ∧ ClusterRun (Serving T) T c' ∧ c'.world.Small
      ∧ (c'.node k).task = .waiting
      ∧ (∀ v ∈ (c.node k).vertices.ids, v ∈ (c'.node k).vertices.ids ∨ c'.world.Executed k v)
      ∧ ∀ v, c.world.Executed k v → c'.world.Executed k v := by
  induction m with
  | zero =>
    intro c h hs hk hle
    rcases exists_next h hs hk with ht | ⟨c', -, -, -, -, hlt, -⟩
    · exact ⟨0, c, le_rfl, rfl, h, hs, ht, fun v => .inl, fun v => id⟩
    · omega
  | succ m ih =>
    intro c h hs hk hle
    rcases exists_next h hs hk with ht | ⟨c', h', hs', hk', hn, hlt, hkeep, hx⟩
    · exact ⟨0, c, Nat.zero_le _, rfl, h, hs, ht, fun v => .inl, fun v => id⟩
    · obtain ⟨n, c'', hnm, hadv, h'', hs'', ht, hkeep', hx'⟩ := ih h' hs' hk' (by omega)
      refine ⟨n + 1, c'', by omega, ?_, h'', hs'', ht, fun v hv => ?_, fun v hv => hx' v (hx v hv)⟩
      · rw [Cluster.advances, hn, Option.bind_some, hadv]
      · exact (hkeep v hv).elim (hkeep' v) fun hv => .inr (hx' v hv)

end Runs

end Epx
