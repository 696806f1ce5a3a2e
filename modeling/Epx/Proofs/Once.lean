import Epx.Proofs.Nodes

/-!
# Each instance is executed once

The executor writes `EXECUTED` to instances that are in its map, and takes each out of the map when
it does. `add_node` knows an instance only while it is in the map: one that `commit` or `do_commit`
hands over again after that is new to it.
-/

namespace Epx

/-- The event is the write of `EXECUTED` to the instance. -/
def Event.executes (ev : Event) (id : InstanceId) : Bool :=
  match ev with
  | .execute id' => id' = id
  | _ => false

/-- Replica `k` has executed the instance. -/
def World.Executed (w : World) (k : ℕ) (id : InstanceId) : Prop :=
  ∃ t ∈ w.log, t.who = k ∧ t.event.executes id = true

instance (w : World) (k : ℕ) (id : InstanceId) : Decidable (w.Executed k id) :=
  inferInstanceAs (Decidable (∃ _ ∈ _, _))

/-- How many times replica `k` has moved the instance to `EXECUTED`. -/
def World.executions (w : World) (k : ℕ) (id : InstanceId) : ℕ :=
  w.log.countP fun t => t.who = k ∧ t.event.executes id = true

/-- The executor receives no instance that it has executed. -/
def Unmet (c : Cluster) (k : ℕ) : Action → Prop
  | .receive _ => ∀ id ∈ (c.node k).chan.head?, ¬ c.world.Executed k id
  | _ => True

/-- What the executor has found and not executed yet in this pass. -/
def Task.pending : Task → List InstanceId
  | .waiting | .linking _ _ => []
  | .checking comp _ comps => comp ++ comps.flatten
  | .marking todo comps => todo ++ comps.flatten

/-- What waits in the map has not been executed, and what is about to be executed waits there. -/
structure Node.Unspent (n : Node) (done : InstanceId → Prop) : Prop where
  map : ∀ v ∈ n.vertices.ids, ¬ done v
  once : n.task.pending.Nodup
  known : n.task.pending ⊆ n.vertices.ids

theorem Task.pending_next (comps : List (List InstanceId)) :
    (Task.next comps).pending = comps.flatten := by
  cases comps <;> simp [Task.next, Task.pending]

section Advance

variable {n n' : Node} {r : Replica} {done : InstanceId → Prop} {id : InstanceId}

theorem Node.Unspent.mono (h : n.Unspent done) (hv : n'.vertices = n.vertices)
    (hp : n'.task.pending.Sublist n.task.pending) : n'.Unspent done where
  map := hv ▸ h.map
  once := h.once.sublist hp
  known := hv ▸ fun _ hx => h.known (hp.subset hx)

theorem Node.Unspent.advance (h : n.Unspent done) (ha : n.Steps r n' none) : n'.Unspent done := by
  cases ha with
  | link ht hd => exact ⟨h.map, .nil, List.nil_subset _⟩
  | connect ht hs =>
    have hc := components_of_strongConnect hs
    refine ⟨h.map, ?_, fun v hv => ?_⟩
    · rw [Task.pending_next]
      exact hc.once
    · rw [Task.pending_next] at hv
      exact (hc.cover v).2 (List.mem_flatten.1 hv)
  | @check comp s todo comps d ready ht hd hr =>
    refine h.mono rfl ?_
    rw [ht]
    show (if ready = true then Task.checking comp todo comps else Task.next comps).pending.Sublist
      (comp ++ comps.flatten)
    split_ifs
    · exact List.Sublist.refl _
    · rw [Task.pending_next]
      exact List.sublist_append_right _ _
  | @sort comp comps ht =>
    have hp : (sortScc r.seqOf comp ++ comps.flatten).Perm n.task.pending := by
      rw [ht]
      exact (sortScc_perm r.seqOf comp).append_right _
    exact ⟨h.map, hp.nodup_iff.2 h.once, fun v hv => h.known (hp.subset hv)⟩
  | @finish comps ht =>
    refine h.mono rfl ?_
    rw [ht]
    show (Task.next comps).pending.Sublist ([] ++ comps.flatten)
    rw [Task.pending_next]
    exact List.Sublist.refl _

/-- An instance written `EXECUTED` was not before, and is out of the map. -/
theorem Node.Unspent.mark (h : n.Unspent done) (ha : n.Steps r n' (some id)) :
    ¬ done id ∧ n'.Unspent fun v => done v ∨ v = id := by
  cases ha with
  | @mark _ todo comps ht =>
    have hp : n.task.pending = id :: (todo ++ comps.flatten) := by rw [ht]; rfl
    have hn := h.once
    have hk := h.known
    rw [hp] at hn hk
    have hid := hk List.mem_cons_self
    refine ⟨h.map id hid, fun v hv => ?_, (List.nodup_cons.1 hn).2, fun v hv => ?_⟩
    · have hv := List.mem_filter.1 hv
      rintro (hd | rfl)
      · exact h.map v hv.1 hd
      · simp at hv
    · have hvn : v ∈ n.vertices.ids := hk (List.mem_cons_of_mem id hv)
      refine List.mem_filter.2 ⟨hvn, ?_⟩
      simp only [ne_eq, decide_not, Bool.not_eq_true', decide_eq_false_iff_not]
      intro he
      rw [Vertices.eq_of_dhKey hvn hid he] at hv
      exact (List.nodup_cons.1 hn).1 hv

/-- The map has what it had, and the instance received. -/
theorem Vertices.mem_of_addNode {vs : Vertices} {v : InstanceId}
    (h : v ∈ (vs.addNode id).1.ids) : v = id ∨ v ∈ vs.ids := by
  unfold addNode at h
  split_ifs at h
  · obtain ⟨u, hu, rfl⟩ := List.mem_map.1 h
    split_ifs
    · exact .inl rfl
    · exact .inr hu
  · exact List.mem_cons.1 h

theorem Node.Unspent.receive {chan : List InstanceId} {vs : Vertices} (h : n.Unspent done)
    (hvs : vs.ids.Perm (n.vertices.addNode id).1.ids) (hid : ¬ done id) :
    (n.receive chan id vs).Unspent done := by
  have hp : (n.receive chan id vs).task.pending = [] := by
    unfold Node.receive
    split_ifs <;> rfl
  refine ⟨fun v hv => ?_, hp ▸ .nil, hp ▸ List.nil_subset _⟩
  rcases Vertices.mem_of_addNode (hvs.subset hv) with rfl | hv
  · exact hid
  · exact h.map v hv

theorem Node.Unspent.congr {done' : InstanceId → Prop} (h : n.Unspent done)
    (hd : ∀ v, done' v ↔ done v) : n.Unspent done' :=
  ⟨fun v hv hx => h.map v hv ((hd v).1 hx), h.once, h.known⟩

theorem Node.Unspent.handOver {ev : Event} {i : Instance} {e : Effect} (h : n.Unspent done) :
    (n.handOver ev i e).Unspent done := by
  unfold Node.handOver
  split_ifs
  · exact h.mono rfl (List.Sublist.refl _)
  · exact h

end Advance

section Executions

variable {T : RangeTree} {w w' : World} {k : ℕ} {ev : Event}

theorem executions_eq_zero {id : InstanceId} :
    w.executions k id = 0 ↔ ¬ w.Executed k id := by
  simp [World.executions, World.Executed, List.countP_eq_zero]

theorem executed_next (hn : w.next T k ev = some w') (j : ℕ) (id : InstanceId) :
    w'.Executed j id ↔ w.Executed j id ∨ (k = j ∧ ev.executes id = true) := by
  obtain ⟨-, -, i, e, -, rfl⟩ := next_eq hn
  simp only [World.Executed, List.mem_cons, exists_eq_or_imp]
  exact or_comm

theorem executions_next (hn : w.next T k ev = some w') (j : ℕ) (id : InstanceId) :
    w'.executions j id
      = w.executions j id + if k = j ∧ ev.executes id = true then 1 else 0 := by
  obtain ⟨-, -, i, e, -, rfl⟩ := next_eq hn
  simp [World.executions, List.countP_cons]

theorem Event.executes_of_not {id : InstanceId} (h : ev.isExecute = false) :
    ev.executes id = false := by
  cases ev <;> first | rfl | cases h

/-- No executor can execute again what its replica has executed. -/
structure Cluster.Settled (c : Cluster) : Prop where
  unspent : ∀ k, (c.node k).Unspent (c.world.Executed k)
  once : ∀ k id, c.world.executions k id ≤ 1

theorem Cluster.Settled.init : Cluster.init.Settled where
  unspent _ :=
    { map := fun _ hv => absurd hv List.not_mem_nil
      once := .nil
      known := List.nil_subset _ }
  once _ _ := Nat.zero_le 1

/-- A step of node `k` that leaves the worlds' logs alone. -/
theorem Cluster.Settled.update {c : Cluster} {n : Node} (h : c.Settled)
    (hn : n.Unspent (c.world.Executed k)) :
    Cluster.Settled { c with node := Function.update c.node k n } where
  unspent j := by
    by_cases hj : j = k
    · subst hj
      simpa using hn
    · simpa [Function.update_of_ne hj] using h.unspent j
  once := h.once

theorem Cluster.Settled.next {c c' : Cluster} {a : Action} (h : c.Settled) (ha : Unmet c k a)
    (hs : c.Step T k a c') : c'.Settled := by
  cases hs with
  | @replica ev w i e hev hu hh hw =>
    have hx : ∀ j id, w.Executed j id ↔ c.world.Executed j id := fun j id => by
      rw [executed_next hw, Event.executes_of_not hev]
      simp
    have h₁ : Cluster.Settled ⟨c.world, Function.update c.node k ((c.node k).handOver ev i e)⟩ :=
      h.update (h.unspent k).handOver
    refine ⟨fun j => (h₁.unspent j).congr (hx j), fun j id => ?_⟩
    rw [executions_next hw, Event.executes_of_not hev]
    simpa using h.once j id
  | write => exact h.update ((h.unspent k).mono rfl (List.Sublist.refl _))
  | receive ht hc hf hvs =>
    exact h.update ((h.unspent k).receive hvs (ha _ (by rw [hc]; rfl)))
  | advance hn => exact h.update ((h.unspent k).advance (Node.advance_steps hn))
  | @mark n id w hn hw =>
    obtain ⟨hd, hu⟩ := (h.unspent k).mark (Node.advance_steps hn)
    have hx : ∀ j v, w.Executed j v ↔ c.world.Executed j v ∨ (k = j ∧ id = v) := fun j v => by
      rw [executed_next hw]
      simp [Event.executes]
    refine ⟨fun j => ?_, fun j v => ?_⟩
    · by_cases hj : j = k
      · subst hj
        simp only [Function.update_self]
        exact hu.congr fun v => by rw [hx]; simp [eq_comm]
      · simp only [Function.update_of_ne hj]
        exact (h.unspent j).congr fun v => by
          rw [hx]
          simp [Ne.symm hj]
    · rw [executions_next hw]
      split_ifs with hv
      · obtain ⟨rfl, hv⟩ := hv
        have hv : id = v := by simpa [Event.executes] using hv
        rw [executions_eq_zero.2 (hv ▸ hd)]
      · exact h.once j v

theorem ClusterRun.settled {c : Cluster} (h : ClusterRun Unmet T c) : c.Settled := by
  induction h with
  | init => exact .init
  | next _ hok hn ih => exact ih.next hok (Cluster.next_step hn)

/-- Where the executors receive nothing that they have executed, they execute each instance at
most once. -/
theorem executed_once {c : Cluster} (h : ClusterRun Unmet T c) (k : ℕ) (id : InstanceId) :
    c.world.executions k id ≤ 1 :=
  h.settled.once k id

end Executions

instance (c : Cluster) (k : ℕ) (a : Action) : Decidable (Unmet c k a) := by
  unfold Unmet
  cases a <;> infer_instance

/-- The leader's fast commit, and the `COMMIT` at replica 1 with the rest of `commit`, the receive
and the executor's pass. -/
def executedAtFollower : List Turn :=
  fastCommit.map Move.turn
    ++ [(deliverAt 1 .commit ⟨0, 1⟩).turn, (1, fun _ => .write), (1, fun _ => .write), receiveAt 1]
    ++ advanceAt 1 20

theorem executed_once_follower : ∃ c, ClusterRun Unmet listTree c
    ∧ c.world.executions 1 ⟨0, 1⟩ = 1 ∧ c.world.executions 1 ⟨0, 1⟩ ≤ 1 := by
  obtain ⟨c, hc, he⟩ := exists_clusterRun Unmet executedAtFollower
    (p := fun c => c.world.executions 1 ⟨0, 1⟩ = 1) (by decide +kernel)
  exact ⟨c, hc, he, executed_once hc 1 ⟨0, 1⟩⟩

/-- The `COMMIT` delivered twice is executed twice. -/
theorem executed_twice : ¬ ∀ c, ClusterRun (fun _ _ _ => True) listTree c →
    ∀ k id, c.world.executions k id ≤ 1 := by
  intro h
  obtain ⟨c, hc, he⟩ := exists_clusterRun (fun _ _ _ => True)
    (executedAtFollower
      ++ [(deliverAt 1 .commit ⟨0, 1⟩).turn, (1, fun _ => .write), (1, fun _ => .write),
        receiveAt 1]
      ++ advanceAt 1 20)
    (p := fun c => c.world.executions 1 ⟨0, 1⟩ = 2) (by decide +kernel)
  have := h c hc 1 ⟨0, 1⟩
  omega

end Epx
