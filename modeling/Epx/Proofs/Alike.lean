import Epx.Proofs.Consensus
import Epx.Proofs.InOrder

/-!
# Executed alike everywhere

Where all replicas commit an instance with one seq and one dependency array, the dependencies make
one graph for all executors. Each executes an instance after all that it leads to in the graph, but
for what leads back to it and has no smaller seq. So two instances, one of which leads to the other,
are executed in one order.
-/

namespace Epx

open Log Relation

/-- Some replica has committed `u` with a dependency on `v`. -/
def Requires (log : List Record) (u v : InstanceId) : Prop :=
  ∃ t ∈ log, t.after.key = u ∧ t.after.status = .committed ∧ t.after.deps.Has v

/-- Some replica has committed the instance with the seq. -/
def CommittedAt (log : List Record) (u : InstanceId) (seq : ℕ) : Prop :=
  ∃ t ∈ log, t.after.key = u ∧ t.after.status = .committed ∧ t.after.seq = seq

/-- No instance is committed with two values. -/
def OneValue (log : List Record) : Prop :=
  ∀ t ∈ log, ∀ p ∈ log, t.after.key = p.after.key → t.after.status = .committed →
    p.after.status = .committed → t.after.value = p.after.value

/-- Replica `k` has executed `u` before `v`. -/
def ExecutedBefore (log : List Record) (k : ℕ) (u v : InstanceId) : Prop :=
  ∃ newer t older, log = newer ++ t :: older ∧ t.who = k ∧ t.event.executes v = true
    ∧ ∃ p ∈ older, p.who = k ∧ p.event.executes u = true

/-- All that an instance executed leads to has been executed before, or leads back to it and is
committed with no smaller seq. -/
def Record.Ordered (older : List Record) (t : Record) : Prop :=
  ∀ u, t.event = .execute u → ∃ seq, CommittedAt older u seq ∧
    ∀ v, ReflTransGen (Requires older) u v →
      (∃ p ∈ older, p.who = t.who ∧ p.event.executes v = true)
        ∨ (ReflTransGen (Requires older) v u ∧ ∃ seq', seq ≤ seq' ∧ CommittedAt older v seq')

/-- What the executor has still to execute of a component. -/
def Task.marks : Task → List InstanceId
  | .marking todo _ => todo
  | _ => []

section Graph

variable {T : RangeTree} {w : World} {log older : List Record} {t : Record} {u v id : InstanceId}
  {s s' : ℕ} {x y : Value}

theorem CommittedAt.unique (ho : OneValue log) (h : CommittedAt log u s)
    (h' : CommittedAt log u s') : s = s' := by
  obtain ⟨t, ht, hk, hs, rfl⟩ := h
  obtain ⟨p, hp, hk', hs', rfl⟩ := h'
  exact congrArg (fun v : Value => v.2.1) (ho t ht p hp (hk.trans hk'.symm) hs hs')

theorem CommittedAt.mono (h : CommittedAt older u s) (hsub : older ⊆ log) : CommittedAt log u s := by
  obtain ⟨t, ht, h⟩ := h
  exact ⟨t, hsub ht, h⟩

theorem Requires.mono (hsub : older ⊆ log) (h : Requires older u v) : Requires log u v := by
  obtain ⟨t, ht, h⟩ := h
  exact ⟨t, hsub ht, h⟩

theorem Needs.requires {k : ℕ} (h : Needs log k u v) : Requires log u v := by
  obtain ⟨t, ht, -, h⟩ := h
  exact ⟨t, ht, h⟩

/-- What an instance requires is known once it is committed. -/
theorem Requires.of_committed (ho : OneValue log) (hsub : older ⊆ log) (hu : CommittedAt older u s)
    (h : Requires log u v) : Requires older u v := by
  obtain ⟨p, hp, hk, hs, -⟩ := hu
  obtain ⟨t, ht, hk', hs', hv⟩ := h
  have he : t.after.deps = p.after.deps :=
    congrArg (fun v : Value => v.2.2) (ho t ht p (hsub hp) (hk'.trans hk.symm) hs' hs)
  exact ⟨p, hp, hk, hs, he ▸ hv⟩

theorem OneValue.mono (ho : OneValue log) (hsub : older ⊆ log) : OneValue older :=
  fun t ht p hp => ho t (hsub ht) p (hsub hp)

theorem Decreed.unique (hr : Run T w) (hc : Grown (fun older t => t.Concordant T older) w.log)
    (hx : Decreed w.log id x) (hy : Decreed w.log id y) : x = y := by
  have hg := hr.grown.1.both hc
  have hp : ∀ t ∈ w.log, t.Preserves T := fun t ht => by
    obtain ⟨_, _, -, -, h⟩ := hc.of_mem ht
    exact h.1
  obtain ⟨c, hcw, rfl, rfl, hcc⟩ := hx
  obtain ⟨d, hdw, hdk, rfl, hdd⟩ := hy
  have committed : ∀ {t : Record}, t.FastCommits ∨ t.SlowCommits → t.after.status = .committed := by
    rintro t (h | h)
    · exact h.2.2.1
    · exact h.2.1
  rcases hcc with hf | hs
  · exact (fast_commit_value (hr.within hp) hcw hf hdw hdk (.inr (committed hdd))).symm
  rcases hdd with hf | hs'
  · exact fast_commit_value (hr.within hp) hdw hf hcw hdk.symm (.inr (committed (.inr hs)))
  · obtain ⟨ho, hq⟩ := slow_settled hg hcw hs
    obtain ⟨ho', hq'⟩ := slow_settled hg hdw hs'
    rw [hdk] at ho' hq'
    exact (offered_unique (fun h => h.orderly) hg).agree hq hq' ho ho'

/-- In a run of concordant events an instance is committed with one value. -/
theorem Run.oneValue (hr : Run T w) (hc : Grown (fun older t => t.Concordant T older) w.log) :
    OneValue w.log := by
  have hg := hr.grown.1.both hc
  have decreed : ∀ t ∈ w.log, t.after.status = .committed →
      Decreed w.log t.after.key t.after.value := fun t ht hs => by
    obtain ⟨newer, older, hl⟩ := List.append_of_mem ht
    have hlast : Last (t :: older) t.who t.after.key t.after := ⟨t, by simp, rfl⟩
    obtain ⟨c, hcm, h⟩ := grown_decreed (hg.upto hl) (hr.grown_handed.upto hl) hlast (.inl hs)
    exact ⟨c, hl ▸ List.mem_append_right newer hcm, h⟩
  intro t ht p hp hk hs hs'
  exact (decreed t ht hs).unique hr hc (hk ▸ decreed p hp hs')

end Graph

section Executions

variable {T : RangeTree} {w w' : World} {c c' : Cluster} {a : Action} {k j : ℕ} {u v id : InstanceId}

/-- What is executed at a replica has been committed there. -/
theorem Run.committed_of_execute (hr : Run T w) {t : Record} {newer older : List Record}
    (hl : w.log = newer ++ t :: older) (hx : t.event.executes u = true) :
    ∃ seq, CommittedAt older u seq := by
  obtain ⟨-, hh⟩ := hr.grown.1.cut hl
  obtain ⟨io, ha, -⟩ := hh.acts
  generalize t.after = i at ha
  cases hev : t.event with
  | execute v =>
    rw [hev] at ha hx
    obtain rfl : v = u := by simpa [Event.executes] using hx
    cases ha with
    | execute hv =>
      obtain ⟨p, hp, -, hk, hs⟩ := (hr.grown_handed.cut hl).2 v hv
      exact ⟨_, p, hp, hk, hs, rfl⟩
  | propose | checkpoint | timeout | step =>
    rw [hev] at hx
    cases hx

/-- So it has before any later event. -/
theorem Run.committed_of_mem (hr : Run T w) {t : Record} {newer log : List Record}
    (hl : w.log = newer ++ log) (ht : t ∈ log) (hx : t.event.executes u = true) :
    ∃ seq, CommittedAt log u seq := by
  obtain ⟨between, older, rfl⟩ := List.append_of_mem ht
  obtain ⟨seq, h⟩ := hr.committed_of_execute (by rw [hl, ← List.append_assoc]) hx
  exact ⟨seq, h.mono fun _ hp => List.mem_append_right _ (List.mem_cons_of_mem _ hp)⟩

/-- All that an executed instance requires has been executed, or is about to be. -/
def Node.Closed (n : Node) (done : InstanceId → Prop) (requires : InstanceId → InstanceId → Prop) :
    Prop :=
  ∀ u, done u → ∀ v, requires u v → done v ∨ v ∈ n.task.marks

theorem Node.Closed.congr {n n' : Node} {done done' : InstanceId → Prop}
    {requires requires' : InstanceId → InstanceId → Prop} (h : n.Closed done requires)
    (hm : n.task.marks ⊆ n'.task.marks) (hd : ∀ u, done' u ↔ done u)
    (hr : ∀ u v, done u → requires' u v → requires u v) : n'.Closed done' requires' := by
  intro u hu v huv
  have hu := (hd u).1 hu
  exact (h u hu v (hr u v hu huv)).imp (hd v).2 fun hv => hm hv

/-- Only where a component goes are there instances about to be executed. -/
theorem Node.Steps.marks {n n' : Node} {r : Replica} (hs : n.Steps r n' none) :
    n.task.marks ⊆ n'.task.marks := by
  have none_of : n.task.marks = [] → n.task.marks ⊆ n'.task.marks := fun h => by
    rw [h]
    exact List.nil_subset _
  cases hs with
  | link ht | connect ht | check ht | sort ht | finish ht => exact none_of (by rw [ht]; rfl)

section Marks

variable {done : InstanceId → Prop} {needs : InstanceId → InstanceId → Prop} {r : Replica}
  {ids : List InstanceId} {task : Task}

theorem Task.marks_subset (hv : v ∈ task.marks) : v ∈ task.pending := by
  cases task with
  | marking => exact List.mem_append_left _ hv
  | waiting | linking | checking => exact absurd hv List.not_mem_nil

theorem Task.Orderly.marks_closed (h : task.Orderly done needs r ids) (hu : u ∈ task.marks)
    (hd : r.Depends u v) : done v ∨ v ∈ task.marks := by
  cases task with
  | marking => exact (h.2.2 u hu v hd).symm
  | waiting | linking | checking => exact absurd hu List.not_mem_nil

theorem Task.Orderly.marks_knotted (h : task.Orderly done needs r ids) :
    Knotted needs task.marks := by
  cases task with
  | marking => exact h.1 _ List.mem_cons_self
  | waiting | linking | checking => exact fun u hu => absurd hu List.not_mem_nil

/-- The next to be executed has the smallest seq. -/
theorem Task.Orderly.marks_least {todo : List InstanceId} {comps : List (List InstanceId)}
    (h : (Task.marking (id :: todo) comps).Orderly done needs r ids) (hv : v ∈ id :: todo) :
    r.seqOf id ≤ r.seqOf v := by
  rcases List.mem_cons.1 hv with rfl | hv
  · exact le_rfl
  · exact (List.pairwise_cons.1 h.2.1).1 v hv

end Marks

/-- The committed instance that a replica has requires what it depends on. -/
theorem depends_of_requires (hw : w.Indexed) (ho : OneValue w.log)
    (hc : (w.replica k).HasCommitted u) (h : Requires w.log u v) : (w.replica k).Depends u v := by
  obtain ⟨i, hf, t, ht, -, hk, hs, rfl⟩ := hc.exists_record hw
  obtain ⟨p, hp, hk', hs', hv⟩ := h
  have he : p.after.deps = t.after.deps :=
    congrArg (fun v : Value => v.2.2) (ho p hp t ht (hk'.trans hk.symm) hs' hs)
  exact (depends_iff hf).2 (he ▸ hv)

/-- What leads from a component that goes has been executed, or is in it. -/
theorem Node.Closed.reach {n : Node} {done : InstanceId → Prop}
    {requires : InstanceId → InstanceId → Prop} (h : n.Closed done requires)
    (ht : ∀ u ∈ n.task.marks, ∀ v, requires u v → done v ∨ v ∈ n.task.marks)
    (hu : u ∈ n.task.marks) (hp : ReflTransGen requires u v) : done v ∨ v ∈ n.task.marks := by
  induction hp with
  | refl => exact .inr hu
  | @tail x v _ hx ih => exact ih.elim (fun hd => h x hd v hx) fun hm => ht x hm v hx

theorem Node.Closed.mark {n n' : Node} {r : Replica} {done : InstanceId → Prop}
    {requires : InstanceId → InstanceId → Prop} (h : n.Closed done requires)
    (ht : ∀ u ∈ n.task.marks, ∀ v, requires u v → done v ∨ v ∈ n.task.marks)
    (hs : n.Steps r n' (some id)) :
    n'.Closed (fun v => done v ∨ v = id) requires := by
  cases hs with
  | @mark _ todo comps htask =>
    rw [Node.Closed, htask] at h
    rw [htask] at ht
    intro u hu v huv
    have hv : done v ∨ v ∈ id :: todo := by
      rcases hu with hu | rfl
      · exact h u hu v huv
      · exact ht u List.mem_cons_self v huv
    rcases hv with hv | hv
    · exact .inl (.inl hv)
    · exact (List.mem_cons.1 hv).imp_left .inr

/-- Every node is, and what has been executed was in the order of the graph. -/
structure Cluster.Alike (c : Cluster) : Prop where
  node : ∀ k, (c.node k).Closed (c.world.Executed k) (Requires c.world.log)
  log : Grown Record.Ordered c.world.log

theorem Cluster.Alike.init : Cluster.init.Alike where
  node k u hu := by
    obtain ⟨t, ht, -⟩ := hu
    exact absurd ht List.not_mem_nil
  log := .nil

/-- A step of node `k` that leaves the worlds' logs alone. -/
theorem Cluster.Alike.update {n : Node} (h : c.Alike)
    (hm : (c.node k).task.marks ⊆ n.task.marks) :
    Cluster.Alike { c with node := Function.update c.node k n } := by
  refine ⟨fun j => ?_, h.log⟩
  by_cases hj : j = k
  · subst hj
    simp only [Function.update_self]
    exact (h.node j).congr hm (fun _ => Iff.rfl) fun _ _ _ => id
  · simpa only [Function.update_of_ne hj] using h.node j

/-- What an executed instance requires stays the same. -/
theorem requires_next (hr : Run T w) (hsub : w.log ⊆ w'.log) (ho : OneValue w'.log)
    (hx : w.Executed j u) (h : Requires w'.log u v) : Requires w.log u v := by
  obtain ⟨t, ht, -, hx⟩ := hx
  obtain ⟨seq, hu⟩ := hr.committed_of_mem (List.nil_append _).symm ht hx
  exact h.of_committed ho hsub hu

theorem Cluster.Alike.next (h : c.Alike) (ho : c.Orderly) (hr : Run T c.world)
    (hset : c.Settled) (hone : OneValue c'.world.log) (hs : c.Step T k a c') : c'.Alike := by
  cases hs with
  | @replica ev w i e hev hu hh hw =>
    obtain ⟨t, ht⟩ := log_next hw
    have hx : ∀ j v, w.Executed j v ↔ c.world.Executed j v := fun j v => by
      rw [executed_next hw, Event.executes_of_not hev]
      simp
    have hnode : ∀ j, (c.node j).Closed (w.Executed j) (Requires w.log) := fun j =>
      (h.node j).congr (fun _ => id) (hx j) fun u v hu =>
        requires_next hr (ht ▸ List.subset_cons_self t _) hone hu
    have hkeep : ((c.node k).handOver ev i e).task = (c.node k).task := by
      unfold Node.handOver
      split_ifs <;> rfl
    refine ⟨fun j => ?_, ?_⟩
    · by_cases hj : j = k
      · subst hj
        simpa only [Node.Closed, Function.update_self, hkeep] using hnode j
      · simpa only [Function.update_of_ne hj] using hnode j
    · obtain ⟨-, -, x, e', -, rfl⟩ := next_eq hw
      refine .cons h.log fun v hv => ?_
      rw [show ev = .execute v from hv] at hev
      cases hev
  | write => exact h.update fun _ => id
  | receive ht => exact h.update (by rw [ht]; exact List.nil_subset _)
  | advance hn => exact h.update (Node.advance_steps hn).marks
  | @mark n id w hn hw =>
    obtain ⟨t, hlog⟩ := log_next hw
    have hsub : c.world.log ⊆ w.log := hlog ▸ List.subset_cons_self t _
    have hx : ∀ j v, w.Executed j v ↔ c.world.Executed j v ∨ (k = j ∧ v = id) := fun j v => by
      rw [executed_next hw]
      simp [Event.executes, eq_comm]
    have hsteps := Node.advance_steps hn
    have hcommitted : ∀ v ∈ (c.node k).task.marks, (c.world.replica k).HasCommitted v := fun v hv =>
      (ho.node k).map v ((hset.unspent k).known (Task.marks_subset hv))
    have hclosed : ∀ u ∈ (c.node k).task.marks, ∀ v, Requires c.world.log u v →
        c.world.Executed k v ∨ v ∈ (c.node k).task.marks := fun u hu v huv =>
      (ho.node k).task.marks_closed hu
        (depends_of_requires hr.grown.2 (hone.mono hsub) (hcommitted u hu) huv)
    have hseq : ∀ v ∈ (c.node k).task.marks,
        CommittedAt c.world.log v ((c.world.replica k).seqOf v) := fun v hv => by
      obtain ⟨i, hf, p, hp, -, hk, hs, rfl⟩ := (hcommitted v hv).exists_record hr.grown.2
      exact ⟨p, hp, hk, hs, by simp [Replica.seqOf, hf]⟩
    have hid : id ∈ (c.node k).task.marks := by
      cases hsteps with
      | mark ht =>
        rw [ht]
        exact List.mem_cons_self
    refine ⟨fun j => ?_, ?_⟩
    · by_cases hj : j = k
      · subst hj
        simp only [Function.update_self]
        refine ((h.node j).mark hclosed hsteps).congr (List.Subset.refl _) (fun u => ?_)
          fun u v hu huv => ?_
        · simp [hx]
        · rcases hu with hu | rfl
          · exact requires_next hr hsub hone hu huv
          · exact huv.of_committed hone hsub (hseq u hid)
      · simp only [Function.update_of_ne hj]
        have hxj : ∀ u, w.Executed j u ↔ c.world.Executed j u := fun u => by
          rw [hx]
          exact or_iff_left fun hu => hj hu.1.symm
        exact (h.node j).congr (List.Subset.refl _) hxj fun u v hu => requires_next hr hsub hone hu
    · obtain ⟨-, -, x, e, -, rfl⟩ := next_eq hw
      refine .cons h.log fun u hu => ?_
      obtain rfl : id = u := Event.execute.inj hu
      refine ⟨_, hseq id hid, fun v hv => ?_⟩
      refine ((h.node k).reach hclosed hid hv).imp_right fun hv => ⟨?_, _, ?_, hseq v hv⟩
      · exact ReflTransGen.mono (fun _ _ (hn : Needs c.world.log k _ _) => hn.requires) _ _
          ((ho.node k).task.marks_knotted v hv id hid)
      · cases hsteps with
        | mark ht => exact (ht ▸ (ho.node k).task).marks_least (by rwa [ht] at hv)

theorem ClusterRun.alike (h : ClusterRun (SealedUnmet T) T c) (hs : c.world.Small)
    (hone : OneValue c.world.log) : c.Alike := by
  induction h with
  | init => exact .init
  | @next c c' k a h hok hn ih =>
    have hstep := Cluster.next_step hn
    have hset : c.Settled := (h.imp fun _ _ _ => And.right).settled
    have hback : c.world.Small ∧ c.world.log ⊆ c'.world.log := by
      cases hstep with
      | replica _ _ _ hw | mark _ hw =>
        obtain ⟨t, ht⟩ := log_next hw
        exact ⟨.of_next hw hs, ht ▸ List.subset_cons_self t _⟩
      | write | receive | advance => exact ⟨hs, List.Subset.refl _⟩
    obtain ⟨hsm, hsub⟩ := hback
    exact (ih hsm (hone.mono hsub)).next (h.orderly hsm) h.run hset hone hstep

/-- Some replicas have committed the two with one seq. -/
def SameSeq (log : List Record) (u v : InstanceId) : Prop :=
  ∃ seq, CommittedAt log u seq ∧ CommittedAt log v seq

/-- Where what lies on the ways from `u` is committed, they are there already. -/
theorem path_older {log older : List Record} (ho : OneValue log) (hsub : older ⊆ log)
    (hc : ∀ v, ReflTransGen (Requires older) u v → ∃ seq, CommittedAt older v seq)
    (hp : ReflTransGen (Requires log) u v) : ReflTransGen (Requires older) u v := by
  induction hp with
  | refl => exact .refl
  | tail _ hx ih =>
    obtain ⟨seq, hs⟩ := hc _ ih
    exact ih.tail (hx.of_committed ho hsub hs)

/-- Where one instance leads to another, the other is executed first, or leads back to it and has no
smaller seq. -/
theorem Cluster.Alike.order (h : c.Alike) (hr : Run T c.world) (hone : OneValue c.world.log)
    {newer older : List Record} {t : Record} (hlog : c.world.log = newer ++ t :: older)
    (hx : t.event.executes u = true) (hp : ReflTransGen (Requires c.world.log) u v) :
    (∃ p ∈ older, p.who = t.who ∧ p.event.executes v = true)
      ∨ (ReflTransGen (Requires c.world.log) v u ∧ ∃ seq seq', seq ≤ seq'
        ∧ CommittedAt c.world.log u seq ∧ CommittedAt c.world.log v seq') := by
  have hu : t.event = .execute u := by
    cases hev : t.event with
    | execute x => rw [show x = u by simpa [hev, Event.executes] using hx]
    | propose | checkpoint | timeout | step =>
      rw [hev] at hx
      cases hx
  have hsub : older ⊆ c.world.log := fun p hp =>
    hlog ▸ List.mem_append_right newer (List.mem_cons_of_mem t hp)
  obtain ⟨seq, hseq, hall⟩ := (h.log.cut hlog).2 u hu
  have hback : ReflTransGen (Requires older) u v := path_older hone hsub (fun v hv => by
    rcases hall v hv with ⟨p, hpm, -, hpx⟩ | ⟨-, s, -, hs⟩
    · exact hr.committed_of_mem (by rw [hlog, ← List.singleton_append, ← List.append_assoc]) hpm hpx
    · exact ⟨s, hs⟩) hp
  rcases hall v hback with hv | ⟨hv, s, hle, hs⟩
  · exact .inl hv
  · refine .inr ⟨?_, seq, s, hle, hseq.mono hsub, hs.mono hsub⟩
    exact ReflTransGen.mono (fun _ _ => Requires.mono hsub) _ _ hv

/-- An instance is executed at a replica once. -/
theorem Cluster.Settled.unique (h : c.Settled) {newer older : List Record} {t p : Record}
    (hlog : c.world.log = newer ++ t :: older) (hx : t.event.executes u = true) (hp : p ∈ older)
    (hw : p.who = t.who) (hpx : p.event.executes u = true) : False := by
  have hle := h.once t.who u
  rw [World.executions, hlog, List.countP_append, List.countP_cons_of_pos (by simp [hx])] at hle
  have : 0 < older.countP fun q => q.who = t.who ∧ q.event.executes u = true :=
    List.countP_pos_iff.2 ⟨p, hp, by simp [hw, hpx]⟩
  omega

theorem ExecutedBefore.ne (hset : c.Settled) (h : ExecutedBefore c.world.log k u v) : u ≠ v := by
  rintro rfl
  obtain ⟨newer, t, older, hlog, rfl, htx, p, hp, hpw, hpx⟩ := h
  exact hset.unique hlog htx hp hpw hpx

/-- Of two instances executed one is first. -/
theorem executedBefore_or (hne : u ≠ v) (hu : c.world.Executed k u) (hv : c.world.Executed k v) :
    ExecutedBefore c.world.log k u v ∨ ExecutedBefore c.world.log k v u := by
  obtain ⟨p, hp, hpw, hpx⟩ := hu
  obtain ⟨q, hq, hqw, hqx⟩ := hv
  obtain ⟨newer, older, hlog⟩ := List.append_of_mem hp
  rw [hlog] at hq
  rcases List.mem_append.1 hq with hq | hq
  · obtain ⟨newer', between, rfl⟩ := List.append_of_mem hq
    refine .inl ⟨newer', q, between ++ p :: older, by rw [hlog, List.append_assoc]; rfl, hqw, hqx, p,
      List.mem_append_right _ List.mem_cons_self, hpw, hpx⟩
  · rcases List.mem_cons.1 hq with rfl | hq
    · refine absurd ?_ hne
      cases hev : q.event with
      | execute x =>
        rw [hev] at hpx hqx
        simp only [Event.executes, decide_eq_true_eq] at hpx hqx
        exact hpx.symm.trans hqx
      | propose | checkpoint | timeout | step =>
        rw [hev] at hpx
        cases hpx
    · exact .inr ⟨newer, p, older, hlog, hpw, hpx, q, hq, hqw, hqx⟩

/-- What leads to another instance and is executed first is led back to, and has no larger seq. -/
theorem Cluster.Alike.leads_back (h : c.Alike) (hr : Run T c.world) (hset : c.Settled)
    (hone : OneValue c.world.log) (hp : ReflTransGen (Requires c.world.log) u v)
    (hb : ExecutedBefore c.world.log k u v) :
    ReflTransGen (Requires c.world.log) v u ∧ ∃ seq seq', seq ≤ seq'
      ∧ CommittedAt c.world.log u seq ∧ CommittedAt c.world.log v seq' := by
  obtain ⟨newer, t, older, hlog, rfl, htx, p, hpm, hpw, hpx⟩ := hb
  obtain ⟨between, older', rfl⟩ := List.append_of_mem hpm
  have hlog' : c.world.log = (newer ++ t :: between) ++ p :: older' := by
    rw [hlog, List.append_assoc, List.cons_append]
  refine (h.order hr hone hlog' hpx hp).resolve_left ?_
  rintro ⟨q, hq, hqw, hqx⟩
  have hq : q ∈ between ++ p :: older' := List.mem_append_right _ (List.mem_cons_of_mem p hq)
  exact hset.unique hlog htx hq (hqw.trans hpw) hqx

/-- In every run of the nodes whose commits agree, two executors execute two instances, of which one
leads to the other, in the same order, unless each leads to the other and they have the same seq. -/
theorem executed_alike (h : ClusterRun (SealedUnmet T) T c) (hs : c.world.Small)
    (hc : Grown (fun older t => t.Concordant T older) c.world.log)
    (hp : ReflTransGen (Requires c.world.log) u v ∨ ReflTransGen (Requires c.world.log) v u)
    (hne : ReflTransGen (Requires c.world.log) u v → ReflTransGen (Requires c.world.log) v u →
      ¬ SameSeq c.world.log u v)
    (hu : c.world.Executed k u) (hv : c.world.Executed k v)
    (hb : ExecutedBefore c.world.log j u v) : ExecutedBefore c.world.log k u v := by
  have hone := h.run.oneValue hc
  have ha := h.alike hs hone
  have hset : c.Settled := (h.imp fun _ _ _ => And.right).settled
  refine (executedBefore_or (hb.ne hset) hu hv).resolve_right fun hb' => ?_
  obtain ⟨huv, hvu⟩ : ReflTransGen (Requires c.world.log) u v
      ∧ ReflTransGen (Requires c.world.log) v u := by
    rcases hp with hp | hp
    · exact ⟨hp, (ha.leads_back h.run hset hone hp hb).1⟩
    · exact ⟨(ha.leads_back h.run hset hone hp hb').1, hp⟩
  obtain ⟨-, s, s', hle, hs, hs'⟩ := ha.leads_back h.run hset hone huv hb
  obtain ⟨-, r, r', hle', hr, hr'⟩ := ha.leads_back h.run hset hone hvu hb'
  obtain rfl := hs.unique hone hr'
  obtain rfl := hs'.unique hone hr
  exact hne huv hvu ⟨s, hs, Nat.le_antisymm hle hle' ▸ hs'⟩

end Executions

/-- Two writes of one span, executed at replica 1 and then at replica 0. -/
def executedAtBoth : List Turn :=
  bothExecuted ++ receiveAt 0 :: advanceAt 0 20 ++ receiveAt 0 :: advanceAt 0 19

theorem executed_alike_both : ∃ c, ClusterRun (SealedUnmet listTree) listTree c
    ∧ ExecutedBefore c.world.log 0 ⟨0, 1⟩ ⟨0, 2⟩ ∧ ExecutedBefore c.world.log 1 ⟨0, 1⟩ ⟨0, 2⟩ := by
  obtain ⟨c, hc, hcon, ⟨t, ht, hw, hx, p, hp, hpw, hpx⟩, hlen, hu, hv, ⟨q, hq, hk, hs, hd⟩, hseq⟩ :=
    exists_clusterRun (SealedUnmet listTree) executedAtBoth
      (p := fun c => Grown (fun older t => t.Concordant listTree older) c.world.log
        ∧ (∃ t ∈ c.world.log.head?, t.who = 0 ∧ t.event.executes ⟨0, 2⟩ = true
          ∧ ∃ p ∈ c.world.log.tail, p.who = 0 ∧ p.event.executes ⟨0, 1⟩ = true)
        ∧ c.world.log.length < 2 ^ 48 ∧ c.world.Executed 1 ⟨0, 1⟩ ∧ c.world.Executed 1 ⟨0, 2⟩
        ∧ (∃ q ∈ c.world.log, q.after.key = ⟨0, 2⟩ ∧ q.after.status = .committed
          ∧ q.after.deps.Has ⟨0, 1⟩)
        ∧ ∀ q ∈ c.world.log, ∀ r ∈ c.world.log, q.after.key = ⟨0, 1⟩ → r.after.key = ⟨0, 2⟩ →
          q.after.seq ≠ r.after.seq) (by decide +kernel)
  have hsm : c.world.Small := fun k => List.countP_le_length.trans_lt hlen
  have hlog : c.world.log = [] ++ t :: c.world.log.tail := (List.cons_head?_tail ht).symm
  have hb : ExecutedBefore c.world.log 0 ⟨0, 1⟩ ⟨0, 2⟩ := ⟨[], t, _, hlog, hw, hx, p, hp, hpw, hpx⟩
  refine ⟨c, hc, hb, executed_alike hc hsm hcon (.inr (.single ⟨q, hq, hk, hs, hd⟩)) ?_ hu hv hb⟩
  rintro - - ⟨s, ⟨q, hq, hqk, -, rfl⟩, ⟨r, hr, hrk, -, he⟩⟩
  exact hseq q hq r hr hqk hrk he.symm

end Epx
