import Epx.Proofs.Clearing
import Epx.Proofs.Known
import Epx.Proofs.Seen

/-!
# Dependencies first

A pass of the executor is made while the replica goes on committing, and it ends where a dependency
is not executed. What it has found so far stays true: a committed instance keeps its dependencies,
and what has been executed has been. So an instance is executed after all that it depends on, except
for the rest of its cycle, of which it has the smallest seq.
-/

namespace Epx

open Log Relation

/-- Replica `k` has committed `u` with a dependency on `v`. -/
def Needs (log : List Record) (k : ℕ) (u v : InstanceId) : Prop :=
  ∃ t ∈ log, t.who = k ∧ t.after.key = u ∧ t.after.status = .committed ∧ t.after.deps.Has v

/-- An instance executed is committed. Each of its dependencies has been executed before, or needs the
instance in turn and is committed with no smaller seq. -/
def Record.InOrder (older : List Record) (t : Record) : Prop :=
  ∀ v, t.event = .execute v → t.before.status = .committed ∧ ∀ d, t.before.deps.Has d →
    (∃ p ∈ older, p.who = t.who ∧ p.event.executes d = true)
      ∨ (ReflTransGen (Needs older t.who) d v ∧ ∃ p ∈ older, p.who = t.who ∧ p.after.key = d
        ∧ p.after.status = .committed ∧ t.before.seq ≤ p.after.seq)

/-- The ids that the replicas have assigned fit in a `dh_key`. -/
def World.Small (w : World) : Prop := ∀ k, w.assigned k < 2 ^ 48

/-- The instance is registered and committed. -/
def Replica.HasCommitted (r : Replica) (v : InstanceId) : Prop :=
  ∃ i, r.find v = some i ∧ i.status = .committed

/-- The two replicas have the instance with the same seq and deps. -/
def Replica.Reads (r r' : Replica) (v : InstanceId) : Prop :=
  (r'.find v).map (fun i => (i.seq, i.deps)) = (r.find v).map fun i => (i.seq, i.deps)

/-- The members need each other. -/
def Knotted (needs : InstanceId → InstanceId → Prop) (c : List InstanceId) : Prop :=
  ∀ u ∈ c, ∀ v ∈ c, ReflTransGen needs u v

/-- What the executor has found so far in a pass over the instances of `ids`. -/
def Task.Orderly (done : InstanceId → Prop) (needs : InstanceId → InstanceId → Prop) (r : Replica)
    (ids : List InstanceId) : Task → Prop
  | .waiting => True
  | .linking todo deps =>
    ∀ v ∈ ids, deps v ++ (todo.filter fun s => s.1 = v).filterMap r.slot = r.depsOf v
  | .checking comp todo comps =>
    (∀ c ∈ comp :: comps, Knotted needs c) ∧ ∀ v ∈ comp, ∀ n d, r.slot (v, n) = some d →
      (v, n) ∈ todo ∨ d.Empty ∨ d.id ∈ comp ∨ done d.id
  | .marking todo comps =>
    (∀ c ∈ todo :: comps, Knotted needs c) ∧ (todo.Pairwise fun u v => r.seqOf u ≤ r.seqOf v)
      ∧ ∀ v ∈ todo, ∀ d, r.Depends v d → d ∈ todo ∨ done d

section Keys

theorem dhKey_eq {id : InstanceId} (hi : id.instanceId < 2 ^ 48) (hr : id.replicaId < N) :
    dhKey id = id.instanceId * 2 ^ 16 + id.replicaId := by
  have hr : id.replicaId < 2 ^ 16 := hr.trans (by decide)
  have hu : u64 (id.instanceId <<< 16) = id.instanceId <<< 16 := by
    rw [Nat.shiftLeft_eq]
    exact Nat.mod_eq_of_lt (by omega)
  rw [dhKey, hu, ← Nat.shiftLeft_add_eq_or_of_lt hr, Nat.shiftLeft_eq]

/-- Small ids have different keys. -/
theorem dhKey_injective {a b : InstanceId} (ha : a.instanceId < 2 ^ 48) (hra : a.replicaId < N)
    (hb : b.instanceId < 2 ^ 48) (hrb : b.replicaId < N) (h : dhKey a = dhKey b) : a = b := by
  rw [dhKey_eq ha hra, dhKey_eq hb hrb] at h
  have hra : a.replicaId < 2 ^ 16 := hra.trans (by decide)
  have hrb : b.replicaId < 2 ^ 16 := hrb.trans (by decide)
  obtain ⟨ra, ia⟩ := a
  obtain ⟨rb, ib⟩ := b
  simp only at h hra hrb
  obtain ⟨rfl, rfl⟩ : ia = ib ∧ ra = rb := by omega
  rfl

end Keys

section Reads

variable {r r' : Replica} {v : InstanceId}

theorem Replica.Reads.rfl : r.Reads r v := Eq.refl _

theorem Replica.Reads.of_find (h : r'.find v = r.find v) : r.Reads r' v := by
  rw [Replica.Reads, h]

theorem Replica.Reads.of_eq {i i' : Instance} (hf : r.find v = some i) (hf' : r'.find v = some i')
    (hs : i'.seq = i.seq) (hd : i'.deps = i.deps) : r.Reads r' v := by
  rw [Replica.Reads, hf, hf', Option.map_some, Option.map_some, hs, hd]

theorem Replica.Reads.depsOf (h : r.Reads r' v) : r'.depsOf v = r.depsOf v := by
  have := congrArg (Option.map fun p : ℕ × Deps => p.2.slots) h
  simp only [Option.map_map, Function.comp_def] at this
  unfold Replica.depsOf
  rw [this]

theorem Replica.Reads.seqOf (h : r.Reads r' v) : r'.seqOf v = r.seqOf v := by
  have := congrArg (Option.map fun p : ℕ × Deps => p.1) h
  simp only [Option.map_map, Function.comp_def] at this
  have hs : ∀ r : Replica, (r.find v).map Instance.seq = (r.find v).map fun i => i.seq :=
    fun _ => Eq.refl _
  unfold Replica.seqOf
  rw [hs, hs, this]

theorem Replica.Reads.slot (h : r.Reads r' v) (n : ℕ) : r'.slot (v, n) = r.slot (v, n) := by
  have := congrArg (fun o : Option (ℕ × Deps) => o.bind fun p => p.2.slots[n]?) h
  simp only [Option.bind_map, Function.comp_def] at this
  exact this

theorem Replica.Reads.depends (h : r.Reads r' v) {d : InstanceId} :
    r'.Depends v d ↔ r.Depends v d := by
  unfold Replica.Depends
  rw [h.depsOf]

/-- The array, slot by slot. -/
theorem slot_of_mem {d : Dependency} (h : d ∈ r.depsOf v) : ∃ n, r.slot (v, n) = some d := by
  unfold Replica.depsOf at h
  cases hf : r.find v with
  | none => simp [hf] at h
  | some i =>
    rw [hf] at h
    obtain ⟨n, hn, he⟩ := List.mem_iff_getElem.1 h
    refine ⟨n, ?_⟩
    rw [Replica.slot, hf]
    exact List.getElem?_eq_some_iff.2 ⟨hn, he⟩

theorem mem_of_slot {n : ℕ} {d : Dependency} (h : r.slot (v, n) = some d) : d ∈ r.depsOf v := by
  obtain ⟨i, hf, hd⟩ := Option.bind_eq_some_iff.1 h
  unfold Replica.depsOf
  rw [show r.find v = some i from hf]
  exact List.mem_of_getElem? hd

theorem depends_iff {i : Instance} (hf : r.find v = some i) {d : InstanceId} :
    r.Depends v d ↔ i.deps.Has d := by
  unfold Replica.Depends Replica.depsOf
  rw [hf, Option.map_some, Option.getD_some]
  constructor
  · rintro ⟨x, hx, he, rfl⟩
    exact ⟨x, List.mem_filter.2 ⟨hx, by simpa using he⟩, Eq.refl _⟩
  · rintro ⟨x, hx, rfl⟩
    obtain ⟨hx, he⟩ := List.mem_filter.1 hx
    exact ⟨x, hx, by simpa using he, Eq.refl _⟩

theorem slot_lt {n : ℕ} {d : Dependency} (h : r.slot (v, n) = some d) : n < maxDeps := by
  obtain ⟨i, -, hd⟩ := Option.bind_eq_some_iff.1 h
  obtain ⟨hn, -⟩ := List.getElem?_eq_some_iff.1 hd
  rwa [i.deps.size] at hn

theorem mem_slotsOf {ids : List InstanceId} {n : ℕ} (hv : v ∈ ids) (hn : n < maxDeps) :
    (v, n) ∈ slotsOf ids :=
  List.mem_flatMap.2 ⟨v, hv, List.mem_map.2 ⟨n, List.mem_range.2 hn, Eq.refl _⟩⟩

theorem filter_slotsOf_of_notMem {ids : List InstanceId} (hv : v ∉ ids) :
    (slotsOf ids).filter (fun s => s.1 = v) = [] := by
  refine List.filter_eq_nil_iff.2 fun s hs he => hv ?_
  obtain ⟨u, hu, hs⟩ := List.mem_flatMap.1 hs
  obtain ⟨n, -, rfl⟩ := List.mem_map.1 hs
  obtain rfl : u = v := by simpa using he
  exact hu

theorem filter_slotsOf {ids : List InstanceId} (hn : ids.Nodup) (hv : v ∈ ids) :
    (slotsOf ids).filter (fun s => s.1 = v) = (List.range maxDeps).map fun n => (v, n) := by
  induction ids with
  | nil => exact absurd hv List.not_mem_nil
  | cons u ids ih =>
    obtain ⟨hu, hn⟩ := List.nodup_cons.1 hn
    have hcons : slotsOf (u :: ids) = ((List.range maxDeps).map fun n => (u, n)) ++ slotsOf ids :=
      List.flatMap_cons
    rw [hcons, List.filter_append]
    rcases List.mem_cons.1 hv with rfl | hv
    · rw [filter_slotsOf_of_notMem hu, List.append_nil]
      exact List.filter_eq_self.2 fun s hs => by
        obtain ⟨n, -, rfl⟩ := List.mem_map.1 hs
        simp
    · have hne : u ≠ v := fun he => hu (he ▸ hv)
      rw [ih hn hv, List.filter_eq_nil_iff.2 fun s hs he => ?_, List.nil_append]
      obtain ⟨n, -, rfl⟩ := List.mem_map.1 hs
      exact hne (by simpa using he)

theorem filterMap_getElem? {α : Type} (l : List α) :
    (List.range l.length).filterMap (fun n => l[n]?) = l := by
  induction l with
  | nil => simp
  | cons x l ih =>
    rw [List.length_cons, List.range_succ_eq_map, List.filterMap_cons]
    simp only [List.getElem?_cons_zero, List.filterMap_map]
    exact congrArg (x :: ·) ih

/-- The slots of an instance, in the order of the loops. -/
theorem slots_depsOf {ids : List InstanceId} (hn : ids.Nodup) (hv : v ∈ ids) :
    ((slotsOf ids).filter fun s => s.1 = v).filterMap r.slot = r.depsOf v := by
  rw [filter_slotsOf hn hv, List.filterMap_map]
  unfold Replica.depsOf
  cases hf : r.find v with
  | none => simp [Function.comp_def, Replica.slot, hf]
  | some i =>
    simp only [Function.comp_def, Replica.slot, hf, Option.bind_some, Option.map_some,
      Option.getD_some]
    rw [← i.deps.size]
    exact filterMap_getElem? i.deps.slots

end Reads

section Task

variable {done done' : InstanceId → Prop} {needs needs' : InstanceId → InstanceId → Prop}
  {r r' : Replica} {ids : List InstanceId} {n n' : Node} {id : InstanceId}

theorem Knotted.mono {c : List InstanceId} (h : Knotted needs c)
    (hn : ∀ u v, needs u v → needs' u v) : Knotted needs' c :=
  fun u hu v hv => ReflTransGen.mono hn _ _ (h u hu v hv)

theorem Task.Orderly.mono {t : Task} (h : t.Orderly done needs r ids) (hk : t.pending ⊆ ids)
    (hd : ∀ v, done v → done' v) (hn : ∀ u v, needs u v → needs' u v)
    (hr : ∀ v ∈ ids, r.Reads r' v) : t.Orderly done' needs' r' ids := by
  cases t with
  | waiting => trivial
  | linking todo deps =>
    intro v hv
    rw [(hr v hv).depsOf, ← h v hv]
    refine congrArg (deps v ++ ·) (List.filterMap_congr fun s hs => ?_)
    obtain ⟨u, n⟩ := s
    obtain rfl : u = v := by simpa using (List.mem_filter.1 hs).2
    exact (hr u hv).slot n
  | checking comp todo comps =>
    refine ⟨fun c hc => (h.1 c hc).mono hn, fun v hv n d hs => ?_⟩
    have hvi : v ∈ ids := hk (List.mem_append_left _ hv)
    rw [(hr v hvi).slot] at hs
    exact (h.2 v hv n d hs).imp_right (Or.imp_right (Or.imp_right (hd _)))
  | marking todo comps =>
    have hti : ∀ v ∈ todo, v ∈ ids := fun v hv => hk (List.mem_append_left _ hv)
    refine ⟨fun c hc => (h.1 c hc).mono hn, ?_, fun v hv d hvd => ?_⟩
    · refine h.2.1.imp_of_mem fun {u v} hu hv huv => ?_
      rwa [(hr u (hti u hu)).seqOf, (hr v (hti v hv)).seqOf]
    · exact (h.2.2 v hv d ((hr v (hti v hv)).depends.1 hvd)).imp_right (hd d)

/-- The next component: none of its slots has been read. -/
theorem orderly_next {comps : List (List InstanceId)} (h : ∀ c ∈ comps, Knotted needs c) :
    (Task.next comps).Orderly done needs r ids := by
  cases comps with
  | nil => trivial
  | cons comp comps => exact ⟨h, fun v hv n d hs => .inl (mem_slotsOf hv (slot_lt hs))⟩

/-- What the replica's instances say is so: an executed one has been executed, a committed one needs
its dependencies, and `dh_key` tells these from the other committed ones. -/
structure Truthful (done : InstanceId → Prop) (needs : InstanceId → InstanceId → Prop)
    (r : Replica) : Prop where
  done : ∀ v, r.hasExecuted v = true → done v
  needs : ∀ u v, r.HasCommitted u → r.Depends u v → needs u v
  apart : ∀ u v w, r.HasCommitted u → r.Depends u v → r.HasCommitted w → dhKey v = dhKey w → v = w

theorem Truthful.of_find (h : Truthful done needs r) (hf : ∀ id, r'.find id = r.find id) :
    Truthful done needs r' where
  done v hv := h.done v (by rwa [Replica.hasExecuted, hf] at hv)
  needs u v hu hd := h.needs u v (by rwa [Replica.HasCommitted, hf] at hu)
    ((Replica.Reads.of_find (hf u)).depends.1 hd)
  apart u v w hu hd hw := h.apart u v w (by rwa [Replica.HasCommitted, hf] at hu)
    ((Replica.Reads.of_find (hf u)).depends.1 hd) (by rwa [Replica.HasCommitted, hf] at hw)

/-- What the threads of a node hold is committed, or for an entry of the channel executed. -/
structure Node.Orderly (n : Node) (done : InstanceId → Prop)
    (needs : InstanceId → InstanceId → Prop) (r : Replica) : Prop where
  chan : ∀ id ∈ n.chan, done id ∨ r.HasCommitted id
  map : ∀ v ∈ n.vertices.ids, r.HasCommitted v
  task : n.task.Orderly done needs r n.vertices.ids

theorem Node.Orderly.mono (h : n.Orderly done needs r) (hu : n.Unspent done')
    (hd : ∀ v, done v → done' v) (hn : ∀ u v, needs u v → needs' u v)
    (hr : ∀ v, r.HasCommitted v → done' v ∨ (r'.HasCommitted v ∧ r.Reads r' v)) :
    n.Orderly done' needs' r' where
  chan id hid := (h.chan id hid).elim (fun hx => .inl (hd id hx)) fun hc =>
    (hr id hc).imp_right And.left
  map v hv := ((hr v (h.map v hv)).resolve_left (hu.map v hv)).1
  task := h.task.mono hu.known hd hn fun v hv =>
    ((hr v (h.map v hv)).resolve_left (hu.map v hv)).2

/-- On the way from one member of a component to another are only members. -/
theorem Components.within {vs : Vertices} {deps : InstanceId → List Dependency}
    {cs : List (List InstanceId)} {c : List InstanceId} {u v : InstanceId}
    (hc : Components vs deps cs) (hcs : c ∈ cs) (hu : u ∈ c) (hv : v ∈ c) :
    ReflTransGen (fun a b => a ∈ c ∧ b ∈ c ∧ vs.Edge deps a b) u v := by
  have hl := ((hc.strong c hcs u hu v).1 hv).1
  induction hl with
  | refl => exact .refl
  | @tail a b hl he ih =>
    have hbu : vs.Linked deps b u := ((hc.strong c hcs u hu b).1 hv).2
    have ha : a ∈ c := (hc.strong c hcs u hu a).2 ⟨hl, .head he hbu⟩
    exact (ih ha).tail ⟨ha, hv, he⟩

/-- Where the arrays are those of the instances, the edges are the dependencies. -/
theorem Truthful.edge_iff {vs : Vertices} {deps : InstanceId → List Dependency} {u v : InstanceId}
    (ha : Truthful done needs r) (hm : ∀ v ∈ vs.ids, r.HasCommitted v)
    (hd : ∀ v ∈ vs.ids, deps v = r.depsOf v) (hu : u ∈ vs.ids) :
    vs.Edge deps u v ↔ v ∈ vs.ids ∧ r.Depends u v := by
  refine and_congr_right fun hv => ?_
  constructor
  · rintro ⟨d, hdu, he, hk⟩
    rw [hd u hu] at hdu
    exact ⟨d, hdu, he, ha.apart u d.id v (hm u hu) ⟨d, hdu, he, rfl⟩ (hm v hv) hk⟩
  · rintro ⟨d, hdu, he, hid⟩
    exact ⟨d, (hd u hu).symm ▸ hdu, he, by rw [hid]⟩

/-- The components that `strong_connect` finds in arrays that are those of the instances. -/
theorem knotted_of_strongConnect {vs : Vertices} {deps : InstanceId → List Dependency}
    {s : Tarjan.Search InstanceId} (ha : Truthful done needs r)
    (hm : ∀ v ∈ vs.ids, r.HasCommitted v) (hd : ∀ v ∈ vs.ids, deps v = r.depsOf v)
    (hs : strongConnect vs deps = some s) : ∀ c ∈ s.sccs, Knotted needs c := by
  have hc := components_of_strongConnect hs
  intro c hcs u hu v hv
  refine ReflTransGen.mono (fun a b hab => ?_) _ _ (hc.within hcs hu hv)
  have hai : a ∈ vs.ids := hc.mem hcs hab.1
  exact ha.needs a b (hm a hai) ((ha.edge_iff hm hd hai).1 hab.2.2).2

/-- What `execute_scc` finds when it lets a dependency pass. -/
theorem ready_of_depReady {vs : Vertices} {comp : List InstanceId} {v : InstanceId}
    {d : Dependency} (ha : Truthful done needs r) (hm : ∀ v ∈ comp, r.HasCommitted v) (hv : v ∈ comp)
    (hd : d ∈ r.depsOf v) (h : depReady r vs comp d = some true) :
    d.Empty ∨ d.id ∈ comp ∨ done d.id := by
  unfold depReady at h
  split_ifs at h with he hg
  · exact .inl he
  · obtain ⟨w, hw, hwc⟩ := (Option.any_eq_true _ _).1 hg
    have hwc : w ∈ comp := by simpa using hwc
    have hk := (Vertices.get_eq_some.1 hw).2
    have hid : d.id = w := ha.apart v d.id w (hm v hv) ⟨d, hd, he, rfl⟩ (hm w hwc) hk.symm
    exact .inr (.inl (hid ▸ hwc))
  · exact .inr (.inr (ha.done d.id (Option.some.inj h)))

theorem Node.Orderly.advance (h : n.Orderly done needs r) (hu : n.Unspent done)
    (ha : Truthful done needs r) (hs : n.Steps r n' none) : n'.Orderly done needs r := by
  have htask := h.task
  have hknown := hu.known
  refine ⟨?_, ?_, ?_⟩
  · cases hs <;> exact h.chan
  · cases hs <;> exact h.map
  cases hs with
  | @link s todo deps d ht hd =>
    rw [ht] at htask
    intro v hv
    have hold := htask v hv
    rw [List.filter_cons] at hold
    by_cases hsv : s.1 = v
    · subst hsv
      rw [if_pos (by simp), List.filterMap_cons, hd] at hold
      rw [Function.update_self, List.append_assoc]
      exact hold
    · rw [if_neg (by simpa using hsv)] at hold
      rwa [Function.update_of_ne (Ne.symm hsv)]
  | connect ht hs =>
    rw [ht] at htask
    exact orderly_next (knotted_of_strongConnect ha h.map
      (fun v hv => by simpa using htask v hv) hs)
  | @check comp s todo comps d ready ht hd hr =>
    rw [ht] at htask hknown
    cases ready with
    | false => exact orderly_next fun c hc => htask.1 c (List.mem_cons_of_mem comp hc)
    | true =>
      have hm : ∀ v ∈ comp, r.HasCommitted v := fun v hv =>
        h.map v (hknown (List.mem_append_left _ hv))
      refine ⟨htask.1, fun v hv i d' hs' => ?_⟩
      rcases htask.2 v hv i d' hs' with hmem | hrest
      · rcases List.mem_cons.1 hmem with rfl | hmem
        · obtain rfl : d' = d := Option.some.inj (hs'.symm.trans hd)
          exact .inr (ready_of_depReady ha hm hv (mem_of_slot hd) hr)
        · exact .inl hmem
      · exact .inr hrest
  | @sort comp comps ht =>
    rw [ht] at htask
    have hp := sortScc_perm r.seqOf comp
    refine ⟨List.forall_mem_cons.2 ⟨fun u hu v hv => ?_, fun c hc => ?_⟩,
      sortScc_sorted r.seqOf comp, fun v hv d hvd => ?_⟩
    · exact htask.1 comp List.mem_cons_self u (hp.subset hu) v (hp.subset hv)
    · exact htask.1 c (List.mem_cons_of_mem comp hc)
    · obtain ⟨x, hx, he, rfl⟩ := hvd
      obtain ⟨i, hi⟩ := slot_of_mem hx
      rcases htask.2 v (hp.subset hv) i x hi with hmem | hemp | hc | hx
      · exact absurd hmem List.not_mem_nil
      · exact absurd hemp he
      · exact .inl (hp.symm.subset hc)
      · exact .inr hx
  | @finish comps ht =>
    rw [ht] at htask
    exact orderly_next fun c hc => htask.1 c (List.mem_cons_of_mem [] hc)

/-- The instance that is executed next. -/
theorem Node.Orderly.mark (h : n.Orderly done needs r) (hu : n.Unspent done)
    (hs : n.Steps r n' (some id)) : n'.Orderly (fun v => done v ∨ v = id) needs r
      ∧ r.HasCommitted id ∧ ∀ d, r.Depends id d → done d
        ∨ (ReflTransGen needs d id ∧ r.HasCommitted d ∧ r.seqOf id ≤ r.seqOf d) := by
  have htask := h.task
  have hknown := hu.known
  cases hs with
  | @mark _ todo comps ht =>
    rw [ht] at htask hknown
    obtain ⟨hknot, hsorted, hdeps⟩ := htask
    obtain ⟨hid, hknot⟩ := List.forall_mem_cons.1 hknot
    have hin : ∀ v ∈ id :: todo, r.HasCommitted v := fun v hv =>
      h.map v (hknown (List.mem_append_left _ hv))
    obtain ⟨hle, hsorted⟩ := List.pairwise_cons.1 hsorted
    refine ⟨⟨fun v hv => (h.chan v hv).imp_left .inl,
        fun v hv => h.map v (List.mem_of_mem_filter hv),
        List.forall_mem_cons.2 ⟨fun u hu v hv => hid u (List.mem_cons_of_mem id hu) v
          (List.mem_cons_of_mem id hv), hknot⟩, hsorted, fun v hv d hvd => ?_⟩,
      hin id List.mem_cons_self, fun d hd => ?_⟩
    · rcases hdeps v (List.mem_cons_of_mem id hv) d hvd with hd | hd
      · exact (List.mem_cons.1 hd).elim (fun he => .inr (.inr he)) .inl
      · exact .inr (.inl hd)
    · refine (hdeps id List.mem_cons_self d hd).symm.imp_right fun hdt => ?_
      refine ⟨hid d hdt id List.mem_cons_self, hin d hdt, ?_⟩
      rcases List.mem_cons.1 hdt with rfl | hdt
      · exact le_rfl
      · exact hle d hdt

theorem Node.Orderly.receive {chan : List InstanceId} {vs : Vertices} (h : n.Orderly done needs r)
    (hc : n.chan = id :: chan) (hid : ¬ done id)
    (hvs : vs.ids.Perm (n.vertices.addNode id).1.ids) :
    (n.receive chan id vs).Orderly done needs r where
  chan v hv := h.chan v (hc ▸ List.mem_cons_of_mem id hv)
  map v hv := by
    rcases Vertices.mem_of_addNode (hvs.subset hv) with rfl | hv
    · exact (h.chan v (hc ▸ List.mem_cons_self)).resolve_left hid
    · exact h.map v hv
  task := by
    unfold Node.receive
    dsimp only
    split_ifs with hnew
    · intro v hv
      exact slots_depsOf vs.distinct.of_map hv
    · trivial

end Task

section Runs

variable {T : RangeTree} {w w' : World} {k j : ℕ} {ev : Event} {v : InstanceId}

/-- A copy that is executed is one that the replica's executor has executed. -/
theorem executed_of_status {log : List Record} (hg : Grown (Happens T) log) :
    ∀ k id i, Last log k id i → i.status = .executed →
      ∃ t ∈ log, t.who = k ∧ t.event.executes i.key = true := by
  refine (run_rule (T := T) (C := fun _ _ => True)
    (I := fun log k i => i.status = .executed →
      ∃ t ∈ log, t.who = k ∧ t.event.executes i.key = true)
    (M := fun _ _ => True)
    (fun _ hi _ hs => ?_) (fun _ => trivial) (fun _ _ _ _ hb hs => ?_)
    (fun {older k ev r i i' io} _ ht _ _ _ hi ha => ⟨fun hs => ?_, fun _ _ => trivial⟩)
    (hg.imp fun _ _ ht => ⟨ht, trivial⟩)).1
  · obtain ⟨t, ht, hx⟩ := hi hs
    exact ⟨t, List.mem_cons_of_mem _ ht, hx⟩
  · rcases hb with hb | hb <;> rw [hb] at hs <;> cases hs
  · rw [ha.key]
    rcases ha.executed hs with hs | ⟨id, -, rfl⟩
    · obtain ⟨t, ht', hx⟩ := hi hs
      exact ⟨t, List.mem_cons_of_mem _ ht', hx⟩
    · have hk : i.key = id := (ht.found id i ht.located).key
      exact ⟨_, List.mem_cons_self, rfl, by simp [Event.executes, hk]⟩

theorem Replica.HasCommitted.exists_record (h : (w.replica k).HasCommitted v) (hw : w.Indexed) :
    ∃ i, (w.replica k).find v = some i ∧ ∃ t ∈ w.log, t.who = k ∧ t.after.key = v
      ∧ t.after.status = .committed ∧ t.after = i := by
  obtain ⟨i, hf, hs⟩ := h
  obtain ⟨t, ht, hwho, hk, rfl⟩ := (hw.last k v i hf).exists_mem
  exact ⟨t.after, hf, t, ht, hwho, hk, hs, rfl⟩

/-- An id assigned is small. -/
theorem Issued.small (hr : Run T w) (hs : w.Small) {id : InstanceId} (h : Issued w.log id) :
    id.instanceId < 2 ^ 48 ∧ id.replicaId < N := by
  obtain ⟨o, ho, hop, rfl, hwho⟩ := h
  obtain ⟨hg, -⟩ := hr.grown
  obtain ⟨_, _, -, -, hh⟩ := hg.of_mem ho
  exact ⟨(assigned_le hg o.who o ho rfl hop).trans_lt (hs o.who), hwho ▸ hh.who_lt⟩

theorem Replica.HasCommitted.issued (h : (w.replica k).HasCommitted v) (hr : Run T w) :
    Issued w.log v := by
  obtain ⟨hg, hw⟩ := hr.grown
  obtain ⟨i, -, t, ht, -, rfl, -⟩ := h.exists_record hw
  obtain ⟨o, ho, hop, hok, how⟩ := exists_assigns hg ht
  exact ⟨o, ho, hop, hok, how⟩

/-- What a committed instance depends on it needs, and it has been proposed. -/
theorem Replica.HasCommitted.depends {d : InstanceId} (hv : (w.replica k).HasCommitted v)
    (hr : Run T w) (hd : (w.replica k).Depends v d) : Needs w.log k v d ∧ Issued w.log d := by
  obtain ⟨hg, hw⟩ := hr.grown
  obtain ⟨i, hf, t, ht, hwho, hk, hst, rfl⟩ := hv.exists_record hw
  have hhas := (depends_iff hf).1 hd
  exact ⟨⟨t, ht, hwho, hk, hst, hhas⟩,
    (((grown_names hg).1 k v _ (hw.last k v _ hf)).1 d hhas).2⟩

theorem Run.answers (hr : Run T w) (hs : w.Small) (k : ℕ) :
    Truthful (w.Executed k) (Needs w.log k) (w.replica k) := by
  obtain ⟨hg, hw⟩ := hr.grown
  refine ⟨fun v hv => ?_, fun u v hu hd => (hu.depends hr hd).1, fun u v x hu hd hx he => ?_⟩
  · obtain ⟨i, hf, hst⟩ := (Option.any_eq_true _ _).1 hv
    have hl := hw.last k v i hf
    have := executed_of_status hg k v i hl (by simpa [isState_iff] using hst)
    rwa [hl.key] at this
  · obtain ⟨hv, hvN⟩ := (hu.depends hr hd).2.small hr hs
    obtain ⟨hx, hxN⟩ := (hx.issued hr).small hr hs
    exact dhKey_injective hv hvN hx hxN he

/-- A committed instance keeps its seq and its dependencies until it is executed. -/
theorem committed_next (hr : Run T w) (hn : w.next T k ev = some w')
    (hs : ev.Sealed T (w.replica k)) (hc : (w.replica j).HasCommitted v) :
    w'.Executed j v ∨ ((w'.replica j).HasCommitted v ∧ (w.replica j).Reads (w'.replica j) v) := by
  by_cases hx : k = j ∧ ev.executes v = true
  · exact .inl ((executed_next hn j v).2 (.inr hx))
  right
  have hg' := (Run.next hr hn).grown.1
  have hg := hr.grown.1
  obtain ⟨-, -, x, e, -, rfl⟩ := next_eq hn
  have ht := hg'.head
  by_cases hj : j = k
  · subst hj
    simp only [Function.update_self]
    obtain ⟨i, hf, hi⟩ := hc
    by_cases hv : v = e.inst.key
    · have hv : v = x.key := hv.trans ht.key
      subst hv
      obtain rfl : x = i := ht.before_eq hf
      have hxe : ev.executes x.key = false := by simpa using hx
      have hk : e.inst.Holds { zeroMessage with seq := x.seq, deps := x.deps } :=
        ht.keeps hg hs hxe ⟨hi, rfl, rfl⟩
      have hf' := find_apply_of_ne hk.ne_executed (.inl ⟨ht.key.symm, rfl⟩ :
        (x.key = e.inst.key ∧ e.inst = e.inst) ∨ (x.key ≠ e.inst.key ∧ (w.replica j).find x.key = _))
      exact ⟨⟨_, hf', hk.status⟩, .of_eq hf hf' hk.seq hk.deps⟩
    · have hne : i.status ≠ .executed := by simp [hi]
      have hf' := find_apply_of_ne hne (.inr ⟨hv, hf⟩)
      exact ⟨⟨i, hf', hi⟩, .of_eq hf hf' rfl rfl⟩
  · simp only [Function.update_of_ne hj]
    exact ⟨hc, .rfl⟩

theorem log_next (hn : w.next T k ev = some w') : ∃ t, w'.log = t :: w.log := by
  obtain ⟨-, -, i, e, -, rfl⟩ := next_eq hn
  exact ⟨_, rfl⟩

theorem World.Small.of_next (hn : w.next T k ev = some w') (h : w'.Small) : w.Small := by
  obtain ⟨t, ht⟩ := log_next hn
  intro i
  refine lt_of_le_of_lt ?_ (h i)
  unfold World.assigned
  rw [ht, List.countP_cons]
  omega

theorem Needs.cons {log : List Record} {u : InstanceId} (t : Record) (h : Needs log k u v) :
    Needs (t :: log) k u v := by
  obtain ⟨p, hp, h⟩ := h
  exact ⟨p, List.mem_cons_of_mem t hp, h⟩

/-- What holds of a node holds after an event that is none of its own. -/
theorem Node.Orderly.next {n : Node} (hr : Run T w) (hn : w.next T k ev = some w')
    (hs : ev.Sealed T (w.replica k)) (hu : n.Unspent (w'.Executed j))
    (h : n.Orderly (w.Executed j) (Needs w.log j) (w.replica j)) :
    n.Orderly (w'.Executed j) (Needs w'.log j) (w'.replica j) := by
  obtain ⟨t, ht⟩ := log_next hn
  exact h.mono hu (fun v hv => (executed_next hn j v).2 (.inl hv))
    (fun u v huv => ht ▸ huv.cons t) fun v hv => committed_next hr hn hs hv

variable {c c' : Cluster} {a : Action}

/-- The steps that keep a committed instance as it is, and receive nothing executed. -/
def SealedUnmet (T : RangeTree) (c : Cluster) (k : ℕ) (a : Action) : Prop :=
  SealedStep T c k a ∧ Unmet c k a

instance (T : RangeTree) (c : Cluster) (k : ℕ) (a : Action) : Decidable (SealedUnmet T c k a) :=
  inferInstanceAs (Decidable (_ ∧ _))

theorem ClusterRun.imp {ok ok' : Cluster → ℕ → Action → Prop} (h : ClusterRun ok T c)
    (hi : ∀ c k a, ok c k a → ok' c k a) : ClusterRun ok' T c := by
  induction h with
  | init => exact .init
  | next _ hok hn ih => exact .next ih (hi _ _ _ hok) hn

/-- Every node is, and what has been executed was in order. -/
structure Cluster.Orderly (c : Cluster) : Prop where
  node : ∀ k, (c.node k).Orderly (c.world.Executed k) (Needs c.world.log k) (c.world.replica k)
  log : Grown Record.InOrder c.world.log

theorem Cluster.Orderly.init : Cluster.init.Orderly where
  node _ :=
    { chan := by simp [Cluster.init]
      map := by simp [Cluster.init, Vertices.empty]
      task := trivial }
  log := .nil

/-- Another node after a step of node `k`, which has the node `n` then. -/
theorem Cluster.Orderly.update {n : Node} (h : c.Orderly)
    (hn : n.Orderly (c.world.Executed k) (Needs c.world.log k) (c.world.replica k)) :
    Cluster.Orderly { c with node := Function.update c.node k n } where
  node j := by
    by_cases hj : j = k
    · subst hj
      simpa using hn
    · simpa [Function.update_of_ne hj] using h.node j
  log := h.log

/-- The executor's step, on what it finds, as one on what the replica has. -/
theorem Cluster.Level.orderly_iff {n : Node} {done : InstanceId → Prop}
    {needs : InstanceId → InstanceId → Prop} (h : c.Level) (hu : n.Unspent done) :
    n.Orderly done needs (c.view k) ↔ n.Orderly done needs (c.world.replica k) := by
  have hf := h.find_view k
  have back : ∀ {v}, (c.view k).HasCommitted v ↔ (c.world.replica k).HasCommitted v := fun {v} => by
    unfold Replica.HasCommitted
    rw [hf]
  exact ⟨fun ho => ho.mono hu (fun _ => id) (fun _ _ => id) fun v hv =>
      .inr ⟨back.1 hv, .of_find (hf v).symm⟩,
    fun ho => ho.mono hu (fun _ => id) (fun _ _ => id) fun v hv =>
      .inr ⟨back.2 hv, .of_find (hf v)⟩⟩

theorem mem_sendExec {chan : List InstanceId} {id v : InstanceId} (h : v ∈ sendExec chan id) :
    v ∈ chan ∨ v = id := by
  unfold sendExec at h
  split_ifs at h
  · simpa using h
  · exact .inl h

theorem Node.Orderly.handOver {n : Node} {done : InstanceId → Prop}
    {needs : InstanceId → InstanceId → Prop} {r : Replica} {i : Instance} {e : Effect}
    (h : n.Orderly done needs r) (hx : e.exec = true → r.HasCommitted e.inst.key) :
    (n.handOver ev i e).Orderly done needs r := by
  unfold Node.handOver
  split_ifs with he
  · refine ⟨fun v hv => ?_, h.map, h.task⟩
    rcases mem_sendExec hv with hv | rfl
    · exact h.chan v hv
    · exact .inr (hx he)
  · exact h

/-- An instance handed over is committed. -/
theorem committed_of_exec {i : Instance} {e : Effect} {r : Replica} (hh : r.handle T ev = .handled i e)
    (he : e.exec = true) : (r.apply e).HasCommitted e.inst.key := by
  have hst : e.inst.status = .committed := by
    cases ev with
    | step m => exact progress_exec (step_progress hh).2 he
    | propose | checkpoint | timeout | execute =>
      rw [(handle_other hh (by rintro _ ⟨⟩)).1] at he
      cases he
  exact ⟨e.inst, find_apply_of_ne (by simp [hst]) (.inl ⟨rfl, rfl⟩), hst⟩

theorem Cluster.Orderly.next (h : c.Orderly) (hr : Run T c.world) (hl : c.Level) (hset : c.Settled)
    (hset' : c'.Settled) (hsm : c'.world.Small) (hok : SealedUnmet T c k a)
    (hs : c.Step T k a c') : c'.Orderly := by
  cases hs with
  | @replica ev w i e hev hu hh hw =>
    have hsame : ∀ j v, w.Executed j v ↔ c.world.Executed j v := fun j v => by
      rw [executed_next hw, Event.executes_of_not hev]
      simp
    have hnode : ∀ j, (c.node j).Orderly (w.Executed j) (Needs w.log j) (w.replica j) := fun j =>
      (h.node j).next hr hw hok.1 ((hset.unspent j).congr (hsame j))
    obtain ⟨-, -, i', e', hh', rfl⟩ := next_eq hw
    obtain ⟨rfl, rfl⟩ : i = i' ∧ e = e' := by
      rw [hh] at hh'
      cases hh'
      exact ⟨rfl, rfl⟩
    refine ⟨fun j => ?_, .cons h.log fun v hv => ?_⟩
    · by_cases hj : j = k
      · subst hj
        have hn := hnode j
        simp only [Function.update_self] at hn ⊢
        exact hn.handOver (committed_of_exec hh)
      · have hn := hnode j
        simp only [Function.update_of_ne hj] at hn ⊢
        exact hn
    · rw [show ev = .execute v from hv] at hev
      cases hev
  | write hu => exact h.update ⟨(h.node k).chan, (h.node k).map, (h.node k).task⟩
  | receive ht hc hf hvs =>
    exact h.update ((h.node k).receive hc (hok.2 _ (by rw [hc]; rfl)) hvs)
  | advance hn =>
    have hsteps := Node.advance_steps hn
    have hu := hset.unspent k
    have ha : Truthful (c.world.Executed k) (Needs c.world.log k) (c.view k) :=
      (hr.answers hsm k).of_find (hl.find_view k)
    exact h.update ((hl.orderly_iff (hu.advance hsteps)).1
      (((hl.orderly_iff hu).2 (h.node k)).advance hu ha hsteps))
  | @mark n id w hn hw =>
    have hsteps := Node.advance_steps hn
    have hu := hset.unspent k
    have hfind := hl.find_view k
    obtain ⟨hn', hid, hdeps⟩ := ((hl.orderly_iff hu).2 (h.node k)).mark hu hsteps
    have hcommitted : ∀ v, (c.view k).HasCommitted v → (c.world.replica k).HasCommitted v :=
      fun v hv => by rwa [Replica.HasCommitted, hfind] at hv
    have hs' := hset'.unspent
    obtain ⟨t, ht⟩ := log_next hw
    refine ⟨fun j => ?_, ?_⟩
    · by_cases hj : j = k
      · subst hj
        have hu' := hs' j
        simp only [Function.update_self] at hu' ⊢
        refine hn'.mono hu' (fun v hv => ?_) (fun u v huv => ht ▸ huv.cons t) fun v hv => ?_
        · rw [executed_next hw]
          exact hv.imp_right fun hv => ⟨rfl, by simp [Event.executes, hv]⟩
        · refine (committed_next hr hw trivial (hcommitted v hv)).imp_right (And.imp_right ?_)
          intro hreads
          rwa [Replica.Reads, ← hfind v] at hreads
      · have hu' := hs' j
        simp only [Function.update_of_ne hj] at hu' ⊢
        exact (h.node j).next hr hw trivial hu'
    · have hg' := (Run.next hr hw).grown.1
      obtain ⟨-, hwi⟩ := hr.grown
      obtain ⟨-, -, x, e, -, rfl⟩ := next_eq hw
      have hfx : (c.world.replica k).find id = some x := hg'.head.located
      refine .cons h.log fun v hv => ?_
      obtain rfl : id = v := Event.execute.inj hv
      obtain ⟨i, hfi, hst⟩ := hcommitted id hid
      obtain rfl : x = i := Option.some.inj (hfx.symm.trans hfi)
      refine ⟨hst, fun d hd => ?_⟩
      have hvd : (c.view k).Depends id d := (depends_iff ((hfind id).trans hfx)).2 hd
      refine (hdeps d hvd).imp_right ?_
      rintro ⟨hneeds, hdc, hle⟩
      refine ⟨hneeds, ?_⟩
      obtain ⟨y, hfy, p, hp, hwho, hk, hps, rfl⟩ := (hcommitted d hdc).exists_record hwi
      refine ⟨p, hp, hwho, hk, hps, ?_⟩
      simpa [Replica.seqOf, hfind, hfx, hfy] using hle

theorem ClusterRun.orderly (h : ClusterRun (SealedUnmet T) T c) (hs : c.world.Small) :
    c.Orderly := by
  induction h with
  | init => exact .init
  | @next c c' k a h hok hn ih =>
    have hstep := Cluster.next_step hn
    have hset : c.Settled := (h.imp fun _ _ _ => And.right).settled
    refine (ih ?_).next h.run (h.imp fun _ _ _ => And.left).sound.2 hset (hset.next hok.2 hstep) hs
      hok hstep
    cases hstep with
    | replica _ _ _ hw | mark _ hw => exact .of_next hw hs
    | write | receive | advance => exact hs

/-- In every run of the nodes that keeps committed instances as they are, every executor executes an
instance after all that it depends on, but for what depends on it in turn and has no smaller seq. -/
theorem executed_in_order (h : ClusterRun (SealedUnmet T) T c) (hs : c.world.Small)
    {newer older : List Record} {t : Record} (hlog : c.world.log = newer ++ t :: older) :
    t.InOrder older :=
  ((h.orderly hs).log.cut hlog).2

end Runs

/-- Two writes of one span, the second committed after an `ACCEPT`, and both executed at replica 1. -/
def bothExecuted : List Turn :=
  let rest : List Turn := [(1, fun _ => .write), (1, fun _ => .write)]
  (fastCommit ++ [deliverAt 1 .commit ⟨0, 1⟩]).map Move.turn ++ rest
    ++ [proposeAt 0 [49, 48] [50, 48], deliverAt 1 .preAccept ⟨0, 2⟩,
      deliverAt 0 .preAcceptReply ⟨0, 2⟩, deliverAt 1 .accept ⟨0, 2⟩, deliverAt 0 .acceptReply ⟨0, 2⟩,
      deliverAt 1 .commit ⟨0, 2⟩].map Move.turn ++ rest
    ++ receiveAt 1 :: advanceAt 1 20 ++ receiveAt 1 :: advanceAt 1 19

theorem executed_in_order_second : ∃ c t older, ClusterRun (SealedUnmet listTree) listTree c
    ∧ c.world.Small ∧ c.world.log = t :: older ∧ t.event = .execute ⟨0, 2⟩
    ∧ t.before.deps.Has ⟨0, 1⟩ ∧ t.InOrder older := by
  obtain ⟨c, hc, ⟨t, ht, hev, hd⟩, hlen⟩ := exists_clusterRun (SealedUnmet listTree) bothExecuted
    (p := fun c => (∃ t ∈ c.world.log.head?, t.event.executes ⟨0, 2⟩ = true
      ∧ t.before.deps.Has ⟨0, 1⟩) ∧ c.world.log.length < 2 ^ 48) (by decide +kernel)
  have hlog : c.world.log = [] ++ t :: c.world.log.tail := (List.cons_head?_tail ht).symm
  have hs : c.world.Small := fun k => List.countP_le_length.trans_lt hlen
  refine ⟨c, t, _, hc, hs, hlog, ?_, hd, executed_in_order hc hs hlog⟩
  cases he : t.event <;> rw [he] at hev <;> simp [Event.executes] at hev
  rw [hev]

end Epx
