import Epx.Proofs.InOrder

/-!
# Nothing ready is left behind

A pass of the executor takes the components in order, so where it lets one go for a dependency, that
has not been received, or is in a component it has let go before. When it is at the channel again,
everything in its map waits, directly or through the rest of the map, for an instance that it has not
received and not executed.
-/

namespace Epx

open Log Relation

/-- A dependency of `v`, or of one that `v` depends on through `ids`, is not of `ids` and not
executed. -/
def HeldUp (done : InstanceId → Prop) (r : Replica) (ids : List InstanceId) (v : InstanceId) :
    Prop :=
  ∃ u, r.Path ids v u ∧ ∃ d, r.Depends u d ∧ d ∉ ids ∧ ¬ done d

/-- The members of a component depend on each other, and on none of a later component. -/
structure Layered (r : Replica) (cs : List (List InstanceId)) : Prop where
  tied : ∀ c ∈ cs, ∀ u ∈ c, ∀ v ∈ c, r.Path c u v
  order : cs.Pairwise fun c c' => ∀ v ∈ c, ∀ d ∈ c', ¬ r.Depends v d

/-- In the middle of a pass, all in the map that is not in a component to come is held up. -/
def Task.Upto (done : InstanceId → Prop) (r : Replica) (ids : List InstanceId) : Task → Prop
  | .waiting => ∀ v ∈ ids, HeldUp done r ids v
  | .linking _ _ => True
  | .checking comp todo comps => Layered r (comp :: comps) ∧ (∀ s ∈ todo, s.1 ∈ comp)
      ∧ ∀ v ∈ ids, v ∈ comp ++ comps.flatten ∨ HeldUp done r ids v
  | .marking todo comps => Layered r comps
      ∧ ∀ v ∈ ids, v ∈ todo ++ comps.flatten ∨ HeldUp done r ids v

section Held

variable {done done' : InstanceId → Prop} {r r' : Replica} {ids ids' c : List InstanceId}
  {u v : InstanceId}

theorem Replica.Path.of_reads (h : r.Path ids v u) (hr : ∀ v ∈ ids, r.Reads r' v) (hv : v ∈ ids) :
    r'.Path ids v u := by
  induction h with
  | refl => exact .refl
  | @tail a b h he ih => exact ih.tail ⟨he.1, (hr a (Replica.Path.mem h hv)).depends.2 he.2⟩

theorem HeldUp.mono (h : HeldUp done r ids v) (hv : v ∈ ids) (hr : ∀ v ∈ ids, r.Reads r' v)
    (hd : ∀ d, d ∉ ids → done' d → done d) : HeldUp done' r' ids v := by
  obtain ⟨u, hvu, d, hud, hdi, hdd⟩ := h
  exact ⟨u, hvu.of_reads hr hv, d, (hr u (hvu.mem hv)).depends.2 hud, hdi,
    fun hx => hdd (hd d hdi hx)⟩

theorem HeldUp.of_mem_iff (h : HeldUp done r ids v) (hi : ∀ u, u ∈ ids' ↔ u ∈ ids) :
    HeldUp done r ids' v := by
  obtain ⟨u, hvu, d, hud, hdi, hdd⟩ := h
  exact ⟨u, ReflTransGen.mono (fun _ _ he => ⟨(hi _).2 he.1, he.2⟩) _ _ hvu, d, hud,
    fun hx => hdi ((hi d).1 hx), hdd⟩

theorem HeldUp.of_path (h : HeldUp done r ids v) (huv : r.Path ids u v) : HeldUp done r ids u := by
  obtain ⟨w, hvw, hd⟩ := h
  exact ⟨w, huv.trans hvw, hd⟩

theorem HeldUp.of_tied (h : HeldUp done r ids v) (hc : c ⊆ ids) (huv : r.Path c u v) :
    HeldUp done r ids u :=
  h.of_path (ReflTransGen.mono (fun _ _ he => ⟨hc he.1, he.2⟩) _ _ huv)

theorem Layered.tail {cs : List (List InstanceId)} (h : Layered r (c :: cs)) : Layered r cs :=
  ⟨fun c' hc' => h.tied c' (List.mem_cons_of_mem c hc'), (List.pairwise_cons.1 h.order).2⟩

theorem Layered.mono {cs : List (List InstanceId)} (h : Layered r cs)
    (hr : ∀ v ∈ cs.flatten, r.Reads r' v) : Layered r' cs where
  tied c hc u hu v hv :=
    (h.tied c hc u hu v hv).of_reads (fun w hw => hr w (List.mem_flatten_of_mem hc hw)) hu
  order := h.order.imp_of_mem fun hc _ hcc v hv d hd hvd =>
    hcc v hv d hd ((hr v (List.mem_flatten_of_mem hc hv)).depends.1 hvd)

/-- The next component. -/
theorem upto_next {comps : List (List InstanceId)} (h : Layered r comps)
    (hc : ∀ v ∈ ids, v ∈ comps.flatten ∨ HeldUp done r ids v) :
    (Task.next comps).Upto done r ids := by
  cases comps with
  | nil => exact fun v hv => (hc v hv).resolve_left List.not_mem_nil
  | cons comp comps =>
    refine ⟨h, fun s hs => ?_, hc⟩
    obtain ⟨u, hu, hs⟩ := List.mem_flatMap.1 hs
    obtain ⟨n, -, rfl⟩ := List.mem_map.1 hs
    exact hu

theorem Task.Upto.mono {t : Task} (h : t.Upto done r ids) (hk : t.pending ⊆ ids)
    (hr : ∀ v ∈ ids, r.Reads r' v) (hd : ∀ d, d ∉ ids → done' d → done d) :
    t.Upto done' r' ids := by
  cases t with
  | waiting => exact fun v hv => (h v hv).mono hv hr hd
  | linking => trivial
  | checking comp todo comps =>
    exact ⟨h.1.mono fun v hv => hr v (hk hv), h.2.1, fun v hv =>
      (h.2.2 v hv).imp_right fun h => h.mono hv hr hd⟩
  | marking todo comps =>
    exact ⟨h.1.mono fun v hv => hr v (hk (List.mem_append_right _ hv)), fun v hv =>
      (h.2 v hv).imp_right fun h => h.mono hv hr hd⟩

/-- What is held up is on no way to a component whose dependencies are in it or executed. -/
theorem HeldUp.mark {todo : List InstanceId} {id : InstanceId} (h : HeldUp done r ids v)
    (hv : v ∈ ids) (hid : id ∈ todo) (hsub : todo ⊆ ids) (hno : ∀ v ∈ ids, ¬ done v)
    (hclosed : ∀ v ∈ todo, ∀ d, r.Depends v d → d ∈ todo ∨ done d)
    (hi : ∀ u, u ∈ ids' ↔ u ∈ ids ∧ u ≠ id) : HeldUp (fun v => done v ∨ v = id) r ids' v := by
  obtain ⟨u, hvu, d, hud, hdi, hdd⟩ := h
  -- from a member of the component the way would end there
  have hin : ∀ {w x}, r.Path ids w x → w ∈ todo → x ∈ todo := by
    intro w x hwx hw
    induction hwx with
    | refl => exact hw
    | tail _ he ih => exact (hclosed _ ih _ he.2).resolve_right (hno _ he.1)
  have hout : ∀ {w}, r.Path ids w u → w ∉ todo := by
    intro w hwu hw
    rcases hclosed u (hin hwu hw) d hud with hd | hd
    · exact hdi (hsub hd)
    · exact hdd hd
  refine ⟨u, ?_, d, hud, fun hx => hdi ((hi d).1 hx).1, ?_⟩
  · induction hvu using ReflTransGen.head_induction_on with
    | refl => exact .refl
    | @head a b he hbu ih =>
      exact .head ⟨(hi b).2 ⟨he.1, fun hb => hout hbu (hb ▸ hid)⟩, he.2⟩ (ih he.1)
  · rintro (hx | rfl)
    · exact hdd hx
    · exact hdi (hsub hid)

end Held

section Steps

variable {done : InstanceId → Prop} {needs : InstanceId → InstanceId → Prop} {r : Replica}
  {n n' : Node} {id : InstanceId}

theorem pairwise_of_split {α : Type} {R : α → α → Prop} : ∀ {xs : List α},
    (∀ l₁ x l₂, xs = l₁ ++ x :: l₂ → ∀ y ∈ l₂, R x y) → xs.Pairwise R
  | [], _ => .nil
  | x :: xs, h => List.pairwise_cons.2 ⟨h [] x xs rfl,
      pairwise_of_split fun l₁ y l₂ he => h (x :: l₁) y l₂ (congrArg (x :: ·) he)⟩

/-- The components of a map of committed instances. -/
theorem layered_of_strongConnect {vs : Vertices} {deps : InstanceId → List Dependency}
    {s : Tarjan.Search InstanceId} (ha : Truthful done needs r)
    (hm : ∀ v ∈ vs.ids, r.HasCommitted v) (hd : ∀ v ∈ vs.ids, deps v = r.depsOf v)
    (hs : strongConnect vs deps = some s) : Layered r s.sccs := by
  have hc := components_of_strongConnect hs
  refine ⟨fun c hcs u hu v hv => ?_, pairwise_of_split fun l₁ c l₂ he c' hc' v hv d hd' hvd => ?_⟩
  · refine ReflTransGen.mono (fun a b hab => ⟨hab.2.1, ?_⟩) _ _ (hc.within hcs hu hv)
    exact ((ha.edge_iff hm hd (hc.mem hcs hab.1)).1 hab.2.2).2
  · -- what a member depends on is not in a later component
    have hvi : v ∈ vs.ids := hc.mem (by simp [he]) hv
    have hdi : d ∈ vs.ids := hc.mem (by simp [he, hc']) hd'
    have hl : vs.Linked deps v d := .single ((ha.edge_iff hm hd hvi).2 ⟨hdi, hvd⟩)
    have hsplit : s.sccs = (l₁ ++ [c]) ++ l₂ := by simp [he]
    have hin : d ∈ (l₁ ++ [c]).flatten := hc.closed hsplit (by simp [hv]) hl
    have hn := hc.once
    rw [he, List.append_cons, List.flatten_append, List.nodup_append] at hn
    exact hn.2.2 d hin d (List.mem_flatten_of_mem hc' hd') rfl

/-- What `execute_scc` finds when it lets a component go. -/
theorem held_of_not_ready {vs : Vertices} {comp : List InstanceId}
    {comps : List (List InstanceId)} {v : InstanceId} {d : Dependency}
    (hl : Layered r (comp :: comps)) (hv : v ∈ comp) (hd : d ∈ r.depsOf v)
    (hx : ∀ u, done u → r.hasExecuted u = true)
    (hcov : ∀ v ∈ vs.ids, v ∈ comp ++ comps.flatten ∨ HeldUp done r vs.ids v)
    (h : depReady r vs comp d = some false) : HeldUp done r vs.ids v := by
  unfold depReady at h
  split_ifs at h with he hg
  · cases h
  · cases h
  have hvd : r.Depends v d.id := ⟨d, hd, he, rfl⟩
  by_cases hdi : d.id ∈ vs.ids
  · have hdc : d.id ∉ comp := fun hdc => hg <| (Option.any_eq_true _ _).2
      ⟨d.id, Vertices.get_eq_some.2 ⟨hdi, rfl⟩, by simpa using hdc⟩
    have hdn : d.id ∉ comps.flatten := fun hdn => by
      obtain ⟨c, hcs, hdc⟩ := List.mem_flatten.1 hdn
      exact (List.pairwise_cons.1 hl.order).1 c hcs v hv d.id hdc hvd
    have hheld := (hcov d.id hdi).resolve_left fun hm => (List.mem_append.1 hm).elim hdc hdn
    exact hheld.of_path (.single ⟨hdi, hvd⟩)
  · refine ⟨v, .refl, d.id, hvd, hdi, fun hdd => ?_⟩
    rw [hx d.id hdd] at h
    cases h

theorem Task.Upto.advance (h : n.task.Upto done r n.vertices.ids) (ho : n.Orderly done needs r)
    (hu : n.Unspent done) (ha : Truthful done needs r) (hx : ∀ u, done u → r.hasExecuted u = true)
    (hs : n.Steps r n' none) : n'.task.Upto done r n'.vertices.ids := by
  have htask := ho.task
  have hknown := hu.known
  cases hs with
  | link => trivial
  | @connect deps s ht hs =>
    rw [ht] at htask
    have hc := components_of_strongConnect hs
    refine upto_next (layered_of_strongConnect ha ho.map (fun v hv => by simpa using htask v hv) hs)
      fun v hv => .inl ?_
    exact List.mem_flatten.2 ((hc.cover v).1 hv)
  | @check comp s todo comps d ready ht hd hr =>
    rw [ht] at h hknown
    obtain ⟨hl, htodo, hcov⟩ := h
    cases ready with
    | true => exact ⟨hl, fun s hs => htodo s (List.mem_cons_of_mem _ hs), hcov⟩
    | false =>
      have hcomp : comp ⊆ n.vertices.ids := fun v hv => hknown (List.mem_append_left _ hv)
      have hsc : s.1 ∈ comp := htodo s List.mem_cons_self
      have hheld := held_of_not_ready hl hsc (mem_of_slot hd) hx hcov hr
      refine upto_next hl.tail fun v hv => (hcov v hv).elim (fun hm => ?_) .inr
      rcases List.mem_append.1 hm with hvc | hvn
      · exact .inr (hheld.of_tied hcomp (hl.tied comp List.mem_cons_self v hvc s.1 hsc))
      · exact .inl hvn
  | @sort comp comps ht =>
    rw [ht] at h
    refine ⟨h.1.tail, fun v hv => (h.2.2 v hv).imp_left fun hm => ?_⟩
    exact ((sortScc_perm r.seqOf comp).append_right _).mem_iff.2 hm
  | @finish comps ht =>
    rw [ht] at h
    exact upto_next h.1 h.2

theorem mem_del_iff {vs : Vertices} {u : InstanceId} (hid : id ∈ vs.ids) :
    u ∈ (vs.del id).ids ↔ u ∈ vs.ids ∧ u ≠ id := by
  refine List.mem_filter.trans (and_congr_right fun hu => ?_)
  have hk : dhKey u = dhKey id ↔ u = id := ⟨Vertices.eq_of_dhKey hu hid, congrArg dhKey⟩
  simp [hk]

theorem Task.Upto.mark (h : n.task.Upto done r n.vertices.ids) (ho : n.Orderly done needs r)
    (hu : n.Unspent done) (hs : n.Steps r n' (some id)) :
    n'.task.Upto (fun v => done v ∨ v = id) r n'.vertices.ids := by
  have htask := ho.task
  have hknown := hu.known
  cases hs with
  | @mark _ todo comps ht =>
    rw [ht] at h htask hknown
    have hsub : id :: todo ⊆ n.vertices.ids := fun v hv => hknown (List.mem_append_left _ hv)
    have hdel : ∀ u, u ∈ (n.vertices.del id).ids ↔ u ∈ n.vertices.ids ∧ u ≠ id := fun u =>
      mem_del_iff (hsub List.mem_cons_self)
    refine ⟨h.1, fun v hv => ?_⟩
    obtain ⟨hv, hne⟩ := (hdel v).1 hv
    rcases h.2 v hv with hm | hheld
    · exact .inl ((List.mem_cons.1 hm).resolve_left hne)
    · exact .inr (hheld.mark hv List.mem_cons_self hsub hu.map htask.2.2 hdel)

/-- The ids of committed instances differ in `dh_key`. -/
def Replica.Keyable (r : Replica) : Prop :=
  ∀ u v, r.HasCommitted u → r.HasCommitted v → dhKey u = dhKey v → u = v

/-- `add_node` on an instance that is in the map leaves it as it is. -/
theorem mem_addNode_iff {vs : Vertices} {u : InstanceId} (hk : r.Keyable)
    (hm : ∀ v ∈ vs.ids, r.HasCommitted v) (hid : r.HasCommitted id) :
    u ∈ (vs.addNode id).1.ids ↔ u = id ∨ u ∈ vs.ids := by
  refine ⟨Vertices.mem_of_addNode, fun h => ?_⟩
  unfold Vertices.addNode
  split_ifs with hold
  · obtain ⟨v, hv, hvk⟩ := List.mem_map.1 hold
    obtain rfl : v = id := hk v id (hm v hv) hid hvk
    have hu : u ∈ vs.ids := h.elim (fun he => he ▸ hv) id
    refine List.mem_map.2 ⟨u, hu, ?_⟩
    split_ifs with huk
    · exact hk _ _ hid (hm u hu) huk.symm
    · rfl
  · exact List.mem_cons.2 h

theorem Task.Upto.receive {chan : List InstanceId} {vs : Vertices}
    (h : n.task.Upto done r n.vertices.ids) (ht : n.task = .waiting) (hk : r.Keyable)
    (hm : ∀ v ∈ n.vertices.ids, r.HasCommitted v) (hid : r.HasCommitted id)
    (hvs : vs.ids.Perm (n.vertices.addNode id).1.ids) :
    (n.receive chan id vs).task.Upto done r (n.receive chan id vs).vertices.ids := by
  unfold Node.receive
  dsimp only
  split_ifs with hnew
  · trivial
  · have hin : id ∈ n.vertices.ids := by
      unfold Vertices.addNode at hnew
      split_ifs at hnew with hold
      · obtain ⟨v, hv, hvk⟩ := List.mem_map.1 hold
        exact hk v id (hm v hv) hid hvk ▸ hv
      · exact absurd rfl hnew
    have hi : ∀ u, u ∈ vs.ids ↔ u ∈ n.vertices.ids := fun u => by
      rw [hvs.mem_iff, mem_addNode_iff hk hm hid]
      exact or_iff_right_of_imp fun he => he ▸ hin
    rw [ht] at h
    exact fun v hv => (h v ((hi v).1 hv)).of_mem_iff hi

/-- All that has been handed to the executor is on its channel, in its map or executed. -/
structure Node.Supplied (n : Node) (done : InstanceId → Prop) (handed : List InstanceId) : Prop where
  chan : ∀ v ∈ n.chan, v ∈ handed
  map : ∀ v ∈ n.vertices.ids, v ∈ handed
  all : ∀ v ∈ handed, v ∈ n.chan ∨ v ∈ n.vertices.ids ∨ done v

theorem Node.Supplied.congr {handed : List InstanceId} {done' : InstanceId → Prop}
    (h : n.Supplied done handed) (hd : ∀ v, done v → done' v) : n.Supplied done' handed :=
  ⟨h.chan, h.map, fun v hv => (h.all v hv).imp_right (Or.imp_right (hd v))⟩

theorem mem_handed_apply_iff {e : Effect} {v : InstanceId} :
    v ∈ (r.apply e).handed ↔ (e.exec = true ∧ v = e.inst.key) ∨ v ∈ r.handed := by
  constructor
  · exact mem_handed_apply
  · rintro (⟨he, hv⟩ | hv)
    · unfold Replica.apply
      dsimp only
      rw [hv, if_pos he]
      exact List.mem_cons_self
    · exact handed_apply e hv

theorem handed_apply_eq {e : Effect} (h : e.exec = false) : (r.apply e).handed = r.handed := by
  unfold Replica.apply
  dsimp only
  rw [if_neg (by simp [h])]
  split_ifs <;> rfl

theorem Node.Supplied.handOver {ev : Event} {i : Instance} {e : Effect}
    (h : n.Supplied done r.handed) (hroom : n.chan.length + 1 < chanCapacity) :
    (n.handOver ev i e).Supplied done (r.apply e).handed := by
  have hchan : ∀ v, v ∈ (n.handOver ev i e).chan ↔
      (e.exec = true ∧ v = e.inst.key) ∨ v ∈ n.chan := fun v => by
    unfold Node.handOver
    split_ifs with he
    · simp [sendExec, hroom, he, or_comm]
    · simp [he]
  have hmap : (n.handOver ev i e).vertices = n.vertices := by
    unfold Node.handOver
    split_ifs <;> rfl
  refine ⟨fun v hv => ?_, fun v hv => ?_, fun v hv => ?_⟩
  · exact mem_handed_apply_iff.2 (((hchan v).1 hv).imp_right (h.chan v))
  · exact mem_handed_apply_iff.2 (.inr (h.map v (hmap ▸ hv)))
  · rw [hchan, hmap]
    rcases mem_handed_apply_iff.1 hv with hv | hv
    · exact .inl (.inl hv)
    · exact (h.all v hv).imp_left .inr

theorem Node.Supplied.receive {chan handed : List InstanceId} {vs : Vertices}
    (h : n.Supplied done handed) (hc : n.chan = id :: chan)
    (hvs : ∀ v, v ∈ vs.ids ↔ v = id ∨ v ∈ n.vertices.ids) :
    (n.receive chan id vs).Supplied done handed := by
  have hid : id ∈ handed := h.chan id (hc ▸ List.mem_cons_self)
  refine ⟨fun v hv => h.chan v (hc ▸ List.mem_cons_of_mem id hv), fun v hv => ?_, fun v hv => ?_⟩
  · exact ((hvs v).1 hv).elim (fun he => he ▸ hid) (h.map v)
  · rcases h.all v hv with hv | hv | hv
    · rw [hc] at hv
      exact (List.mem_cons.1 hv).elim (fun he => .inr (.inl ((hvs v).2 (.inl he)))) .inl
    · exact .inr (.inl ((hvs v).2 (.inr hv)))
    · exact .inr (.inr hv)

theorem Node.Supplied.advance {handed : List InstanceId} (h : n.Supplied done handed)
    (hs : n.Steps r n' none) : n'.Supplied done handed := by
  cases hs <;> exact ⟨h.chan, h.map, h.all⟩

theorem Node.Supplied.mark {handed : List InstanceId} (h : n.Supplied done handed)
    (hu : n.Unspent done) (hs : n.Steps r n' (some id)) :
    n'.Supplied (fun v => done v ∨ v = id) handed := by
  have hknown := hu.known
  cases hs with
  | @mark _ todo comps ht =>
    rw [ht] at hknown
    have hid : id ∈ n.vertices.ids := hknown (List.mem_append_left _ List.mem_cons_self)
    refine ⟨h.chan, fun v hv => h.map v ((mem_del_iff hid).1 hv).1, fun v hv => ?_⟩
    rcases h.all v hv with hv | hv | hv
    · exact .inl hv
    · by_cases he : v = id
      · exact .inr (.inr (.inr he))
      · exact .inr (.inl ((mem_del_iff hid).2 ⟨hv, he⟩))
    · exact .inr (.inr (.inl hv))

end Steps

section Runs

variable {T : RangeTree} {w w' : World} {c c' : Cluster} {a : Action} {k : ℕ}

/-- Every replica finds executed what its executor has executed. -/
def World.Kept (w : World) : Prop :=
  ∀ t ∈ w.log, t.event.executes t.after.key = true → (w.replica t.who).hasExecuted t.after.key = true

instance (w : World) : Decidable w.Kept := inferInstanceAs (Decidable (∀ _ ∈ _, _ → _))

/-- An event of the replica finds the channel of the executor with room. -/
def HasRoom (c : Cluster) (k : ℕ) : Action → Prop
  | .replica _ => (c.node k).chan.length + 1 < chanCapacity
  | _ => True

instance (c : Cluster) (k : ℕ) : ∀ a : Action, Decidable (HasRoom c k a)
  | .replica _ => Nat.decLt _ _
  | .write | .receive _ | .advance => instDecidableTrue

/-- A step that keeps committed instances and drops none, from a state in which executed ones are
found. -/
def Serving (T : RangeTree) (c : Cluster) (k : ℕ) (a : Action) : Prop :=
  SealedUnmet T c k a ∧ c.world.Kept ∧ HasRoom c k a

instance (T : RangeTree) (c : Cluster) (k : ℕ) (a : Action) : Decidable (Serving T c k a) :=
  inferInstanceAs (Decidable (_ ∧ _))

theorem World.Kept.found (h : w.Kept) (hr : Run T w) {v : InstanceId} (hx : w.Executed k v) :
    (w.replica k).hasExecuted v = true := by
  obtain ⟨t, ht, rfl, hx⟩ := hx
  obtain ⟨hg, -⟩ := hr.grown
  obtain ⟨older, newer, -, -, hh⟩ := hg.of_mem ht
  have hk : t.after.key = v := by
    cases he : t.event with
    | execute u =>
      have huv : u = v := by simpa [he, Event.executes] using hx
      have hl := hh.located
      rw [he] at hl
      exact hh.key.trans ((hh.found u t.before hl).key.trans huv)
    | propose | checkpoint | timeout | step =>
      rw [he] at hx
      cases hx
  exact hk ▸ h t ht (hk ▸ hx)

theorem Run.keyable (hr : Run T w) (hs : w.Small) (k : ℕ) : (w.replica k).Keyable := by
  intro u v hu hv he
  obtain ⟨hu, huN⟩ := (hu.issued hr).small hr hs
  obtain ⟨hv, hvN⟩ := (hv.issued hr).small hr hs
  exact dhKey_injective hu huN hv hvN he

theorem Task.Upto.next {n : Node} {ev : Event} {j : ℕ} (hr : Run T w) (hn : w.next T k ev = some w')
    (hs : ev.Sealed T (w.replica k)) (hu : n.Unspent (w'.Executed j))
    (hm : ∀ v ∈ n.vertices.ids, (w.replica j).HasCommitted v)
    (hx : ∀ v, w'.Executed j v → w.Executed j v)
    (h : n.task.Upto (w.Executed j) (w.replica j) n.vertices.ids) :
    n.task.Upto (w'.Executed j) (w'.replica j) n.vertices.ids :=
  h.mono hu.known
    (fun v hv => ((committed_next hr hn hs (hm v hv)).resolve_left (hu.map v hv)).2)
    fun v _ => hx v

/-- Every executor has let go only what waits, and has missed nothing. -/
structure Cluster.Held (c : Cluster) : Prop where
  upto : ∀ k, (c.node k).task.Upto (c.world.Executed k) (c.world.replica k) (c.node k).vertices.ids
  supplied : ∀ k, (c.node k).Supplied (c.world.Executed k) (c.world.replica k).handed

theorem Cluster.Held.init : Cluster.init.Held where
  upto _ := fun _ hv => absurd hv List.not_mem_nil
  supplied _ := ⟨fun _ hv => absurd hv List.not_mem_nil, fun _ hv => absurd hv List.not_mem_nil,
    fun _ hv => absurd hv List.not_mem_nil⟩

/-- A step of node `k` that leaves the worlds' logs alone. -/
theorem Cluster.Held.update {n : Node} (h : c.Held)
    (hn : n.task.Upto (c.world.Executed k) (c.world.replica k) n.vertices.ids)
    (hs : n.Supplied (c.world.Executed k) (c.world.replica k).handed) :
    Cluster.Held { c with node := Function.update c.node k n } := by
  refine ⟨fun j => ?_, fun j => ?_⟩
  all_goals by_cases hj : j = k
  · subst hj
    simpa only [Function.update_self] using hn
  · simpa only [Function.update_of_ne hj] using h.upto j
  · subst hj
    simpa only [Function.update_self] using hs
  · simpa only [Function.update_of_ne hj] using h.supplied j

theorem Cluster.Held.next (h : c.Held) (ho : c.Orderly) (hr : Run T c.world) (hl : c.Level)
    (hset : c.Settled) (hset' : c'.Settled) (hsm : c.world.Small) (hok : Serving T c k a)
    (hs : c.Step T k a c') : c'.Held := by
  have hu := hset.unspent k
  have hview : ∀ v, (c.view k).Reads (c.world.replica k) v := fun v =>
    .of_find (hl.find_view k v).symm
  have hold : (c.node k).task.Upto (c.world.Executed k) (c.view k) (c.node k).vertices.ids :=
    (h.upto k).mono hu.known (fun v _ => .of_find (hl.find_view k v)) fun _ _ => id
  have hnode : (c.node k).Orderly (c.world.Executed k) (Needs c.world.log k) (c.view k) :=
    (hl.orderly_iff hu).2 (ho.node k)
  have hu' := hset'.unspent
  cases hs with
  | @replica ev w i e hev _ hh hw =>
    have hx : ∀ j v, w.Executed j v ↔ c.world.Executed j v := fun j v => by
      rw [executed_next hw, Event.executes_of_not hev]
      simp
    have hupto : ∀ j, (c.node j).task.Upto (w.Executed j) (w.replica j) (c.node j).vertices.ids :=
      fun j => (h.upto j).next hr hw hok.1.1 ((hset.unspent j).congr (hx j)) (ho.node j).map
        fun v => (hx j v).1
    have hsupplied : ∀ j, (c.node j).Supplied (w.Executed j) (c.world.replica j).handed :=
      fun j => (h.supplied j).congr fun v => (hx j v).2
    obtain ⟨-, -, i', e', hh', rfl⟩ := next_eq hw
    obtain ⟨rfl, rfl⟩ : i = i' ∧ e = e' := by
      rw [hh] at hh'
      cases hh'
      exact ⟨rfl, rfl⟩
    have hkeep : ((c.node k).handOver ev i e).task = (c.node k).task
        ∧ ((c.node k).handOver ev i e).vertices = (c.node k).vertices := by
      unfold Node.handOver
      split_ifs <;> exact ⟨rfl, rfl⟩
    refine ⟨fun j => ?_, fun j => ?_⟩
    all_goals by_cases hj : j = k
    · subst hj
      simpa only [Function.update_self, hkeep] using hupto j
    · simpa only [Function.update_of_ne hj] using hupto j
    · subst hj
      simpa only [Function.update_self] using (hsupplied j).handOver hok.2.2
    · simpa only [Function.update_of_ne hj] using hsupplied j
  | write => exact h.update (h.upto k) ⟨(h.supplied k).chan, (h.supplied k).map, (h.supplied k).all⟩
  | @receive vs id chan ht hc hf hvs =>
    have hid : ¬ c.world.Executed k id := hok.1.2 id (by rw [hc]; rfl)
    have hcommitted := ((ho.node k).chan id (hc ▸ List.mem_cons_self)).resolve_left hid
    have hk := hr.keyable hsm k
    refine h.update ((h.upto k).receive ht hk (ho.node k).map hcommitted hvs) ?_
    exact (h.supplied k).receive hc fun v => by
      rw [hvs.mem_iff, mem_addNode_iff hk (ho.node k).map hcommitted]
  | @advance n hn =>
    have hsteps := Node.advance_steps hn
    have ha : Truthful (c.world.Executed k) (Needs c.world.log k) (c.view k) :=
      (hr.answers hsm k).of_find (hl.find_view k)
    have hx : ∀ v, c.world.Executed k v → (c.view k).hasExecuted v = true := fun v hv => by
      rw [Replica.hasExecuted, hl.find_view]
      exact hok.2.1.found hr hv
    have hn' := hold.advance hnode hu ha hx hsteps
    exact h.update (hn'.mono (hu.advance hsteps).known (fun v _ => hview v) fun _ _ => id)
      ((h.supplied k).advance hsteps)
  | @mark n id w hn hw =>
    have hsteps := Node.advance_steps hn
    have hx : ∀ j v, w.Executed j v ↔ c.world.Executed j v ∨ (k = j ∧ v = id) := fun j v => by
      rw [executed_next hw]
      simp [Event.executes, eq_comm]
    have hhanded : ∀ j, (w.replica j).handed = (c.world.replica j).handed := fun j => by
      obtain ⟨-, -, i, e, hh, rfl⟩ := next_eq hw
      by_cases hj : j = k
      · subst hj
        simpa only [Function.update_self] using handed_apply_eq (handle_other hh (by rintro _ ⟨⟩)).1
      · simp only [Function.update_of_ne hj]
    refine ⟨fun j => ?_, fun j => ?_⟩
    all_goals
      have hu' := hu' j
      by_cases hj : j = k
    · subst hj
      simp only [Function.update_self] at hu' ⊢
      refine (hold.mark hnode hu hsteps).mono hu'.known (fun v hv => ?_) fun v _ hv => ?_
      · have hm := (hnode.mark hu hsteps).1.map v hv
        rw [Replica.HasCommitted, hl.find_view] at hm
        have := (committed_next hr hw trivial hm).resolve_left (hu'.map v hv)
        rw [Replica.Reads, hl.find_view]
        exact this.2
      · exact ((hx j v).1 hv).imp_right And.right
    · simp only [Function.update_of_ne hj] at hu' ⊢
      refine (h.upto j).next hr hw trivial hu' (ho.node j).map fun v hv => ?_
      exact ((hx j v).1 hv).resolve_right fun hv => hj hv.1.symm
    · subst hj
      simp only [Function.update_self, hhanded]
      refine ((h.supplied j).mark hu hsteps).congr fun v hv => (hx j v).2 ?_
      exact hv.imp_right fun hv => ⟨rfl, hv⟩
    · simp only [Function.update_of_ne hj, hhanded]
      exact (h.supplied j).congr fun v hv => (hx j v).2 (.inl hv)

theorem ClusterRun.held (h : ClusterRun (Serving T) T c) (hs : c.world.Small) : c.Held := by
  induction h with
  | init => exact .init
  | @next c c' k a h hok hn ih =>
    have hstep := Cluster.next_step hn
    have hrun : ClusterRun (SealedUnmet T) T c := h.imp fun _ _ _ => And.left
    have hset : c.Settled := (hrun.imp fun _ _ _ => And.right).settled
    have hsm : c.world.Small := by
      cases hstep with
      | replica _ _ _ hw | mark _ hw => exact .of_next hw hs
      | write | receive | advance => exact hs
    exact (ih hsm).next (hrun.orderly hsm) h.run (hrun.imp fun _ _ _ => And.left).sound.2 hset
      (hset.next hok.1.2 hstep) hsm hok hstep

/-- The executor's thread is at the channel, which is empty. -/
def Node.Idle (n : Node) : Prop := n.task = .waiting ∧ n.chan = []

end Runs

instance : ∀ t : Task, Decidable (t = .waiting)
  | .waiting => isTrue rfl
  | .linking _ _ => isFalse (by simp)
  | .checking _ _ _ => isFalse (by simp)
  | .marking _ _ => isFalse (by simp)

instance (n : Node) : Decidable n.Idle := inferInstanceAs (Decidable (_ ∧ _))

/-- Two writes of one span at replica 0, which commits the second and receives it. -/
def secondCommitted : List Turn :=
  [proposeAt 0 [49, 48] [50, 48], proposeAt 0 [49, 48] [50, 48], deliverAt 1 .preAccept ⟨0, 1⟩,
      deliverAt 1 .preAccept ⟨0, 2⟩, deliverAt 0 .preAcceptReply ⟨0, 2⟩, deliverAt 1 .accept ⟨0, 2⟩,
      deliverAt 0 .acceptReply ⟨0, 2⟩].map Move.turn ++ receiveAt 0 :: advanceAt 0 10

end Epx
