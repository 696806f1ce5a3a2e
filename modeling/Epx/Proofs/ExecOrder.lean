import Epx.Proofs.Buffers

/-!
# The order of execution at two replicas

Two executors that receive the same committed instances, in any order and with any order of their
maps. What depends on what, and the seq, order any two instances one of which leads to the other,
unless they are in one cycle and have the same seq. Those `sort_scc` leaves as `visit` has popped
them, where the instance that the map begins with is the last one.
-/

namespace Epx

/-- `v` is an instance of the set, and a dependency of `u`. -/
def DependsIn (is : List Instance) (u v : InstanceId) : Prop :=
  v ∈ is.map Instance.key ∧ ∃ i ∈ is, i.key = u ∧ ∃ d ∈ i.deps.slots, ¬ d.Empty ∧ d.id = v

/-- `u` depends on `v` through instances of the set, or is `v`. -/
def Leads (is : List Instance) : InstanceId → InstanceId → Prop :=
  Relation.ReflTransGen (DependsIn is)

/-- Committed instances, each once, whose dependencies have indexes, and with no two ids among all
these that `dh_key` does not tell apart. -/
structure CommittedSet (is : List Instance) : Prop where
  committed : ∀ i ∈ is, i.status = .committed
  once : (is.map Instance.key).Nodup
  inRange : ∀ i ∈ is, ∀ d ∈ i.deps.slots, ¬ d.Empty → d.id.replicaId < N
  apart : ∀ i ∈ is, ∀ d ∈ i.deps.slots, ¬ d.Empty → ∀ j ∈ is, dhKey d.id = dhKey j.key →
    d.id = j.key
  keyed : ∀ i ∈ is, ∀ j ∈ is, dhKey i.key = dhKey j.key → i.key = j.key

/-- The replica has the instances, with this seq and these dependencies. -/
def Replica.Stores (r : Replica) (is : List Instance) : Prop :=
  ∀ i ∈ is, ∃ j ∈ r.find i.key, j.key = i.key ∧ j.status = .committed ∧ j.seq = i.seq
    ∧ j.deps = i.deps

/-- Any two executors that have received all instances of the set execute any two of which one
leads to the other in the same order. -/
def SameOrder (is : List Instance) : Prop :=
  ∀ r₁ r₂ : Replica, r₁.Stores is → r₂.Stores is → ∀ ids₁ ids₂ : List InstanceId,
    ids₁.Perm (is.map Instance.key) → ids₂.Perm (is.map Instance.key) → ∀ p₁ p₂ : Pass,
    Fed Fits r₁ ids₁ p₁ → Fed Fits r₂ ids₂ p₂ → ∀ u v, Leads is u v →
    u ∈ p₁.executed → v ∈ p₁.executed → u ∈ p₂.executed → v ∈ p₂.executed →
    (p₁.executed.idxOf u < p₁.executed.idxOf v ↔ p₂.executed.idxOf u < p₂.executed.idxOf v)

/-- No two instances of one cycle have the same seq. -/
def DistinctSeqs (is : List Instance) : Prop :=
  ∀ i ∈ is, ∀ j ∈ is, Leads is i.key j.key → Leads is j.key i.key → i.seq = j.seq → i.key = j.key

/-- No cycle has more instances than a component has room for. -/
def SmallCycles (is : List Instance) : Prop :=
  ∀ l : List InstanceId, l.Nodup → l ⊆ is.map Instance.key →
    (∀ u ∈ l, ∀ v ∈ l, Leads is u v) → l.length ≤ maxDeps

section Stores

variable {is : List Instance} {r : Replica} {u v : InstanceId}

theorem Replica.Stores.depsOf (h : r.Stores is) {i : Instance} (hi : i ∈ is) :
    r.depsOf i.key = i.deps.slots := by
  obtain ⟨j, hj, -, -, -, hd⟩ := h i hi
  rw [Replica.depsOf, Option.mem_def.1 hj, Option.map_some, Option.getD_some, hd]

theorem Replica.Stores.seqOf (h : r.Stores is) {i : Instance} (hi : i ∈ is) :
    r.seqOf i.key = i.seq := by
  obtain ⟨j, hj, -, -, hs, -⟩ := h i hi
  rw [Replica.seqOf, Option.mem_def.1 hj, Option.map_some, Option.getD_some, hs]

theorem Replica.Stores.unexecuted (h : r.Stores is) (hc : CommittedSet is) :
    Unexecuted r (is.map Instance.key) := by
  refine ⟨⟨fun v hv => ?_, fun v hv => ?_, fun v hv => ?_, fun v hv u hu => ?_⟩, fun v hv => ?_⟩
  all_goals
    obtain ⟨i, hi, rfl⟩ := List.mem_map.1 hv
  · obtain ⟨j, hj, hk, -⟩ := h i hi
    exact ⟨j, hj, hk⟩
  · rw [h.depsOf hi]
    exact hc.inRange i hi
  · rw [h.depsOf hi]
    intro d hd he u hu
    obtain ⟨j, hj, rfl⟩ := List.mem_map.1 hu
    exact hc.apart i hi d hd he j hj
  · obtain ⟨j, hj, rfl⟩ := List.mem_map.1 hu
    exact hc.keyed i hi j hj
  · obtain ⟨j, hj, -, hs, -⟩ := h i hi
    rw [Replica.hasExecuted, Option.mem_def.1 hj]
    simp [isState, hs]

theorem Replica.Stores.leads_iff (h : r.Stores is) (hu : u ∈ is.map Instance.key) :
    Leads is u v ↔ r.Path (is.map Instance.key) u v := by
  have hstep : ∀ w ∈ is.map Instance.key, ∀ x, DependsIn is w x ↔
      x ∈ is.map Instance.key ∧ r.Depends w x := fun w hw x => by
    obtain ⟨i, hi, rfl⟩ := List.mem_map.1 hw
    refine and_congr_right fun _ => ⟨fun ⟨j, hj, hk, hd⟩ => ?_, fun hd => ⟨i, hi, rfl, ?_⟩⟩
    · rw [Replica.Depends, ← hk, h.depsOf hj]
      exact hd
    · rwa [Replica.Depends, h.depsOf hi] at hd
  constructor
  · intro hl
    induction hl with
    | refl => exact .refl
    | tail _ hs ih => exact ih.tail ((hstep _ (ih.mem hu) _).1 hs)
  · intro hp
    induction hp with
    | refl => exact .refl
    | tail hp hs ih => exact ih.tail ((hstep _ (Replica.Path.mem hp hu) _).2 hs)

/-- The order of a run: dependencies first, and in a cycle by seq. -/
theorem Replica.Stores.ordered {ok : Replica → Vertices → Prop} {ids : List InstanceId} {p : Pass}
    (h : r.Stores is) (hc : CommittedSet is) (hids : ids.Perm (is.map Instance.key))
    (hf : Fed ok r ids p) : ∀ u ∈ p.executed, ∀ v ∈ p.executed,
      p.executed.idxOf u < p.executed.idxOf v → Leads is u v →
      Leads is v u ∧ r.seqOf u ≤ r.seqOf v := by
  have hu := h.unexecuted hc
  obtain ⟨hn, hp⟩ := hf.pairwise
    (R := fun u v => r.Path (is.map Instance.key) u v →
      r.Path (is.map Instance.key) v u ∧ r.seqOf u ≤ r.seqOf v)
    hu hids.subset (hids.nodup_iff.2 hc.once) (fun x y hxy hp => absurd hp hxy)
    fun ids id p vs q ha hs hid hvs _ _ hq => by
      refine (List.Pairwise.and_mem.1 hq.order).imp fun ⟨hx, hy, hxy⟩ hp => ?_
      have hxy := hxy (ha.path_pass hu hs hid hvs hq hx hy hp)
      rw [ha.marked.path, ha.marked.seqOf] at hxy
      refine ⟨hxy.1.mono fun w hw => hs ?_, hxy.2⟩
      exact List.mem_cons.2 (((hvs w).1 hw).imp_right And.left)
  intro u hux v hvx hlt hl
  have hmem : ∀ w ∈ p.executed, w ∈ is.map Instance.key := fun w hw =>
    hids.subset (((hf.after (hu.mono hids.subset)).executed w).1 hw).1
  have := (pairwise_iff_idxOf hn).1 hp u hux v hvx hlt ((h.leads_iff (hmem u hux)).1 hl)
  exact ⟨(h.leads_iff (hmem v hvx)).2 this.1, this.2⟩

theorem Fed.mem_keys {ok : Replica → Vertices → Prop} {ids : List InstanceId} {p : Pass}
    (h : r.Stores is) (hc : CommittedSet is) (hids : ids.Perm (is.map Instance.key))
    (hf : Fed ok r ids p) (hu : u ∈ p.executed) : ∃ i ∈ is, i.key = u := by
  have ha := hf.after ((h.unexecuted hc).mono hids.subset)
  exact List.mem_map.1 (hids.subset ((ha.executed u).1 hu).1)

/-- Where the members of a cycle have different seqs, the order is that of the seqs. -/
theorem Fed.before_iff {ok : Replica → Vertices → Prop} {ids : List InstanceId} {p : Pass}
    (h : r.Stores is) (hc : CommittedSet is) (hd : DistinctSeqs is)
    (hids : ids.Perm (is.map Instance.key)) (hf : Fed ok r ids p) {i j : Instance} (hi : i ∈ is)
    (hj : j ∈ is) (hix : i.key ∈ p.executed) (hjx : j.key ∈ p.executed)
    (hl : Leads is i.key j.key) :
    p.executed.idxOf i.key < p.executed.idxOf j.key ↔ Leads is j.key i.key ∧ i.seq < j.seq := by
  have hord := h.ordered hc hids hf
  rw [← h.seqOf hi, ← h.seqOf hj]
  constructor
  · intro hlt
    obtain ⟨hji, hle⟩ := hord i.key hix j.key hjx hlt hl
    refine ⟨hji, hle.lt_of_ne fun he => ?_⟩
    rw [h.seqOf hi, h.seqOf hj] at he
    rw [hd i hi j hj hl hji he] at hlt
    exact lt_irrefl _ hlt
  · intro ⟨hji, hlt⟩
    by_contra hge
    have hne : p.executed.idxOf j.key ≠ p.executed.idxOf i.key := fun he => by
      rw [(List.idxOf_inj hjx).1 he] at hlt
      exact lt_irrefl _ hlt
    have := (hord j.key hjx i.key hix (by omega) hji).2
    omega

theorem DistinctSeqs.sameOrder (hd : DistinctSeqs is) (hc : CommittedSet is) : SameOrder is := by
  intro r₁ r₂ h₁ h₂ ids₁ ids₂ hids₁ hids₂ p₁ p₂ hf₁ hf₂ u v hl hu₁ hv₁ hu₂ hv₂
  obtain ⟨i, hi, rfl⟩ := hf₁.mem_keys h₁ hc hids₁ hu₁
  obtain ⟨j, hj, rfl⟩ := hf₁.mem_keys h₁ hc hids₁ hv₁
  rw [hf₁.before_iff h₁ hc hd hids₁ hi hj hu₁ hv₁ hl,
    hf₂.before_iff h₂ hc hd hids₂ hi hj hu₂ hv₂ hl]

end Stores

section Schedule

variable {is : List Instance} {r : Replica}

/-- The map in an order that begins with `x`, when `x` is in it. -/
theorem Vertices.exists_front (vs : Vertices) (x : InstanceId) : ∃ vs' : Vertices,
    vs'.ids.Perm vs.ids ∧ (x ∈ vs'.ids → ∃ ws, vs'.ids = x :: ws) := by
  by_cases hx : x ∈ vs.ids
  · have hp := List.perm_cons_erase hx
    exact ⟨⟨x :: vs.ids.erase x, (hp.map dhKey).nodup_iff.1 vs.distinct⟩, hp.symm, fun _ => ⟨_, rfl⟩⟩
  · exact ⟨vs, .refl _, fun h => absurd h hx⟩

/-- The instances outside the set that its instances depend on are executed. -/
def Replica.Settled (r : Replica) (is : List Instance) : Prop :=
  ∀ u ∈ is.map Instance.key, ∀ v, r.Depends u v → v ∉ is.map Instance.key →
    r.hasExecuted v = true

/-- Received cycle by cycle, in the order of the dependencies, only instances of the cycle of the
last one wait. -/
theorem Components.waits {vs : Vertices} {cs : List (List InstanceId)} {id : InstanceId}
    {l rest : List InstanceId} (hcs : Components vs r.depsOf cs) (h : Registered r vs.ids)
    (hx : ∀ u ∈ vs.ids, ∀ v, r.Depends u v → v ∉ vs.ids → r.hasExecuted v = true)
    (hl : cs.flatten = l.reverse ++ id :: rest) :
    ∃ c ∈ cs, ∀ v, r.Waits l id v → v ∈ c := by
  obtain ⟨c, hc, hidc⟩ := List.mem_flatten.1 (by rw [hl]; simp : id ∈ cs.flatten)
  obtain ⟨l₁, l₂, rfl⟩ := List.append_of_mem hc
  obtain ⟨c₁, c₂, rfl⟩ := List.append_of_mem hidc
  -- what has come before are the cycles before, and a part of this one
  have hsplit : l.reverse = l₁.flatten ++ c₁ := by
    have hn := hcs.once
    have he : (l₁.flatten ++ c₁) ++ id :: (c₂ ++ l₂.flatten) = l.reverse ++ id :: rest := by
      rw [← hl]
      simp
    rw [hl] at hn
    have hn₁ := (List.nodup_append.1 hn).2.2
    have hn₂ := (List.nodup_cons.1 (List.nodup_append.1 hn).2.1).1
    rw [eq_comm, List.append_cons_inj_of_notMem] at he
    · exact he.1
    · exact fun hmem => hn₁ id hmem id List.mem_cons_self rfl
    · exact hn₂
  have hmem : ∀ w, w ∈ l ↔ w ∈ l₁.flatten ∨ w ∈ c₁ := fun w => by
    rw [← List.mem_reverse, hsplit, List.mem_append]
  have hin : ∀ w ∈ l₁.flatten, w ∈ vs.ids := fun w hw => by
    obtain ⟨d, hd, hwd⟩ := List.mem_flatten.1 hw
    exact hcs.mem (List.mem_append_left _ hd) hwd
  refine ⟨c₁ ++ id :: c₂, hc, fun v hv => ?_⟩
  rcases hv with rfl | ⟨hvl, hvn⟩
  · exact hidc
  have hsub : l ⊆ vs.ids := fun w hw => by
    rcases (hmem w).1 hw with hw | hw
    · exact hin w hw
    · exact hcs.mem hc (List.mem_append_left _ hw)
  have hclosed : ∀ w ∈ l₁.flatten, ∀ z, r.Path vs.ids w z → z ∈ l₁.flatten := fun w hw z hp =>
    hcs.closed rfl hw ((h.linked_iff (hin w hw)).2 hp)
  rcases (hmem v).1 hvl with hv₁ | hv₁
  · refine absurd (fun w hw z hz hzl => ?_) hvn
    have hw₁ := hclosed v hv₁ w (hw.mono hsub)
    by_cases hzv : z ∈ vs.ids
    · exact absurd ((hmem z).2 (.inl (hclosed w hw₁ z (.single ⟨hzv, hz⟩)))) hzl
    · exact hx w (hin w hw₁) z hz hzv
  · exact List.mem_append_left _ hv₁

/-- The pass stays within the buffers, and begins with `x` where the map has it. -/
def FitsFrom (x : InstanceId) (q : Replica) (vs : Vertices) : Prop :=
  Fits q vs ∧ (x ∈ vs.ids → ∃ ws, vs.ids = x :: ws)

/-- Received cycle by cycle, the instances can all be received within the buffers. -/
theorem Components.exists_fed {vs : Vertices} {cs : List (List InstanceId)}
    (hcs : Components vs r.depsOf cs) (hu : Unexecuted r vs.ids)
    (hx : ∀ u ∈ vs.ids, ∀ v, r.Depends u v → v ∉ vs.ids → r.hasExecuted v = true)
    (h8 : ∀ c ∈ cs, c.length ≤ maxDeps) (x : InstanceId) :
    ∀ l, l <:+ cs.flatten.reverse → ∃ p, Fed (FitsFrom x) r l p := by
  intro l
  induction l with
  | nil => exact fun _ => ⟨_, .start⟩
  | cons id l ih =>
    intro hl
    obtain ⟨p, hp⟩ := ih ((List.suffix_cons id l).trans hl)
    have hul := hu.mono fun v hv => (hcs.cover v).2 <| List.mem_flatten.1 <|
      List.mem_reverse.1 (hl.subset hv)
    have ha := hp.after (hul.mono (List.subset_cons_self id l))
    obtain ⟨vs', hvs', hfront⟩ := (p.vertices.addNode id).1.exists_front x
    have hfit : Fits p.replica vs' := by
      refine (ha.fits_iff hul (ha.mem_map hul hvs')).2 ?_
      obtain ⟨t, ht⟩ := hl
      have hsplit : cs.flatten = l.reverse ++ id :: t.reverse := by
        rw [← List.reverse_reverse cs.flatten, ← ht]
        simp
      obtain ⟨c, hcm, hwaits⟩ := hcs.waits hu.toRegistered hx hsplit
      exact .of_subset (h8 c hcm) hwaits
    obtain ⟨p', hp'⟩ := ha.exists_receive hul hvs'
    exact ⟨p', .receive hp hvs' (fun _ => ⟨hfit, hfront⟩) hp'⟩

/-- Where every pass begins with `x`, that is executed last of those in its cycle that have no larger
seq. -/
theorem Fed.idxOf_lt {ids l : List InstanceId} {p : Pass} {x y : InstanceId}
    (hp : Fed (FitsFrom x) r l p) (hu : Unexecuted r ids) (hl : l ⊆ ids) (hn : l.Nodup)
    (hx : x ∈ p.executed) (hy : y ∈ p.executed) (hne : y ≠ x) (hxy : r.Path ids x y)
    (hyx : r.Path ids y x) (hle : r.seqOf y ≤ r.seqOf x) :
    p.executed.idxOf y < p.executed.idxOf x := by
  obtain ⟨hn, hpw⟩ := hp.pairwise
    (R := fun a b => a = x → r.Path ids x b → r.Path ids b x → r.seqOf b ≤ r.seqOf x → b = x)
    hu hl hn (fun a b hab ha hb => absurd (ha ▸ hb) hab)
    fun ids id p vs' q ha hsub hid hmap hok he hq => by
      refine (pairwise_iff_idxOf hq.once).2 fun a hax b hbx hlt hae hab hba hle => ?_
      subst hae
      by_contra hne
      have hul := hu.mono hsub
      obtain ⟨ws, hws⟩ := hok.2 ((hq.ready a).1 hax).1
      have := hq.last (ha.registered hul hmap) (ha.ready_again hul hmap) he hws hax hne
        (ha.path_pass hu hsub hid hmap hq hax hbx hab) (ha.path_pass hu hsub hid hmap hq hbx hax hba)
        (by rwa [ha.marked.seqOf])
      omega
  by_contra hge
  have hne' : p.executed.idxOf x ≠ p.executed.idxOf y := fun he => hne ((List.idxOf_inj hx).1 he).symm
  exact hne ((pairwise_iff_idxOf hn).1 hpw x hx y hy (by omega) rfl hxy hyx hle)

/-- The set can be received within the buffers so that all of it is executed, and `x` last of those
in its cycle that have the same seq. -/
theorem Replica.Stores.exists_fed (h : r.Stores is) (hc : CommittedSet is) (h8 : SmallCycles is)
    (hx : r.Settled is) (x : InstanceId) : ∃ ids p, ids.Perm (is.map Instance.key) ∧
      Fed Fits r ids p ∧ (∀ u ∈ is.map Instance.key, u ∈ p.executed) ∧
      ∀ y ∈ p.executed, x ∈ p.executed → y ≠ x → Leads is x y → Leads is y x →
        r.seqOf y ≤ r.seqOf x → p.executed.idxOf y < p.executed.idxOf x := by
  have hu := h.unexecuted hc
  obtain ⟨vs, hvs⟩ : ∃ vs : Vertices, vs.ids = is.map Instance.key :=
    ⟨⟨is.map Instance.key, hc.once.map_on hu.keyed⟩, rfl⟩
  obtain ⟨s, hs⟩ := exists_strongConnect vs r.depsOf
  have hcs := components_of_strongConnect hs
  unfold Replica.Settled at hx
  rw [← hvs] at hu hx ⊢
  have hperm : s.sccs.flatten.reverse.Perm vs.ids := by
    refine (List.reverse_perm _).trans ((List.perm_ext_iff_of_nodup hcs.once ?_).2 fun v => ?_)
    · exact vs.distinct.of_map
    · rw [hcs.cover, List.mem_flatten]
  have hleads : ∀ u ∈ vs.ids, ∀ v, Leads is u v ↔ r.Path vs.ids u v := fun u hu' v => by
    rw [h.leads_iff (hvs ▸ hu'), hvs]
  have hsmall : ∀ c ∈ s.sccs, c.length ≤ maxDeps := fun c hcm =>
    h8 c (hcs.nodup hcm) (fun v hv => hvs ▸ hcs.mem hcm hv) fun u hu' v hv =>
      (hleads u (hcs.mem hcm hu') v).2 <|
        (hu.linked_iff (hcs.mem hcm hu')).1 ((hcs.strong c hcm u hu' v).1 hv).1
  obtain ⟨p, hp⟩ := hcs.exists_fed hu hx hsmall x _ List.suffix_rfl
  have ha := hp.after (hu.mono hperm.subset)
  have hmem : ∀ u ∈ p.executed, u ∈ vs.ids := fun u hu' => hperm.subset ((ha.executed u).1 hu').1
  refine ⟨_, p, hperm, hp.mono fun _ _ hok => hok.1, fun u hu' => ?_, ?_⟩
  · refine (ha.executed u).2 ⟨hperm.mem_iff.2 hu', fun w hw z hz hzn => ?_⟩
    have hwi := (hw.mono hperm.subset).mem hu'
    exact hx w hwi z hz fun hzv => hzn (hperm.mem_iff.2 hzv)
  · intro y hy hxp hne hxy hyx hle
    exact hp.idxOf_lt hu hperm.subset (hperm.nodup_iff.2 vs.distinct.of_map) hxp hy hne
      ((hleads x (hmem x hxp) y).1 hxy) ((hleads y (hmem y hy) x).1 hyx) hle

end Schedule

section Background

variable {is : List Instance}

theorem find_foldl_put_of_ne {k : InstanceId} : ∀ {is : List Instance} {r : Replica},
    (∀ i ∈ is, i.key ≠ k) → (is.foldl Replica.put r).find k = r.find k
  | [], _, _ => rfl
  | i :: is, r, h => by
    obtain ⟨hi, h⟩ := List.forall_mem_cons.1 h
    rw [List.foldl_cons, find_foldl_put_of_ne h, Replica.find_put, if_neg (Ne.symm hi)]

theorem find_foldl_put {i : Instance} : ∀ {is : List Instance} {r : Replica},
    (∀ j ∈ is, j.key = i.key → j = i) → i ∈ is → (is.foldl Replica.put r).find i.key = some i
  | j :: is, r, h, hi => by
    have h' := (List.forall_mem_cons.1 h).2
    rw [List.foldl_cons]
    by_cases hm : i ∈ is
    · exact find_foldl_put h' hm
    · obtain rfl := (List.mem_cons.1 hi).resolve_right hm
      have hne : ∀ k ∈ is, k.key ≠ i.key := fun k hk he => by
        rw [h' k hk he] at hk
        exact hm hk
      rw [find_foldl_put_of_ne hne, Replica.find_put, if_pos rfl]

/-- What the instances depend on outside the set, executed. -/
def outside (is : List Instance) : List Instance :=
  ((is.flatMap fun i => i.deps.slots.map Dependency.id).filter (· ∉ is.map Instance.key)).map
    fun id => { newInstance id with status := .executed }

theorem mem_outside {i : Instance} (h : i ∈ outside is) :
    i.key ∉ is.map Instance.key ∧ i = { newInstance i.key with status := .executed } := by
  obtain ⟨id, hid, rfl⟩ := List.mem_map.1 h
  exact ⟨by simpa [newInstance] using (List.mem_filter.1 hid).2, rfl⟩

/-- The instances are found, and so are those outside. -/
theorem find_background (hc : CommittedSet is) {i : Instance} (hi : i ∈ is ++ outside is) :
    (holding (is ++ outside is)).find i.key = some i := by
  refine find_foldl_put (fun j hj he => ?_) hi
  rcases List.mem_append.1 hi with hi | hi <;> rcases List.mem_append.1 hj with hj | hj
  · exact List.inj_on_of_nodup_map hc.once hj hi he
  · exact absurd (List.mem_map.2 ⟨i, hi, he.symm⟩) (mem_outside hj).1
  · exact absurd (List.mem_map.2 ⟨j, hj, he⟩) (mem_outside hi).1
  · rw [(mem_outside hi).2, (mem_outside hj).2, he]

theorem background_stores (hc : CommittedSet is) : (holding (is ++ outside is)).Stores is :=
  fun i hi => ⟨i, find_background hc (List.mem_append_left _ hi), rfl, hc.committed i hi, rfl, rfl⟩

theorem background_settled (hc : CommittedSet is) : (holding (is ++ outside is)).Settled is := by
  intro u hu v hd hv
  obtain ⟨i, hi, rfl⟩ := List.mem_map.1 hu
  rw [Replica.Depends, (background_stores hc).depsOf hi] at hd
  obtain ⟨d, hd, -, rfl⟩ := hd
  have hout : ({ newInstance d.id with status := .executed } : Instance) ∈ outside is := by
    refine List.mem_map.2 ⟨d.id, List.mem_filter.2 ⟨?_, by simpa using hv⟩, rfl⟩
    exact List.mem_flatMap.2 ⟨i, hi, List.mem_map_of_mem hd⟩
  have hf := find_background hc (List.mem_append_right is hout)
  rw [Replica.hasExecuted, show d.id = ({ newInstance d.id with status := .executed } :
    Instance).key from rfl, hf]
  rfl

end Background

/-- Two executors execute the instances of a set in the same order just when no two of them in one
cycle have the same seq. -/
theorem same_order {is : List Instance} (hc : CommittedSet is) (h8 : SmallCycles is) :
    SameOrder is ↔ DistinctSeqs is := by
  refine ⟨fun hs i hi j hj hij hji he => ?_, fun hd => hd.sameOrder hc⟩
  by_contra hne
  have hr := background_stores hc
  have hx := background_settled hc
  have hik : i.key ∈ is.map Instance.key := List.mem_map_of_mem hi
  have hjk : j.key ∈ is.map Instance.key := List.mem_map_of_mem hj
  have hseq : (holding (is ++ outside is)).seqOf i.key = (holding (is ++ outside is)).seqOf j.key := by
    rw [hr.seqOf hi, hr.seqOf hj, he]
  obtain ⟨ids₁, p₁, hids₁, hf₁, hall₁, hlast₁⟩ := hr.exists_fed hc h8 hx i.key
  obtain ⟨ids₂, p₂, hids₂, hf₂, hall₂, hlast₂⟩ := hr.exists_fed hc h8 hx j.key
  have h₁ := hlast₁ j.key (hall₁ _ hjk) (hall₁ _ hik) (Ne.symm hne) hij hji hseq.ge
  have h₂ := hlast₂ i.key (hall₂ _ hik) (hall₂ _ hjk) hne hji hij hseq.le
  have := hs _ _ hr hr ids₁ ids₂ hids₁ hids₂ p₁ p₂ hf₁ hf₂ i.key j.key hij (hall₁ _ hik)
    (hall₁ _ hjk) (hall₂ _ hik) (hall₂ _ hjk)
  omega

/-- Two instances that depend on each other. Their keys share a bucket of the hash table. -/
def pair (seq seq' : ℕ) : List Instance :=
  [committedOn ⟨0, 1⟩ seq [⟨0, 2⟩], committedOn ⟨0, 2⟩ seq' [⟨0, 1⟩]]

theorem same_order_pair : SameOrder (pair 1 2) :=
  (same_order ⟨by decide +kernel, by decide +kernel, by decide +kernel, by decide +kernel,
    by decide +kernel⟩ fun l hn hl _ => (List.subperm_of_subset hn hl).length_le.trans (by decide)).2
    fun i hi j hj _ _ he => by
      have : ∀ i ∈ pair 1 2, ∀ j ∈ pair 1 2, i.seq = j.seq → i.key = j.key := by decide +kernel
      exact this i hi j hj he

/-- The map the other way round. -/
def Vertices.reverse (vs : Vertices) : Vertices where
  ids := vs.ids.reverse
  distinct := by
    rw [List.map_reverse]
    exact List.nodup_reverse.2 vs.distinct

/-- The executor receives `id` and then `id'`, and meets them in the order of arrival. -/
def arrive (r : Replica) (id id' : InstanceId) : Option Pass :=
  (feed r [id]).bind fun p =>
    let vs := (p.vertices.addNode id').1.reverse
    if Fits p.replica vs then p.receive id' vs else none

theorem fed_of_arrive {r : Replica} {id id' : InstanceId} {p : Pass}
    (h : arrive r id id' = some p) : Fed Fits r [id', id] p := by
  obtain ⟨p', hp, h⟩ := Option.bind_eq_some_iff.1 h
  dsimp only at h
  split_ifs at h with hfit
  exact .receive (fed_of_feed hp) (List.reverse_perm _) (fun _ => hfit) h

/-- With the same seq, the one received last is executed first. -/
theorem pair_differs : ¬ SameOrder (pair 1 1) := by
  intro h
  have hs : (holding (pair 1 1)).Stores (pair 1 1) := by
    unfold Replica.Stores
    decide +kernel
  have hrun : (arrive (holding (pair 1 1)) ⟨0, 1⟩ ⟨0, 2⟩).map Pass.executed
        = some [⟨0, 2⟩, ⟨0, 1⟩]
      ∧ (arrive (holding (pair 1 1)) ⟨0, 2⟩ ⟨0, 1⟩).map Pass.executed
        = some [⟨0, 1⟩, ⟨0, 2⟩] := by decide +kernel
  obtain ⟨p₁, hp₁, he₁⟩ := Option.map_eq_some_iff.1 hrun.1
  obtain ⟨p₂, hp₂, he₂⟩ := Option.map_eq_some_iff.1 hrun.2
  have := h _ _ hs hs _ _ (by decide +kernel) (by decide +kernel) p₁ p₂ (fed_of_arrive hp₁)
    (fed_of_arrive hp₂) ⟨0, 1⟩ ⟨0, 2⟩ (.single (by unfold DependsIn; decide +kernel))
  rw [he₁, he₂] at this
  revert this
  decide

end Epx
