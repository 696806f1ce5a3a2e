import Epx.Proofs.Execution

/-!
# The executor over the instances it receives

What is in the map and what is executed after any sequence of instances, each received any number
of times: the ready ones among those received are executed, the others wait.
-/

namespace Epx

/-- The replica and the map after the instances have been received. -/
structure Pass.After (r : Replica) (ids : List InstanceId) (p : Pass) : Prop where
  marked : r.Marked p.executed p.replica
  executed : ∀ v, v ∈ p.executed ↔ v ∈ ids ∧ r.Ready ids v
  waiting : ∀ v, v ∈ p.vertices.ids ↔ v ∈ ids ∧ ¬ r.Ready ids v

section Lists

variable {r : Replica} {ids all : List InstanceId} {u v id : InstanceId}

theorem Registered.mono (h : Registered r all) (hs : ids ⊆ all) : Registered r ids where
  found v hv := h.found v (hs hv)
  inRange v hv := h.inRange v (hs hv)
  apart v hv d hd he u hu := h.apart v (hs hv) d hd he u (hs hu)
  keyed v hv u hu := h.keyed v (hs hv) u (hs hu)

theorem Unexecuted.mono (h : Unexecuted r all) (hs : ids ⊆ all) : Unexecuted r ids :=
  ⟨h.toRegistered.mono hs, fun v hv => h.fresh v (hs hv)⟩

theorem Replica.Path.mono (h : r.Path ids u v) (hs : ids ⊆ all) : r.Path all u v := by
  induction h with
  | refl => exact .refl
  | tail _ h ih => exact ih.tail ⟨hs h.1, h.2⟩

/-- A path stays in the part of the list that what lies on it is in. -/
theorem Replica.Path.restrict (h : r.Path all u v)
    (hin : ∀ w ∈ all, r.Path all u w → r.Path all w v → w ∈ ids) : r.Path ids u v := by
  induction h with
  | refl => exact .refl
  | @tail w v hw hs ih =>
    refine (ih fun x hx hux hxw => hin x hx hux (hxw.tail hs)).tail ⟨?_, hs.2⟩
    exact hin v hs.1 (hw.tail hs) .refl

/-- What a ready instance leads to has been received. -/
theorem Unexecuted.path_ready (h : Unexecuted r all) (hr : r.Ready ids u) (hp : r.Path all u v) :
    r.Path ids u v := by
  induction hp with
  | refl => exact .refl
  | @tail w x _ hs ih =>
    refine ih.tail ⟨?_, hs.2⟩
    by_contra hx
    have := hr w ih x hs.2 hx
    rw [h.fresh x hs.1] at this
    cases this

theorem Unexecuted.ready_mono (h : Unexecuted r all) (hs : ids ⊆ all) (hr : r.Ready ids u) :
    r.Ready all u := fun w hw x hx hn =>
  hr w (h.path_ready hr hw) x hx fun hx' => hn (hs hx')

theorem Replica.Path.congr (h : ∀ w, w ∈ ids ↔ w ∈ all) : r.Path ids u v ↔ r.Path all u v :=
  ⟨fun hp => hp.mono fun _ hw => (h _).1 hw, fun hp => hp.mono fun _ hw => (h _).2 hw⟩

theorem Replica.Ready.congr (h : ∀ w, w ∈ ids ↔ w ∈ all) : r.Ready ids v ↔ r.Ready all v := by
  unfold Replica.Ready
  simp only [Replica.Path.congr h, h]

end Lists

section Marked

variable {r q : Replica} {ex ids : List InstanceId} (h : r.Marked ex q)
include h

theorem Replica.Marked.depends : q.Depends = r.Depends := by
  funext u v
  simp only [Replica.Depends, h.depsOf]

theorem Replica.Marked.path : q.Path ids = r.Path ids := by
  simp only [Replica.Path, h.depends]

theorem Replica.Marked.registered (hr : Registered r ids) : Registered q ids where
  found v hv := by
    obtain ⟨i, hf, hk⟩ := hr.find hv
    rw [h v]
    split_ifs
    · exact ⟨{ i with status := .executed }, by rw [hf]; rfl, hk⟩
    · exact ⟨i, hf, hk⟩
  inRange := h.depsOf ▸ hr.inRange
  apart := h.depsOf ▸ hr.apart
  keyed := hr.keyed

end Marked

section Receive

variable {r : Replica} {ids : List InstanceId} {id : InstanceId} {p : Pass} {vs : Vertices}

theorem Pass.After.hasExecuted (ha : p.After r ids) (h : Unexecuted r (id :: ids)) {x : InstanceId} :
    p.replica.hasExecuted x = true ↔ (x ∈ ids ∧ r.Ready ids x) ∨ r.hasExecuted x = true := by
  rw [← ha.executed]
  refine ha.marked.hasExecuted fun v hv => ?_
  exact h.isSome (List.mem_cons_of_mem id ((ha.executed v).1 hv).1)

/-- Over the map with the new instance, an instance is ready when it is among all received. -/
theorem Pass.After.ready_iff (ha : p.After r ids) (h : Unexecuted r (id :: ids))
    (hvs : ∀ w, w ∈ vs.ids ↔ w = id ∨ w ∈ ids ∧ ¬ r.Ready ids w) {v : InstanceId}
    (hv : v ∈ vs.ids) : p.replica.Ready vs.ids v ↔ r.Ready (id :: ids) v := by
  have hid : r.hasExecuted id = false := h.fresh id List.mem_cons_self
  have hsub : vs.ids ⊆ id :: ids := fun w hw => by
    rcases (hvs w).1 hw with rfl | hw
    · exact List.mem_cons_self
    · exact List.mem_cons_of_mem id hw.1
  -- what has been received and is not in the map is executed
  have hout : ∀ w, w ∈ id :: ids → w ∉ vs.ids → w ∈ ids ∧ r.Ready ids w := fun w hw hn => by
    rw [hvs, not_or, not_and, not_not] at hn
    have hwi := (List.mem_cons.1 hw).resolve_left hn.1
    exact ⟨hwi, hn.2 hwi⟩
  unfold Replica.Ready
  rw [ha.marked.path, ha.marked.depends]
  constructor
  · intro hr w hw y hy hyn
    have hpath : w ∈ vs.ids ∧ r.Path vs.ids v w ∨ w ∈ ids ∧ r.Ready ids w := by
      clear hy
      induction hw with
      | refl => exact .inl ⟨hv, .refl⟩
      | @tail u w _ hs ih =>
        by_cases hwv : w ∈ vs.ids
        · rcases ih with ⟨_, hu⟩ | ⟨_, hu⟩
          · exact .inl ⟨hwv, hu.tail ⟨hwv, hs.2⟩⟩
          · by_cases hwi : w ∈ ids
            · exact .inr ⟨hwi, hu.path (.single ⟨hwi, hs.2⟩)⟩
            · have hwx := hu u .refl w hs.2 hwi
              rw [(List.mem_cons.1 hs.1).resolve_right hwi, hid] at hwx
              cases hwx
        · exact .inr (hout w hs.1 hwv)
    rcases hpath with ⟨_, hwp⟩ | ⟨_, hwr⟩
    · have hx := hr w hwp y hy fun hyv => hyn (hsub hyv)
      exact ((ha.hasExecuted h).1 hx).resolve_left fun hyi =>
        hyn (List.mem_cons_of_mem id hyi.1)
    · exact hwr w .refl y hy fun hyi => hyn (List.mem_cons_of_mem id hyi)
  · intro hr w hw y hy hyn
    rw [ha.hasExecuted h]
    by_cases hyi : y ∈ id :: ids
    · exact .inl (hout y hyi hyn)
    · exact .inr (hr w (hw.mono hsub) y hy hyi)

theorem Pass.After.registered (ha : p.After r ids) (h : Unexecuted r (id :: ids))
    (hvs : ∀ w, w ∈ vs.ids ↔ w = id ∨ w ∈ ids ∧ ¬ r.Ready ids w) : Registered p.replica vs.ids :=
  ha.marked.registered (h.toRegistered.mono fun w hw =>
    List.mem_cons.2 (((hvs w).1 hw).imp_right And.left))

/-- What is executed and has come again is ready. -/
theorem Pass.After.ready_again (ha : p.After r ids) (h : Unexecuted r (id :: ids))
    (hvs : ∀ w, w ∈ vs.ids ↔ w = id ∨ w ∈ ids ∧ ¬ r.Ready ids w) :
    ∀ v ∈ vs.ids, p.replica.hasExecuted v = true → p.replica.Ready vs.ids v := fun v hv hx => by
  rw [ha.ready_iff h hvs hv]
  rcases (ha.hasExecuted h).1 hx with ⟨-, hr⟩ | hx
  · exact h.ready_mono (List.subset_cons_self id ids) hr
  · have hvi := List.mem_cons.2 (((hvs v).1 hv).imp_right And.left)
    rw [h.fresh v hvi] at hx
    cases hx

theorem Pass.After.execute (ha : p.After r ids) (h : Unexecuted r (id :: ids))
    (hvs : ∀ w, w ∈ vs.ids ↔ w = id ∨ w ∈ ids ∧ ¬ r.Ready ids w) :
    ∃ q, execute p.replica vs = some q ∧ Executes p.replica vs q :=
  execute_executes (ha.registered h hvs) (ha.ready_again h hvs)

theorem Pass.After.cons (ha : p.After r ids) (h : Unexecuted r (id :: ids))
    (hvs : ∀ w, w ∈ vs.ids ↔ w = id ∨ w ∈ ids ∧ ¬ r.Ready ids w) {q : Pass}
    (hq : Executes p.replica vs q) :
    Pass.After r (id :: ids) { q with executed := p.executed ++ q.executed } := by
  have hin : ∀ w, w ∈ q.executed ↔ w ∈ vs.ids ∧ r.Ready (id :: ids) w := fun w => by
    rw [hq.ready]
    exact and_congr_right fun hw => ha.ready_iff h hvs hw
  have hall : ∀ w, w ∈ id :: ids ↔ w ∈ vs.ids ∨ w ∈ p.executed := fun w => by
    rw [hvs, ha.executed, List.mem_cons]
    tauto
  refine ⟨ha.marked.trans hq.marked, fun v => ?_, fun v => ?_⟩
  · rw [List.mem_append, hin, hall, or_and_right, or_comm]
    refine or_congr_right ⟨fun hv => ⟨hv, ?_⟩, And.left⟩
    exact h.ready_mono (List.subset_cons_self id ids) ((ha.executed v).1 hv).2
  · show v ∈ q.vertices.ids ↔ _
    rw [hq.mem_vertices, hin]
    refine ⟨fun ⟨hv, hn⟩ => ⟨(hall v).2 (.inl hv), fun hr => hn ⟨hv, hr⟩⟩, fun ⟨hv, hn⟩ => ?_⟩
    refine ⟨((hall v).1 hv).resolve_right fun hx => hn ?_, fun hx => hn hx.2⟩
    exact h.ready_mono (List.subset_cons_self id ids) ((ha.executed v).1 hx).2

end Receive

namespace Vertices

variable {vs : Vertices} {id w : InstanceId}

theorem addNode_new (hk : ∀ v ∈ vs.ids, dhKey v = dhKey id → v = id) :
    (vs.addNode id).2 = true ↔ id ∉ vs.ids := by
  have hmem : dhKey id ∈ vs.ids.map dhKey ↔ id ∈ vs.ids := by
    refine ⟨fun h => ?_, List.mem_map_of_mem⟩
    obtain ⟨v, hv, he⟩ := List.mem_map.1 h
    exact hk v hv he ▸ hv
  unfold addNode
  split_ifs with h <;> simp [← hmem, h]

theorem mem_addNode (hk : ∀ v ∈ vs.ids, dhKey v = dhKey id → v = id) :
    w ∈ (vs.addNode id).1.ids ↔ w = id ∨ w ∈ vs.ids := by
  unfold addNode
  split_ifs with h
  · obtain ⟨u, hu, he⟩ := List.mem_map.1 h
    obtain rfl := hk u hu he
    have hsame : (vs.ids.map fun v => if dhKey v = dhKey u then u else v) = vs.ids := by
      refine (List.map_congr_left fun v hv => ?_).trans (List.map_id _)
      split_ifs with hv'
      · exact (hk v hv hv').symm
      · rfl
    show w ∈ vs.ids.map _ ↔ _
    rw [hsame]
    exact ⟨.inr, fun hw => hw.elim (fun hw => hw ▸ hu) id⟩
  · exact List.mem_cons

end Vertices

section Fed

variable {ok : Replica → Vertices → Prop} {r : Replica} {ids : List InstanceId} {id : InstanceId}
  {p p' : Pass} {vs : Vertices}

theorem Pass.After.keyed (ha : p.After r ids) (h : Unexecuted r (id :: ids)) :
    ∀ v ∈ p.vertices.ids, dhKey v = dhKey id → v = id := fun v hv =>
  h.keyed v (List.mem_cons_of_mem id ((ha.waiting v).1 hv).1) id List.mem_cons_self

/-- The map of the next pass: the instances that wait, and the one received. -/
theorem Pass.After.mem_map (ha : p.After r ids) (h : Unexecuted r (id :: ids))
    (hvs : vs.ids.Perm (p.vertices.addNode id).1.ids) (w : InstanceId) :
    w ∈ vs.ids ↔ w = id ∨ w ∈ ids ∧ ¬ r.Ready ids w := by
  rw [hvs.mem_iff, Vertices.mem_addNode (ha.keyed h), ha.waiting]

theorem Pass.After.receive (ha : p.After r ids) (h : Unexecuted r (id :: ids))
    (hvs : vs.ids.Perm (p.vertices.addNode id).1.ids) (hp : p.receive id vs = some p') :
    p'.After r (id :: ids) := by
  have hmap := ha.mem_map h hvs
  unfold Pass.receive at hp
  split_ifs at hp with hnew
  · obtain ⟨q, he, hq⟩ := ha.execute h hmap
    rw [he, Option.map_some, Option.some.injEq] at hp
    exact hp ▸ ha.cons h hmap hq
  · rw [Option.some.injEq] at hp
    rw [Vertices.addNode_new (ha.keyed h), not_not, ha.waiting] at hnew
    have hsame : ∀ w, w ∈ id :: ids ↔ w ∈ ids := fun w =>
      ⟨fun hw => (List.mem_cons.1 hw).elim (fun hw => hw ▸ hnew.1) fun hw => hw,
        List.mem_cons_of_mem id⟩
    subst hp
    refine ⟨ha.marked, fun v => ?_, fun v => ?_⟩
    · rw [ha.executed, hsame, Replica.Ready.congr hsame]
    · rw [hmap, hsame, Replica.Ready.congr hsame]
      exact ⟨fun hv => hv.elim (fun hv => hv ▸ hnew) fun hv => hv, .inr⟩

/-- The executor can take any instance that is registered. -/
theorem Pass.After.exists_receive (ha : p.After r ids) (h : Unexecuted r (id :: ids))
    (hvs : vs.ids.Perm (p.vertices.addNode id).1.ids) : ∃ p', p.receive id vs = some p' := by
  unfold Pass.receive
  split_ifs
  · obtain ⟨q, hq, -⟩ := ha.execute h (ha.mem_map h hvs)
    exact ⟨_, by rw [hq, Option.map_some]⟩
  · exact ⟨_, rfl⟩

theorem Fed.mono {ok' : Replica → Vertices → Prop} (hf : Fed ok r ids p)
    (h : ∀ q vs, ok q vs → ok' q vs) : Fed ok' r ids p := by
  induction hf with
  | start => exact .start
  | receive _ hvs hok hp ih => exact .receive ih hvs (fun hnew => h _ _ (hok hnew)) hp

/-- After any sequence of instances, the ready ones are executed and the others wait. -/
theorem Fed.after (hf : Fed ok r ids p) (h : Unexecuted r ids) : p.After r ids := by
  induction hf with
  | start => exact ⟨.refl r, by simp, by simp [Vertices.empty]⟩
  | receive _ hvs _ hp ih =>
    exact (ih (h.mono (List.subset_cons_self _ _))).receive h hvs hp

end Fed

section Order

variable {ok : Replica → Vertices → Prop} {r : Replica} {ids all : List InstanceId}
  {id x y : InstanceId} {p p' q : Pass} {vs : Vertices}

/-- What is executed leads to nothing that is not. -/
theorem Pass.After.closed (ha : p.After r ids) (h : Unexecuted r all) (hx : x ∈ p.executed)
    (hp : r.Path all x y) : y ∈ p.executed := by
  obtain ⟨hxi, hr⟩ := (ha.executed x).1 hx
  have hp := h.path_ready hr hp
  exact (ha.executed y).2 ⟨hp.mem hxi, hr.path hp⟩

theorem Pass.After.fresh (ha : p.After r ids) (hid : id ∉ ids)
    (hvs : ∀ w, w ∈ vs.ids ↔ w = id ∨ w ∈ ids ∧ ¬ r.Ready ids w) (hx : x ∈ p.executed) :
    x ∉ vs.ids := by
  obtain ⟨hxi, hr⟩ := (ha.executed x).1 hx
  rw [hvs]
  rintro (rfl | ⟨-, hn⟩)
  · exact hid hxi
  · exact hn hr

/-- Between two instances executed in one pass, the dependencies are those in its map. -/
theorem Pass.After.path_pass (ha : p.After r ids) (h : Unexecuted r all) (hs : id :: ids ⊆ all)
    (hid : id ∉ ids) (hvs : ∀ w, w ∈ vs.ids ↔ w = id ∨ w ∈ ids ∧ ¬ r.Ready ids w)
    (hq : Executes p.replica vs q) (hx : x ∈ q.executed) (hy : y ∈ q.executed)
    (hp : r.Path all x y) : p.replica.Path vs.ids x y := by
  rw [ha.marked.path]
  obtain ⟨hxv, hxr⟩ := (hq.ready x).1 hx
  have hyv := ((hq.ready y).1 hy).1
  rw [ha.ready_iff (h.mono hs) hvs hxv] at hxr
  refine hp.restrict fun w _ hxw hwy => ?_
  have hwi : w ∈ id :: ids := (h.path_ready hxr hxw).mem
    (List.mem_cons.2 (((hvs x).1 hxv).imp_right And.left))
  by_contra hwv
  have hwx : w ∈ p.executed := by
    rw [hvs, not_or, not_and, not_not] at hwv
    have hwi := (List.mem_cons.1 hwi).resolve_left hwv.1
    exact (ha.executed w).2 ⟨hwi, hwv.2 hwi⟩
  exact ha.fresh hid hvs (ha.closed h hwx hwy) hyv

/-- What holds of the pairs executed one after the other in a pass, and of any two of which the
first does not lead to the second, holds along a run. -/
theorem Fed.pairwise {R : InstanceId → InstanceId → Prop} (hf : Fed ok r ids p)
    (h : Unexecuted r all) (hs : ids ⊆ all) (hn : ids.Nodup)
    (hR : ∀ x y, ¬ r.Path all x y → R x y)
    (hstep : ∀ (ids) (id) (p : Pass) (vs q), p.After r ids → id :: ids ⊆ all → id ∉ ids →
      (∀ w, w ∈ vs.ids ↔ w = id ∨ w ∈ ids ∧ ¬ r.Ready ids w) → ok p.replica vs →
      execute p.replica vs = some q → Executes p.replica vs q → q.executed.Pairwise R) :
    p.executed.Nodup ∧ p.executed.Pairwise R := by
  induction hf with
  | start => exact ⟨.nil, .nil⟩
  | @receive ids p p' id vs hf hvs hok hp ih =>
    obtain ⟨hid, hn⟩ := List.nodup_cons.1 hn
    have hsi : ids ⊆ all := fun w hw => hs (List.mem_cons_of_mem id hw)
    obtain ⟨hnd, hpw⟩ := ih hsi hn
    have ha := hf.after (h.mono hsi)
    have hmap := ha.mem_map (h.mono hs) hvs
    unfold Pass.receive at hp
    split_ifs at hp with hnew
    · obtain ⟨q, he, hq⟩ := ha.execute (h.mono hs) hmap
      rw [he, Option.map_some, Option.some.injEq] at hp
      subst hp
      have hnot : ∀ x ∈ p.executed, ∀ y ∈ q.executed, ¬ r.Path all x y := fun x hx y hy hxy =>
        ha.fresh hid hmap (ha.closed h hx hxy) ((hq.ready y).1 hy).1
      refine ⟨List.nodup_append.2 ⟨hnd, hq.once, fun x hx y hy hxy => ?_⟩,
        List.pairwise_append.2 ⟨hpw, ?_, fun x hx y hy => hR x y (hnot x hx y hy)⟩⟩
      · exact hnot x hx y hy (hxy ▸ .refl)
      · exact hstep ids id p vs q ha hs hid hmap (hok hnew) he hq
    · rw [Option.some.injEq] at hp
      subst hp
      exact ⟨hnd, hpw⟩

end Order

end Epx
