import Epx.Proofs.Components

/-!
# A pass of the executor

`execute` on registered vertices. A component goes when every dependency
of its members is in it or executed, and since the components come in the order of their
dependencies that is when no path through the map leads to a dependency outside that is not
executed.
-/

namespace Epx

/-- `u` has `v` in its dependency array. -/
def Replica.Depends (r : Replica) (u v : InstanceId) : Prop :=
  ∃ d ∈ r.depsOf u, ¬ d.Empty ∧ d.id = v

instance (r : Replica) (u v : InstanceId) : Decidable (r.Depends u v) :=
  inferInstanceAs (Decidable (∃ _ ∈ _, _))

/-- `u` depends on `v` through instances of the list, or is `v`. -/
def Replica.Path (r : Replica) (ids : List InstanceId) : InstanceId → InstanceId → Prop :=
  Relation.ReflTransGen fun u v => v ∈ ids ∧ r.Depends u v

/-- No path through the list leads to a dependency outside it that is not executed. -/
def Replica.Ready (r : Replica) (ids : List InstanceId) (v : InstanceId) : Prop :=
  ∀ w, r.Path ids v w → ∀ id, r.Depends w id → id ∉ ids → r.hasExecuted id = true

/-- The instances are registered, their dependencies have indexes, and `dh_key` tells all these
from the instances. -/
structure Registered (r : Replica) (ids : List InstanceId) : Prop where
  found : ∀ v ∈ ids, ∃ i ∈ r.find v, i.key = v
  inRange : ∀ v ∈ ids, ∀ d ∈ r.depsOf v, ¬ d.Empty → d.id.replicaId < N
  apart : ∀ v ∈ ids, ∀ d ∈ r.depsOf v, ¬ d.Empty → ∀ u ∈ ids, dhKey d.id = dhKey u → d.id = u
  keyed : ∀ v ∈ ids, ∀ u ∈ ids, dhKey v = dhKey u → v = u

/-- None of them is executed. -/
structure Unexecuted (r : Replica) (ids : List InstanceId) : Prop extends Registered r ids where
  fresh : ∀ v ∈ ids, r.hasExecuted v = false

/-- `q` is `r` with the instances of the list executed. -/
def Replica.Marked (r : Replica) (ids : List InstanceId) (q : Replica) : Prop :=
  ∀ id, q.find id =
    if id ∈ ids then (r.find id).map fun i => { i with status := .executed } else r.find id

/-- What a pass does: the instances that are ready go, in the order of their dependencies and, in
a cycle, of their seq. -/
structure Executes (r : Replica) (vs : Vertices) (p : Pass) : Prop where
  once : p.executed.Nodup
  ready : ∀ v, v ∈ p.executed ↔ v ∈ vs.ids ∧ r.Ready vs.ids v
  rest : p.vertices.ids = vs.ids.filter (· ∉ p.executed)
  marked : r.Marked p.executed p.replica
  first : ∀ u ∈ p.executed, ∀ v, r.Path vs.ids u v → ¬ r.Path vs.ids v u →
    p.executed.idxOf v < p.executed.idxOf u
  seq : ∀ u ∈ p.executed, ∀ v ∈ p.executed, r.Path vs.ids u v → r.Path vs.ids v u →
    p.executed.idxOf u < p.executed.idxOf v → r.seqOf u ≤ r.seqOf v

theorem pairwise_iff_idxOf {α : Type} [DecidableEq α] {R : α → α → Prop} {l : List α}
    (hn : l.Nodup) :
    l.Pairwise R ↔ ∀ u ∈ l, ∀ v ∈ l, l.idxOf u < l.idxOf v → R u v := by
  rw [List.pairwise_iff_getElem]
  constructor
  · intro h u hu v hv hlt
    have := h _ _ (List.idxOf_lt_length_iff.2 hu) (List.idxOf_lt_length_iff.2 hv) hlt
    rwa [List.getElem_idxOf, List.getElem_idxOf] at this
  · intro h i j hi hj hlt
    refine h _ (List.getElem_mem hi) _ (List.getElem_mem hj) ?_
    rwa [hn.idxOf_getElem, hn.idxOf_getElem]

section SortScc

variable (seq : InstanceId → ℕ)

theorem insertNode_perm (d : InstanceId) (xs : List InstanceId) :
    (insertNode seq d xs).Perm (d :: xs) := by
  induction xs with
  | nil => exact .refl _
  | cons x xs ih =>
    unfold insertNode
    split_ifs
    · exact (ih.cons x).trans (.swap d x xs)
    · exact .refl _

theorem insertNode_sorted {d : InstanceId} {xs : List InstanceId}
    (h : xs.Pairwise fun a b => seq b ≤ seq a) :
    (insertNode seq d xs).Pairwise fun a b => seq b ≤ seq a := by
  induction xs with
  | nil => exact List.pairwise_singleton _ _
  | cons x xs ih =>
    obtain ⟨hx, hxs⟩ := List.pairwise_cons.1 h
    unfold insertNode
    split_ifs with hlt
    · refine List.pairwise_cons.2 ⟨fun y hy => ?_, ih hxs⟩
      rcases List.mem_cons.1 ((insertNode_perm seq d xs).mem_iff.1 hy) with rfl | hy
      · exact hlt.le
      · exact hx y hy
    · refine List.pairwise_cons.2 ⟨fun y hy => ?_, h⟩
      rcases List.mem_cons.1 hy with rfl | hy
      · omega
      · have := hx y hy
        omega

theorem sortLoop_perm : ∀ ds sorted : List InstanceId,
    (sortLoop seq sorted ds).Perm (ds ++ sorted)
  | [], _ => .refl _
  | d :: ds, sorted =>
    calc
      (sortLoop seq (insertNode seq d sorted) ds).Perm (ds ++ insertNode seq d sorted) :=
        sortLoop_perm ds _
      List.Perm _ (ds ++ d :: sorted) := (insertNode_perm seq d sorted).append_left ds
      List.Perm _ (d :: ds ++ sorted) := List.perm_middle

theorem sortLoop_sorted : ∀ ds sorted : List InstanceId,
    (sorted.Pairwise fun a b => seq b ≤ seq a) →
    (sortLoop seq sorted ds).Pairwise fun a b => seq b ≤ seq a
  | [], _, h => h
  | _ :: ds, _, h => sortLoop_sorted ds _ (insertNode_sorted seq h)

theorem sortScc_perm (s : List InstanceId) : (sortScc seq s).Perm s :=
  ((sortLoop seq [] s).reverse_perm).trans (by simpa using sortLoop_perm seq s [])

theorem sortScc_sorted (s : List InstanceId) :
    (sortScc seq s).Pairwise fun a b => seq a ≤ seq b :=
  List.pairwise_reverse.2 (sortLoop_sorted seq s [] .nil)

theorem insertNode_split (d : InstanceId) (xs : List InstanceId) :
    ∃ as bs, insertNode seq d xs = as ++ d :: bs ∧ xs = as ++ bs ∧ ∀ a ∈ as, seq d < seq a := by
  induction xs with
  | nil => exact ⟨[], [], rfl, rfl, by simp⟩
  | cons x xs ih =>
    unfold insertNode
    split_ifs with hlt
    · obtain ⟨as, bs, he, hxs, has⟩ := ih
      exact ⟨x :: as, bs, by rw [he, List.cons_append], by rw [hxs, List.cons_append],
        List.forall_mem_cons.2 ⟨hlt, has⟩⟩
    · exact ⟨[], x :: xs, rfl, rfl, by simp⟩

theorem sortLoop_append : ∀ (ds ds' sorted : List InstanceId),
    sortLoop seq sorted (ds ++ ds') = sortLoop seq (sortLoop seq sorted ds) ds'
  | [], _, _ => rfl
  | _ :: ds, ds', _ => sortLoop_append ds ds' _

/-- The last node stays behind those with the same seq. -/
theorem sortScc_last (u : InstanceId) (xs : List InstanceId) :
    ∃ as bs, sortScc seq (xs ++ [u]) = as ++ u :: bs ∧ ∀ v ∈ xs, seq v ≤ seq u → v ∈ as := by
  obtain ⟨as, bs, he, hxs, has⟩ := insertNode_split seq u (sortLoop seq [] xs)
  refine ⟨bs.reverse, as.reverse, ?_, fun v hv hle => ?_⟩
  · rw [sortScc, sortLoop_append]
    simp [sortLoop, he]
  · have hmem : v ∈ as ++ bs := by
      rw [← hxs, (sortLoop_perm seq xs []).mem_iff, List.append_nil]
      exact hv
    refine List.mem_reverse.2 ((List.mem_append.1 hmem).resolve_left fun hva => ?_)
    have := has v hva
    omega

end SortScc

/-- The replica and the map with the instances of `p.executed` executed. -/
structure Pass.Of (r : Replica) (vs : Vertices) (p : Pass) : Prop where
  known : ∀ v ∈ p.executed, v ∈ vs.ids
  rest : p.vertices.ids = vs.ids.filter (· ∉ p.executed)
  marked : r.Marked p.executed p.replica

section Marked

variable {r q q' : Replica} {ids ids' : List InstanceId}

theorem Replica.Marked.refl (r : Replica) : r.Marked [] r := fun id => by simp

theorem Replica.Marked.trans (h : r.Marked ids q) (h' : q.Marked ids' q') :
    r.Marked (ids ++ ids') q' := fun id => by
  rw [h' id, h id]
  by_cases hi : id ∈ ids <;> by_cases hi' : id ∈ ids' <;> simp [hi, hi', Function.comp_def]

theorem Replica.Marked.depsOf (h : r.Marked ids q) : q.depsOf = r.depsOf := by
  funext id
  unfold Replica.depsOf
  rw [h id]
  split_ifs
  · cases r.find id <;> rfl
  · rfl

theorem Replica.Marked.seqOf (h : r.Marked ids q) : q.seqOf = r.seqOf := by
  funext id
  unfold Replica.seqOf
  rw [h id]
  split_ifs
  · cases r.find id <;> rfl
  · rfl

theorem Replica.Marked.hasExecuted (h : r.Marked ids q) (hr : ∀ v ∈ ids, (r.find v).isSome)
    {id : InstanceId} : q.hasExecuted id = true ↔ id ∈ ids ∨ r.hasExecuted id = true := by
  unfold Replica.hasExecuted
  rw [h id]
  split_ifs with hid
  · obtain ⟨i, hf⟩ := Option.isSome_iff_exists.1 (hr id hid)
    simp [hid, hf, isState]
  · simp [hid]

theorem setExecuted_marked {v : InstanceId} (h : ∃ i ∈ r.find v, i.key = v) :
    r.Marked [v] (r.setExecuted v) := fun id => by
  obtain ⟨i, hf, rfl⟩ := h
  unfold Replica.setExecuted
  rw [Option.mem_def.1 hf, Option.map_some, Option.getD_some, Replica.find_put]
  simp only [List.mem_singleton]
  split_ifs with hid
  · rw [hid, Option.mem_def.1 hf, Option.map_some]
  · rfl

end Marked

section Pass

variable {r : Replica} {ids : List InstanceId} {vs : Vertices} {p : Pass} {v : InstanceId}

theorem Registered.find (h : Registered r ids) (hv : v ∈ ids) :
    ∃ i, r.find v = some i ∧ i.key = v := h.found v hv

theorem Registered.isSome (h : Registered r ids) (hv : v ∈ ids) : (r.find v).isSome := by
  obtain ⟨i, hf, -⟩ := h.find hv
  rw [hf, Option.isSome_some]

/-- In the map, the edges are the dependencies. -/
theorem Registered.edge_iff (h : Registered r vs.ids) (hv : v ∈ vs.ids) {w : InstanceId} :
    vs.Edge r.depsOf v w ↔ w ∈ vs.ids ∧ r.Depends v w := by
  refine and_congr_right fun hw => ⟨fun ⟨d, hd, he, hk⟩ => ?_, fun ⟨d, hd, he, hi⟩ => ?_⟩
  · exact ⟨d, hd, he, h.apart v hv d hd he w hw hk⟩
  · exact ⟨d, hd, he, by rw [hi]⟩

theorem Replica.Path.mem {w : InstanceId} (h : r.Path ids v w) (hv : v ∈ ids) : w ∈ ids := by
  induction h with
  | refl => exact hv
  | tail _ hs => exact hs.1

theorem Registered.linked_iff (h : Registered r vs.ids) (hv : v ∈ vs.ids) {w : InstanceId} :
    vs.Linked r.depsOf v w ↔ r.Path vs.ids v w := by
  constructor
  · intro hl
    induction hl with
    | refl => exact .refl
    | tail hl he ih => exact ih.tail ((h.edge_iff (Vertices.Linked.mem hl hv)).1 he)
  · intro hp
    induction hp with
    | refl => exact .refl
    | tail hp hs ih => exact ih.tail ((h.edge_iff (Replica.Path.mem hp hv)).2 hs)

namespace Pass.Of

theorem start (r : Replica) (vs : Vertices) : Pass.Of r vs ⟨r, vs, []⟩ where
  known := by simp
  rest := by simp
  marked := .refl r

theorem hasExecuted (hp : p.Of r vs) (h : Registered r vs.ids) {id : InstanceId} :
    p.replica.hasExecuted id = true ↔ id ∈ p.executed ∨ r.hasExecuted id = true :=
  hp.marked.hasExecuted fun v hv => h.isSome (hp.known v hv)

theorem mem_vertices (hp : p.Of r vs) : v ∈ p.vertices.ids ↔ v ∈ vs.ids ∧ v ∉ p.executed := by
  simp [hp.rest]

theorem run (hp : p.Of r vs) (h : Registered r vs.ids) (hv : v ∈ vs.ids) : (p.run v).Of r vs where
  known u hu := by
    rcases List.mem_append.1 hu with hu | hu
    · exact hp.known u hu
    · rwa [List.mem_singleton.1 hu]
  rest := by
    show p.vertices.ids.filter _ = _
    rw [hp.rest, List.filter_filter]
    refine List.filter_congr fun u hu => ?_
    have hk : dhKey u = dhKey v ↔ u = v := ⟨Vertices.eq_of_dhKey hu hv, congrArg dhKey⟩
    simp only [Pass.run, List.mem_append, List.mem_singleton, not_or, ne_eq, hk]
    rw [Bool.and_comm, ← Bool.decide_and]
  marked := by
    obtain ⟨i, hf, hk⟩ := h.find hv
    exact hp.marked.trans (setExecuted_marked (by rw [hp.marked v]; split_ifs <;> simp [hf, hk]))

theorem foldl (h : Registered r vs.ids) (xs : List InstanceId) : ∀ {p : Pass}, p.Of r vs →
    (∀ v ∈ xs, v ∈ vs.ids) →
    (xs.foldl Pass.run p).Of r vs ∧ (xs.foldl Pass.run p).executed = p.executed ++ xs := by
  induction xs with
  | nil => exact fun hp _ => ⟨hp, (List.append_nil _).symm⟩
  | cons x xs ih =>
    intro p hp hxs
    obtain ⟨ho, he⟩ := ih (hp.run h (hxs x List.mem_cons_self))
      fun v hv => hxs v (List.mem_cons_of_mem x hv)
    exact ⟨ho, he.trans (List.append_assoc ..)⟩

end Pass.Of

theorem allReady_spec {α : Type} {ready : α → Option Bool} {P : α → Prop} : ∀ xs : List α,
    (∀ x ∈ xs, ∃ b, ready x = some b ∧ (b = true ↔ P x)) →
    ∃ b, allReady ready xs = some b ∧ (b = true ↔ ∀ x ∈ xs, P x)
  | [], _ => ⟨true, rfl, by simp⟩
  | x :: xs, h => by
    obtain ⟨b, hb, hx⟩ := h x List.mem_cons_self
    obtain ⟨b', hb', hxs⟩ := allReady_spec xs fun y hy => h y (List.mem_cons_of_mem x hy)
    unfold allReady
    rw [hb, Option.bind_some, hb']
    cases b with
    | false => exact ⟨false, rfl, by simpa using fun hP => absurd (hx.2 hP) (by simp)⟩
    | true => exact ⟨b', rfl, by simp [hxs, hx.1 rfl]⟩

section Scc

variable {c : List InstanceId}

theorem Pass.Of.depReady (hp : p.Of r vs) (h : Registered r vs.ids) (hc : ∀ v ∈ c, v ∈ p.vertices.ids)
    (hv : v ∈ vs.ids) {d : Dependency} (hd : d ∈ r.depsOf v) :
    ∃ b, depReady p.replica p.vertices c d = some b ∧
      (b = true ↔ (¬ d.Empty → d.id ∈ c ∨ p.replica.hasExecuted d.id = true)) := by
  unfold Epx.depReady
  split_ifs with he hg hN
  · exact ⟨true, rfl, by simp [he]⟩
  · obtain ⟨w, hw, hwc⟩ := (Option.any_eq_true _ _).1 hg
    obtain ⟨hwv, hk⟩ := Vertices.get_eq_some.1 hw
    have hwc : w ∈ c := by simpa using hwc
    have := h.apart v hv d hd he w (hp.mem_vertices.1 hwv).1 hk.symm
    exact ⟨true, rfl, by simp [this, hwc]⟩
  · have := h.inRange v hv d hd he
    omega
  · have hdc : d.id ∉ c := fun hdc => hg ((Option.any_eq_true _ _).2
      ⟨d.id, Vertices.get_eq_some.2 ⟨hc d.id hdc, rfl⟩, by simpa using hdc⟩)
    exact ⟨_, rfl, by simp [he, hdc]⟩

/-- The loops of `execute_scc` let a component go when all that its members depend on is in it or
executed. -/
theorem Pass.Of.sccReady (hp : p.Of r vs) (h : Registered r vs.ids)
    (hc : ∀ v ∈ c, v ∈ p.vertices.ids) :
    ∃ b, sccReady p.replica p.vertices c = some b ∧ (b = true ↔ ∀ v ∈ c, ∀ id,
      r.Depends v id → id ∈ c ∨ p.replica.hasExecuted id = true) := by
  unfold Epx.sccReady
  rw [hp.marked.depsOf]
  refine allReady_spec c fun v hv => ?_
  obtain ⟨b, hb, hiff⟩ := allReady_spec (r.depsOf v) fun d hd =>
    hp.depReady h hc (hp.mem_vertices.1 (hc v hv)).1 hd
  refine ⟨b, hb, hiff.trans ⟨fun hall id ⟨d, hd, he, hid⟩ => ?_, fun hall d hd he => ?_⟩⟩
  · exact hid ▸ hall d hd he
  · exact hall d.id ⟨d, hd, he, rfl⟩

end Scc

/-- The pass so far, with the components of `done` dealt with. -/
structure Pass.Upto (r : Replica) (vs : Vertices) (done : List (List InstanceId)) (p : Pass) :
    Prop where
  of : p.Of r vs
  once : p.executed.Nodup
  ready : ∀ v, v ∈ p.executed ↔ v ∈ done.flatten ∧ r.Ready vs.ids v
  order : p.executed.Pairwise fun u v => r.Path vs.ids u v → r.Path vs.ids v u ∧ r.seqOf u ≤ r.seqOf v
  sorted : ∀ c ∈ done, (∀ v ∈ c, r.Ready vs.ids v) → sortScc r.seqOf c <:+: p.executed

theorem Replica.Ready.path {w : InstanceId} (h : r.Ready ids v) (hp : r.Path ids v w) :
    r.Ready ids w := fun u hu => h u (hp.trans hu)

section Component

variable {cs l₁ l₂ : List (List InstanceId)} {c : List InstanceId}

/-- The test of `execute_scc` on the next component is whether its members are ready. -/
theorem Pass.Upto.ready_iff (hp : p.Upto r vs l₁) (h : Registered r vs.ids)
    (ha : ∀ v ∈ vs.ids, r.hasExecuted v = true → r.Ready vs.ids v)
    (hcs : Components vs r.depsOf cs) (he : cs = l₁ ++ c :: l₂) :
    (∀ v ∈ c, ∀ id, r.Depends v id → id ∈ c ∨ p.replica.hasExecuted id = true) ↔
      ∀ v ∈ c, r.Ready vs.ids v := by
  have hmem : ∀ v ∈ c, v ∈ vs.ids := fun v hv => hcs.mem (by simp [he]) hv
  constructor
  · intro hall v hv w hw id hid hout
    -- on a path from the component, each vertex is in it or ready
    have hpath : w ∈ c ∨ r.Ready vs.ids w := by
      clear hid
      induction hw with
      | refl => exact .inl hv
      | @tail u w hu hs ih =>
        rcases ih with huc | hur
        · rcases hall u huc w hs.2 with hwc | hwx
          · exact .inl hwc
          · rcases (hp.of.hasExecuted h).1 hwx with hwx | hwx
            · exact .inr ((hp.ready w).1 hwx).2
            · exact .inr (ha w hs.1 hwx)
        · exact .inr (hur.path (.single hs))
    rcases hpath with hwc | hwr
    · rcases hall w hwc id hid with hic | hix
      · exact absurd (hmem id hic) hout
      · refine ((hp.of.hasExecuted h).1 hix).resolve_left fun hx => ?_
        exact hout (hp.of.known id hx)
    · exact hwr w .refl id hid hout
  · intro hall v hv id hid
    by_cases hin : id ∈ vs.ids
    · have hstep : r.Path vs.ids v id := .single ⟨hin, hid⟩
      rcases hcs.ordered l₁ c l₂ he v hv id ((h.linked_iff (hmem v hv)).2 hstep) with hic | hic
      · exact .inl hic
      · refine .inr ((hp.of.hasExecuted h).2 (.inl ((hp.ready id).2 ⟨?_, (hall v hv).path hstep⟩)))
        exact List.mem_flatten.2 hic
    · exact .inr ((hp.of.hasExecuted h).2 (.inr (hall v hv v .refl id hid hin)))

theorem Pass.Upto.executeScc (hp : p.Upto r vs l₁) (h : Registered r vs.ids)
    (ha : ∀ v ∈ vs.ids, r.hasExecuted v = true → r.Ready vs.ids v)
    (hcs : Components vs r.depsOf cs) (he : cs = l₁ ++ c :: l₂) :
    ∃ p', p.executeScc c = some p' ∧ p'.Upto r vs (l₁ ++ [c]) := by
  have hmem : ∀ v ∈ c, v ∈ vs.ids := fun v hv => hcs.mem (by simp [he]) hv
  have hnot : ∀ v ∈ c, v ∉ p.executed := fun v hv hx =>
    hcs.not_mem he hv ((hp.ready v).1 hx).1
  obtain ⟨b, hb, hiff⟩ := hp.of.sccReady h fun v hv =>
    hp.of.mem_vertices.2 ⟨hmem v hv, hnot v hv⟩
  rw [hp.ready_iff h ha hcs he] at hiff
  unfold Pass.executeScc
  rw [hb, Option.map_some, hp.of.marked.seqOf]
  refine ⟨_, rfl, ?_⟩
  have hflat : ∀ v, v ∈ (l₁ ++ [c]).flatten ↔ v ∈ l₁.flatten ∨ v ∈ c := by simp
  cases b with
  | false =>
    -- the members of a component are ready together
    have hno : ∀ v ∈ c, ¬ r.Ready vs.ids v := fun v hv hr => by
      have hall : ∀ w ∈ c, r.Ready vs.ids w := fun w hw =>
        hr.path ((h.linked_iff (hmem v hv)).1 ((hcs.strong c (by simp [he]) v hv w).1 hw).1)
      simpa using hiff.2 hall
    refine { hp with ready := fun v => ?_, sorted := fun d hd hall => ?_ }
    · rw [if_neg (by simp), hp.ready, hflat, or_and_right]
      exact (or_iff_left fun ⟨hv, hr⟩ => hno v hv hr).symm
    · rcases List.mem_append.1 hd with hd | hd
      · exact hp.sorted d hd hall
      · obtain rfl := List.mem_singleton.1 hd
        obtain ⟨v, hv⟩ := List.exists_mem_of_ne_nil d (hcs.nonempty d (by simp [he]))
        exact absurd (hall v hv) (hno v hv)
  | true =>
    have hperm := sortScc_perm r.seqOf c
    obtain ⟨ho, hx⟩ := hp.of.foldl h (sortScc r.seqOf c) fun v hv => hmem v (hperm.mem_iff.1 hv)
    rw [if_pos rfl]
    refine ⟨ho, ?_, fun v => ?_, ?_, fun d hd hall => ?_⟩
    · rw [hx, List.nodup_append]
      refine ⟨hp.once, hperm.nodup_iff.2 (hcs.nodup (by simp [he])), fun u hu v hv huv => ?_⟩
      exact hnot v (hperm.mem_iff.1 hv) (huv ▸ hu)
    · rw [hx, List.mem_append, hp.ready, hperm.mem_iff, hflat, or_and_right]
      exact or_congr_right ⟨fun hv => ⟨hv, hiff.1 rfl v hv⟩, And.left⟩
    · rw [hx, List.pairwise_append]
      refine ⟨hp.order, ?_, fun u hu v hv huv => ?_⟩
      · refine (List.Pairwise.and_mem.1 (sortScc_sorted r.seqOf c)).imp
          fun ⟨hu, hv, hle⟩ _ => ⟨?_, hle⟩
        rw [hperm.mem_iff] at hu hv
        exact (h.linked_iff (hmem _ hv)).1 ((hcs.strong c (by simp [he]) _ hv _).1 hu).1
      · -- nothing executed before depends on the component
        have hul := ((hp.ready u).1 hu).1
        have hvl := hcs.closed he hul ((h.linked_iff (hp.of.known u hu)).2 huv)
        exact absurd hvl (hcs.not_mem he (hperm.mem_iff.1 hv))
    · rw [hx]
      rcases List.mem_append.1 hd with hd | hd
      · exact (hp.sorted d hd hall).trans (List.prefix_append _ _).isInfix
      · obtain rfl := List.mem_singleton.1 hd
        exact (List.suffix_append _ _).isInfix

theorem Pass.Upto.executeAll (h : Registered r vs.ids)
    (ha : ∀ v ∈ vs.ids, r.hasExecuted v = true → r.Ready vs.ids v) (hcs : Components vs r.depsOf cs) :
    ∀ (l₂ l₁ : List (List InstanceId)) {p : Pass}, p.Upto r vs l₁ → cs = l₁ ++ l₂ →
      ∃ p', p.executeAll l₂ = some p' ∧ p'.Upto r vs cs
  | [], l₁, p, hp, he => by
    rw [List.append_nil] at he
    exact ⟨p, rfl, he ▸ hp⟩
  | c :: l₂, l₁, p, hp, he => by
    obtain ⟨p₁, h₁, hp₁⟩ := hp.executeScc h ha hcs he
    obtain ⟨p', h', hp'⟩ := executeAll h ha hcs l₂ (l₁ ++ [c]) hp₁ (by simp [he])
    exact ⟨p', by rw [Pass.executeAll, h₁, Option.bind_some, h'], hp'⟩

end Component

/-- `execute` ends, with the components that `strong_connect` finds dealt with. -/
theorem execute_upto (h : Registered r vs.ids)
    (ha : ∀ v ∈ vs.ids, r.hasExecuted v = true → r.Ready vs.ids v) {s : Tarjan.Search InstanceId}
    (hs : strongConnect vs r.depsOf = some s) : ∃ p, execute r vs = some p ∧ p.Upto r vs s.sccs := by
  have hfound : ∀ v ∈ vs.ids, (r.find v).isSome := fun v hv => h.isSome hv
  have hstart : Pass.Upto r vs [] ⟨r, vs, []⟩ := ⟨.start r vs, .nil, by simp, .nil, by simp⟩
  obtain ⟨p, hrun, hp⟩ :=
    Pass.Upto.executeAll h ha (components_of_strongConnect hs) s.sccs [] hstart rfl
  exact ⟨p, by rw [execute, if_pos hfound, hs, Option.bind_some, hrun], hp⟩

/-- A pass over a map in which what is executed already is ready. -/
theorem execute_executes (h : Registered r vs.ids)
    (ha : ∀ v ∈ vs.ids, r.hasExecuted v = true → r.Ready vs.ids v) :
    ∃ p, execute r vs = some p ∧ Executes r vs p := by
  obtain ⟨s, hs⟩ := exists_strongConnect vs r.depsOf
  obtain ⟨p, he, hp⟩ := execute_upto h ha hs
  have hready : ∀ v, v ∈ p.executed ↔ v ∈ vs.ids ∧ r.Ready vs.ids v := fun v => by
    rw [hp.ready, (components_of_strongConnect hs).cover, List.mem_flatten]
  have horder := (pairwise_iff_idxOf hp.once).1 hp.order
  refine ⟨p, he, ?_⟩
  refine
    { once := hp.once
      ready := hready
      rest := hp.of.rest
      marked := hp.of.marked
      first := fun u hu v huv hvu => ?_
      seq := fun u hu v hv huv _ hlt => (horder u hu v hv hlt huv).2 }
  have hv : v ∈ p.executed :=
    (hready v).2 ⟨huv.mem ((hready u).1 hu).1, ((hready u).1 hu).2.path huv⟩
  rcases lt_trichotomy (p.executed.idxOf v) (p.executed.idxOf u) with hlt | heq | hgt
  · exact hlt
  · rw [(List.idxOf_inj hv).1 heq] at hvu
    exact absurd .refl hvu
  · exact absurd (horder u hu v hv hgt huv).1 hvu

theorem Executes.order (hp : Executes r vs p) : p.executed.Pairwise fun u v =>
    r.Path vs.ids u v → r.Path vs.ids v u ∧ r.seqOf u ≤ r.seqOf v := by
  refine (pairwise_iff_idxOf hp.once).2 fun u hu v hv hlt huv => ?_
  have hvu : r.Path vs.ids v u := by
    by_contra hvu
    have := hp.first u hu v huv hvu
    omega
  exact ⟨hvu, hp.seq u hu v hv huv hvu hlt⟩

/-- In its cycle, the vertex that the map begins with comes after those with the same seq. -/
theorem Executes.last (hp : Executes r vs p) (h : Registered r vs.ids)
    (ha : ∀ v ∈ vs.ids, r.hasExecuted v = true → r.Ready vs.ids v) (he : execute r vs = some p)
    {u : InstanceId} {ws : List InstanceId} (hu : vs.ids = u :: ws) (hux : u ∈ p.executed)
    (hvu : v ≠ u) (huv : r.Path vs.ids u v) (hpv : r.Path vs.ids v u)
    (hle : r.seqOf v ≤ r.seqOf u) : p.executed.idxOf v < p.executed.idxOf u := by
  obtain ⟨s, hs⟩ := exists_strongConnect vs r.depsOf
  have hcs := components_of_strongConnect hs
  obtain ⟨p', he', hup⟩ := execute_upto h ha hs
  obtain rfl : p = p' := Option.some.inj (he.symm.trans he')
  obtain ⟨hum, hur⟩ := (hp.ready u).1 hux
  obtain ⟨c, hc, huc⟩ := (hcs.cover u).1 hum
  obtain ⟨xs, rfl⟩ := strongConnect_first hu hs hc huc
  have hlink : ∀ w, w ∈ xs ++ [u] ↔ r.Path vs.ids u w ∧ r.Path vs.ids w u := fun w => by
    rw [hcs.strong _ hc u huc w, h.linked_iff hum]
    refine and_congr_right fun huw => ?_
    rw [h.linked_iff (huw.mem hum)]
  have hvx : v ∈ xs := by
    have := (hlink v).2 ⟨huv, hpv⟩
    exact (List.mem_append.1 this).resolve_right fun hv => hvu (List.mem_singleton.1 hv)
  obtain ⟨l, l', hl⟩ := hup.sorted _ hc fun w hw => hur.path ((hlink w).1 hw).1
  obtain ⟨as, bs, hsort, has⟩ := sortScc_last r.seqOf u xs
  have hsplit : p.executed = (l ++ as) ++ u :: (bs ++ l') := by simp [← hl, hsort]
  have hva : v ∈ l ++ as := List.mem_append_right l (has v hvx hle)
  have hun : u ∉ l ++ as := fun hmem => by
    have hn := hp.once
    rw [hsplit, List.nodup_append] at hn
    exact hn.2.2 u hmem u List.mem_cons_self rfl
  rw [hsplit, List.idxOf_append_of_mem hva, List.idxOf_append_of_notMem hun, List.idxOf_cons_self]
  exact Nat.lt_add_right _ (List.idxOf_lt_length_iff.2 hva)

theorem Executes.mem_vertices (hp : Executes r vs p) :
    v ∈ p.vertices.ids ↔ v ∈ vs.ids ∧ v ∉ p.executed := by
  simp [hp.rest]

end Pass

/-- `execute` runs what is ready, dependencies first. -/
theorem execute_ready {r : Replica} {vs : Vertices} (h : Unexecuted r vs.ids) :
    ∃ p, execute r vs = some p ∧ Executes r vs p :=
  execute_executes h.toRegistered fun v hv hx => by
    rw [h.fresh v hv] at hx
    cases hx

/-- A committed instance with the seq and the dependencies. -/
def committedOn (id : InstanceId) (seq : ℕ) (deps : List InstanceId) : Instance :=
  { newInstance id with
    status := .committed
    seq
    deps := (Deps.zero.merge (deps.map (⟨·, 0⟩))).1 }

/-- A replica with the instances registered. -/
def holding (instances : List Instance) : Replica := instances.foldl Replica.put (newReplica 0)

/-- Two instances in a cycle, one that depends on them, and one that depends on what was never
received. -/
def twoAndTwo : Replica :=
  holding [committedOn ⟨0, 1⟩ 2 [⟨1, 1⟩], committedOn ⟨1, 1⟩ 1 [⟨0, 1⟩],
    committedOn ⟨2, 1⟩ 3 [⟨0, 1⟩], committedOn ⟨2, 2⟩ 4 [⟨2, 1⟩, ⟨1, 2⟩]]

theorem execute_ready_cycle : ∃ vs p, vs.ids = [⟨2, 2⟩, ⟨2, 1⟩, ⟨0, 1⟩, ⟨1, 1⟩]
    ∧ execute twoAndTwo vs = some p ∧ Executes twoAndTwo vs p
    ∧ p.executed = [⟨1, 1⟩, ⟨0, 1⟩, ⟨2, 1⟩] := by
  obtain ⟨p, he, hp⟩ := @execute_ready twoAndTwo
    ⟨[⟨2, 2⟩, ⟨2, 1⟩, ⟨0, 1⟩, ⟨1, 1⟩], by decide⟩
    ⟨⟨by decide +kernel, by decide +kernel, by decide +kernel, by decide +kernel⟩,
      by decide +kernel⟩
  refine ⟨_, p, rfl, he, hp, ?_⟩
  have : (execute twoAndTwo ⟨[⟨2, 2⟩, ⟨2, 1⟩, ⟨0, 1⟩, ⟨1, 1⟩], by decide⟩).map Pass.executed
      = some [⟨1, 1⟩, ⟨0, 1⟩, ⟨2, 1⟩] := by decide +kernel
  rw [he] at this
  simpa using this

end Epx
