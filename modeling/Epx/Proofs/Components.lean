import Epx.Execute

/-!
# The components of the vertex map

What `strong_connect` finds, on any map and any dependency arrays. An id is in the map when the map
has its `dh_key`, which is how the executor looks it up.
-/

namespace Epx

open Tarjan

namespace Vertices

/-- `w` is the vertex that the map has for a dependency of `v`. -/
def Edge (vs : Vertices) (deps : InstanceId → List Dependency) (v w : InstanceId) : Prop :=
  w ∈ vs.ids ∧ ∃ d ∈ deps v, ¬ d.Empty ∧ dhKey d.id = dhKey w

/-- `v` depends on `w`, directly or through other vertices, or is `w`. -/
def Linked (vs : Vertices) (deps : InstanceId → List Dependency) : InstanceId → InstanceId → Prop :=
  Relation.ReflTransGen (vs.Edge deps)

variable {vs : Vertices} {deps : InstanceId → List Dependency} {v w : InstanceId}

/-- The map has no two vertices with one key. -/
theorem eq_of_dhKey (hv : v ∈ vs.ids) (hw : w ∈ vs.ids) (h : dhKey v = dhKey w) : v = w :=
  List.inj_on_of_nodup_map vs.distinct hv hw h

theorem get_eq_some {id : InstanceId} : vs.get id = some v ↔ v ∈ vs.ids ∧ dhKey v = dhKey id := by
  refine ⟨fun h => ?_, fun ⟨hv, hk⟩ => ?_⟩
  · have := List.find?_some h
    exact ⟨List.mem_of_find?_eq_some h, by simpa using this⟩
  · cases hg : vs.get id with
    | none =>
      have := List.find?_eq_none.1 hg v hv
      simp [hk] at this
    | some u =>
      have hu := List.find?_some hg
      have hu : dhKey u = dhKey id := by simpa using hu
      rw [eq_of_dhKey (List.mem_of_find?_eq_some hg) hv (hu.trans hk.symm)]

theorem mem_edges {ds : List Dependency} :
    w ∈ vs.edges ds ↔ w ∈ vs.ids ∧ ∃ d ∈ ds, ¬ d.Empty ∧ dhKey d.id = dhKey w := by
  unfold edges
  rw [List.mem_filterMap]
  constructor
  · intro ⟨d, hd, h⟩
    split_ifs at h with he
    obtain ⟨hw, hk⟩ := get_eq_some.1 h
    exact ⟨hw, d, hd, he, hk.symm⟩
  · intro ⟨hw, d, hd, he, hk⟩
    exact ⟨d, hd, by rw [if_neg he]; exact get_eq_some.2 ⟨hw, hk.symm⟩⟩

theorem reach_iff :
    Reach (fun v => vs.edges (deps v)) v w ↔ vs.Linked deps v w := by
  have : (fun v w => w ∈ vs.edges (deps v)) = vs.Edge deps := by
    funext v w
    exact propext mem_edges
  rw [Reach, this, Linked]

theorem Linked.mem (h : vs.Linked deps v w) (hv : v ∈ vs.ids) : w ∈ vs.ids := by
  induction h with
  | refl => exact hv
  | tail _ he => exact he.1

end Vertices

/-- The lists are the strongly connected components of the map, each once, and each after the ones
it depends on. -/
structure Components (vs : Vertices) (deps : InstanceId → List Dependency)
    (cs : List (List InstanceId)) : Prop where
  cover : ∀ v, v ∈ vs.ids ↔ ∃ c ∈ cs, v ∈ c
  nonempty : ∀ c ∈ cs, c ≠ []
  once : cs.flatten.Nodup
  strong : ∀ c ∈ cs, ∀ v ∈ c, ∀ w, w ∈ c ↔ vs.Linked deps v w ∧ vs.Linked deps w v
  ordered : ∀ l₁ c l₂, cs = l₁ ++ c :: l₂ → ∀ v ∈ c, ∀ w, vs.Linked deps v w →
    w ∈ c ∨ ∃ d ∈ l₁, w ∈ d

namespace Components

variable {vs : Vertices} {deps : InstanceId → List Dependency} {cs l₁ l₂ : List (List InstanceId)}
  {c : List InstanceId} {v w : InstanceId}

theorem mem (h : Components vs deps cs) (hc : c ∈ cs) (hv : v ∈ c) : v ∈ vs.ids :=
  (h.cover v).2 ⟨c, hc, hv⟩

theorem nodup (h : Components vs deps cs) (hc : c ∈ cs) : c.Nodup :=
  (List.nodup_flatten.1 h.once).1 c hc

/-- A vertex is in no component before its own. -/
theorem not_mem (h : Components vs deps cs) (hcs : cs = l₁ ++ c :: l₂) (hv : v ∈ c) :
    v ∉ l₁.flatten := by
  have hn := h.once
  rw [hcs, List.flatten_append, List.flatten_cons, List.nodup_append] at hn
  exact fun hv' => hn.2.2 v hv' v (List.mem_append_left _ hv) rfl

/-- The first components have all they depend on. -/
theorem closed (h : Components vs deps cs) (hcs : cs = l₁ ++ l₂) (hv : v ∈ l₁.flatten)
    (hl : vs.Linked deps v w) : w ∈ l₁.flatten := by
  obtain ⟨d, hd, hvd⟩ := List.mem_flatten.1 hv
  obtain ⟨k₁, k₂, rfl⟩ := List.append_of_mem hd
  rw [List.append_assoc, List.cons_append] at hcs
  simp only [List.flatten_append, List.flatten_cons, List.mem_append, List.mem_flatten]
  rcases h.ordered k₁ d _ hcs v hvd w hl with hw | hw
  · exact .inr (.inl hw)
  · exact .inl hw

/-- Two vertices of one component depend on each other, and of two they do not. -/
theorem linked_iff (h : Components vs deps cs) (hc : c ∈ cs) (hv : v ∈ c) {d : List InstanceId}
    (hd : d ∈ cs) (hw : w ∈ d) : vs.Linked deps v w ∧ vs.Linked deps w v ↔ c = d := by
  rw [← h.strong c hc v hv w]
  constructor
  · intro hwc
    by_contra hne
    have : Std.Symm (List.Disjoint (α := InstanceId)) := ⟨fun _ _ h => h.symm⟩
    exact (List.nodup_flatten.1 h.once).2.forall hc hd hne hwc hw
  · rintro rfl
    exact hw

/-- There are as many components as vertices no two of which depend on each other. -/
theorem length_le_iff (h : Components vs deps cs) (n : ℕ) :
    cs.length ≤ n ↔ ∀ l : List InstanceId, l ⊆ vs.ids →
      (l.Pairwise fun v w => ¬ (vs.Linked deps v w ∧ vs.Linked deps w v)) → l.length ≤ n := by
  constructor
  · intro hn l hl hp
    -- the components of the vertices are different ones
    have hcomp : ∀ v ∈ vs.ids, ∃ c ∈ cs, v ∈ c := fun v hv => (h.cover v).1 hv
    choose! comp hmem hin using hcomp
    have hnd : (l.map comp).Nodup := by
      refine List.pairwise_map.2 ((List.Pairwise.and_mem.1 hp).imp fun ⟨hv, hw, hvw⟩ he => hvw ?_)
      have hv := hl hv
      have hw := hl hw
      exact (h.linked_iff (hmem _ hv) (hin _ hv) (hmem _ hw) (hin _ hw)).2 he
    have hsub : l.map comp ⊆ cs := fun c hc => by
      obtain ⟨v, hv, rfl⟩ := List.mem_map.1 hc
      exact hmem v (hl hv)
    have := (List.subperm_of_subset hnd hsub).length_le
    rw [List.length_map] at this
    omega
  · intro hl
    -- one vertex of each component
    have : Nonempty InstanceId := ⟨⟨0, 0⟩⟩
    have hhead : ∀ c ∈ cs, ∃ v, v ∈ c := fun c hc =>
      List.exists_mem_of_ne_nil c (h.nonempty c hc)
    choose! head hin using hhead
    have hnd : cs.Nodup := (List.nodup_flatten.1 h.once).2.imp_of_mem fun {c d} hc _ hdis he => by
      subst he
      exact hdis (hin c hc) (hin c hc)
    have := hl (cs.map head) (fun v hv => ?_) (List.pairwise_map.2 ?_)
    · rwa [List.length_map] at this
    · obtain ⟨c, hc, rfl⟩ := List.mem_map.1 hv
      exact h.mem hc (hin c hc)
    · exact hnd.imp_of_mem fun hc hd hne hl =>
        hne ((h.linked_iff hc (hin _ hc) hd (hin _ hd)).1 hl)

/-- A component has as many members as vertices that all depend on each other. -/
theorem forall_length_le_iff (h : Components vs deps cs) (n : ℕ) :
    (∀ c ∈ cs, c.length ≤ n) ↔ ∀ l : List InstanceId, l.Nodup → l ⊆ vs.ids →
      (∀ v ∈ l, ∀ w ∈ l, vs.Linked deps v w) → l.length ≤ n := by
  constructor
  · intro hn l hnd hl hlink
    cases l with
    | nil => exact Nat.zero_le n
    | cons v l =>
      obtain ⟨c, hc, hv⟩ := (h.cover v).1 (hl List.mem_cons_self)
      have hsub : v :: l ⊆ c := fun w hw =>
        (h.strong c hc v hv w).2 ⟨hlink v List.mem_cons_self w hw, hlink w hw v List.mem_cons_self⟩
      exact (List.subperm_of_subset hnd hsub).length_le.trans (hn c hc)
  · intro hl c hc
    exact hl c (h.nodup hc) (fun v hv => h.mem hc hv) fun v hv w hw =>
      ((h.strong c hc v hv w).1 hw).1

end Components

theorem edges_mem (vs : Vertices) (deps : InstanceId → List Dependency) :
    ∀ v ∈ vs.ids, ∀ w ∈ vs.edges (deps v), w ∈ vs.ids := fun _ _ _ hw =>
  (Vertices.mem_edges.1 hw).1

theorem exists_strongConnect (vs : Vertices) (deps : InstanceId → List Dependency) :
    ∃ s, strongConnect vs deps = some s := by
  obtain ⟨s, he, -⟩ := strongConnect_spec (edges_mem vs deps)
  exact ⟨s, he⟩

section StrongConnect

variable {vs : Vertices} {deps : InstanceId → List Dependency} {s : Search InstanceId}

theorem stack_of_strongConnect (h : strongConnect vs deps = some s) : s.stack = [] := by
  obtain ⟨s', he, hst, -⟩ := strongConnect_spec (edges_mem vs deps)
  obtain rfl : s = s' := Option.some.inj (h.symm.trans he)
  exact hst

theorem components_of_strongConnect (h : strongConnect vs deps = some s) :
    Components vs deps s.sccs := by
  obtain ⟨s', he, -, hf, hall⟩ := strongConnect_spec (edges_mem vs deps)
  obtain rfl : s = s' := Option.some.inj (h.symm.trans he)
  exact
    { cover := fun v => by rw [← hall v, List.mem_flatten]
      nonempty := hf.nonempty
      once := hf.nodup
      strong := fun c hc v hv w => by
        rw [hf.scc c hc v hv w, Vertices.reach_iff, Vertices.reach_iff]
      ordered := fun l₁ c l₂ hcs v hv w hvw => by
        have hvw := Vertices.reach_iff.2 hvw
        rw [← List.mem_flatten]
        exact hf.reach_ordered hcs hv hvw }

/-- The vertex that the search begins with is the last one of its component. -/
theorem strongConnect_first {u : InstanceId} {ws c : List InstanceId} (hu : vs.ids = u :: ws)
    (h : strongConnect vs deps = some s) (hc : c ∈ s.sccs) (huc : u ∈ c) : ∃ xs, c = xs ++ [u] :=
  strongConnect_last hu (edges_mem vs deps) h hc huc

end StrongConnect

/-- `strong_connect` ends, with its stack empty and the components of the map. -/
theorem strongConnect_components (vs : Vertices) (deps : InstanceId → List Dependency) :
    ∃ s, strongConnect vs deps = some s ∧ s.stack = [] ∧ Components vs deps s.sccs := by
  obtain ⟨s, he⟩ := exists_strongConnect vs deps
  exact ⟨s, he, stack_of_strongConnect he, components_of_strongConnect he⟩

end Epx
