import Mathlib

/-!
# Searches for strongly connected components

The state of a depth-first search in the graph of a successor function. `Inv` is the invariant of
Tarjan's search: among the vertices on the stack the ones with smaller numbers reach the ones with
larger numbers, each reaches one that is still being visited and has no larger number, and a
finished vertex has no successor left unvisited; the components have left it largest number first.
What the low link of a vertex adds is in `Visited`: no edge leaves the vertices stacked since for one
below it.
-/


namespace Tarjan

variable {α : Type*}

/-- `w` can be reached from `v`. -/
def Reach (succ : α → List α) : α → α → Prop := Relation.ReflTransGen fun v w => w ∈ succ v

/-- The lists are strongly connected components, each after those its edges lead to. -/
structure Found (succ : α → List α) (cs : List (List α)) : Prop where
  nonempty : ∀ c ∈ cs, c ≠ []
  nodup : cs.flatten.Nodup
  scc : ∀ c ∈ cs, ∀ v ∈ c, ∀ w, w ∈ c ↔ Reach succ v w ∧ Reach succ w v
  ordered : ∀ l₁ c l₂, cs = l₁ ++ c :: l₂ → ∀ v ∈ c, ∀ w ∈ succ v, w ∈ c ∨ w ∈ l₁.flatten

section Found

variable {succ : α → List α} {cs : List (List α)}

theorem Found.nil : Found succ ([] : List (List α)) where
  nonempty := by simp
  nodup := by simp
  scc := by simp
  ordered l₁ c l₂ h := by simp at h

/-- No edge leaves the components found. -/
theorem Found.closed (h : Found succ cs) {v w : α} (hv : v ∈ cs.flatten) (hw : w ∈ succ v) :
    w ∈ cs.flatten := by
  obtain ⟨c, hc, hvc⟩ := List.mem_flatten.1 hv
  obtain ⟨l₁, l₂, rfl⟩ := List.append_of_mem hc
  have := h.ordered l₁ c l₂ rfl v hvc w hw
  simp only [List.flatten_append, List.flatten_cons, List.mem_append]
  tauto

theorem Found.reach (h : Found succ cs) {v w : α} (hv : v ∈ cs.flatten) (hr : Reach succ v w) :
    w ∈ cs.flatten := by
  induction hr with
  | refl => exact hv
  | tail _ hw ih => exact h.closed ih hw

/-- What a component reaches is in it or in those before. -/
theorem Found.reach_ordered (h : Found succ cs) {l₁ l₂ : List (List α)} {c : List α}
    (hcs : cs = l₁ ++ c :: l₂) {v w : α} (hv : v ∈ c) (hr : Reach succ v w) :
    w ∈ c ∨ w ∈ l₁.flatten := by
  induction hr with
  | refl => exact .inl hv
  | @tail u w _ hw ih =>
    rcases ih with hu | hu
    · exact h.ordered l₁ c l₂ hcs u hu w hw
    · obtain ⟨d, hd, hud⟩ := List.mem_flatten.1 hu
      obtain ⟨k₁, k₂, rfl⟩ := List.append_of_mem hd
      refine .inr ?_
      simp only [List.append_assoc, List.cons_append] at hcs
      have := h.ordered k₁ d (k₂ ++ c :: l₂) hcs u hud w hw
      simp only [List.flatten_append, List.flatten_cons, List.mem_append]
      tauto

theorem Found.append (h : Found succ cs) {c : List α} (hne : c ≠ [])
    (hn : c.Nodup) (hd : ∀ v ∈ c, v ∉ cs.flatten)
    (hs : ∀ v ∈ c, ∀ w, w ∈ c ↔ Reach succ v w ∧ Reach succ w v)
    (ho : ∀ v ∈ c, ∀ w ∈ succ v, w ∈ c ∨ w ∈ cs.flatten) : Found succ (cs ++ [c]) where
  nonempty d hd := by
    rcases List.mem_append.1 hd with hd | hd
    · exact h.nonempty d hd
    · rwa [List.mem_singleton.1 hd]
  nodup := by
    simp only [List.flatten_append, List.flatten_singleton]
    exact List.nodup_append.2 ⟨h.nodup, hn, fun a ha b hb hab => hd b hb (hab ▸ ha)⟩
  scc d hd := by
    rcases List.mem_append.1 hd with hd | hd
    · exact h.scc d hd
    · rwa [List.mem_singleton.1 hd]
  ordered l₁ d l₂ he := by
    rcases List.append_eq_append_iff.1 he with ⟨as, rfl, has⟩ | ⟨bs, rfl, hbs⟩
    · cases as with
      | nil =>
        simp only [List.nil_append, List.cons.injEq] at has
        obtain ⟨rfl, -⟩ := has
        simpa using ho
      | cons a as => simp at has
    · cases bs with
      | nil =>
        simp only [List.nil_append, List.cons.injEq] at hbs
        obtain ⟨rfl, -⟩ := hbs
        simpa using ho
      | cons b bs =>
        simp only [List.cons_append, List.cons.injEq] at hbs
        obtain ⟨rfl, rfl⟩ := hbs
        exact h.ordered l₁ d bs rfl

end Found

/-- A search: the numbers given so far, the low links, the stack, the components found, in order,
and the next number. -/
structure Search (α : Type*) where
  index : α → Option ℕ
  lowLink : α → ℕ
  onStack : α → Bool
  stack : List α
  sccs : List (List α)
  next : ℕ

/-- Nothing visited. -/
def Search.init : Search α := ⟨fun _ => none, fun _ => 0, fun _ => false, [], [], 0⟩

/-- The number of a vertex visited. -/
def Search.num (s : Search α) (v : α) : ℕ := (s.index v).getD 0

/-- The invariant of a search that is visiting the vertices `gs`. -/
structure Inv (succ : α → List α) (vs gs : List α) (s : Search α) : Prop where
  bound : ∀ v i, s.index v = some i → i < s.next
  order : s.stack.Pairwise fun a b => s.num b < s.num a
  onStack : ∀ v, s.onStack v = true ↔ v ∈ s.stack
  visited : ∀ v, (s.index v).isSome ↔ v ∈ s.stack ∨ v ∈ s.sccs.flatten
  apart : ∀ v ∈ s.stack, v ∉ s.sccs.flatten
  known : ∀ v, (s.index v).isSome → v ∈ vs
  gray : ∀ g ∈ gs, g ∈ s.stack
  down : ∀ x ∈ s.stack, ∀ y ∈ s.stack, s.num x ≤ s.num y → Reach succ x y
  up : ∀ y ∈ s.stack, ∃ g ∈ gs, s.num g ≤ s.num y ∧ Reach succ y g
  black : ∀ v ∈ s.stack, v ∉ gs → ∀ w ∈ succ v, (s.index w).isSome
  popped : ∀ c ∈ s.sccs, c.Pairwise fun a b => s.num b < s.num a
  found : Found succ s.sccs

/-- What a search keeps while it goes on: the vertices visited and the stack below. -/
structure Extends (s s' : Search α) : Prop where
  index : ∀ v i, s.index v = some i → s'.index v = some i
  fresh : ∀ v i, s.index v = none → s'.index v = some i → s.next ≤ i
  lowLink : ∀ v, (s.index v).isSome → s'.lowLink v = s.lowLink v
  stack : ∃ new, s'.stack = new ++ s.stack ∧ ∀ v ∈ new, s.index v = none
  next : s.next ≤ s'.next

/-- What a visit of `n` does. -/
structure Visited (succ : α → List α) (vs gs : List α) (n : α) (s s' : Search α) : Prop where
  inv : Inv succ vs gs s'
  ext : Extends s s'
  self : s'.index n = some s.next
  low : s'.num n = s'.lowLink n ∨ ∃ y ∈ s.stack, s.num y = s'.lowLink n ∧ Reach succ n y
  cross : ∀ x ∈ s'.stack, s.index x = none → ∀ w ∈ succ x, w ∈ s.stack → s'.lowLink n ≤ s.num w

/-- The visit of `n` that began at `s₀`, with the successors `pre` done. -/
structure Scanning (succ : α → List α) (vs gs : List α) (n : α) (s₀ : Search α) (pre : List α)
    (s : Search α) : Prop where
  inv : Inv succ vs (n :: gs) s
  ext : Extends s₀ s
  stack : ∃ new, s.stack = new ++ n :: s₀.stack
  self : s.index n = some s₀.next
  seen : ∀ w ∈ pre, (s.index w).isSome
  le : s.lowLink n ≤ s₀.next
  low : s.lowLink n = s₀.next ∨ ∃ y ∈ s₀.stack, s₀.num y = s.lowLink n ∧ Reach succ n y
  cross : ∀ x ∈ s.stack, s₀.index x = none → x ≠ n → ∀ w ∈ succ x, w ∈ s₀.stack →
    s.lowLink n ≤ s₀.num w
  direct : ∀ w ∈ pre, w ∈ s₀.stack → s.lowLink n ≤ s₀.num w

section Search

variable {succ : α → List α} {vs gs : List α} {n : α} {s s₀ s₁ s₂ : Search α}

theorem num_of_index {v : α} {i : ℕ} (h : s.index v = some i) : s.num v = i := by
  simp [Search.num, h]

theorem Extends.refl (s : Search α) : Extends s s where
  index _ _ h := h
  fresh v i h h' := by
    rw [h] at h'
    cases h'
  lowLink _ _ := rfl
  stack := ⟨[], rfl, by simp⟩
  next := le_rfl

theorem Extends.trans (h₁ : Extends s₀ s₁) (h₂ : Extends s₁ s₂) : Extends s₀ s₂ where
  index v i h := h₂.index v i (h₁.index v i h)
  fresh v i h h' := by
    cases hv : s₁.index v with
    | none => exact h₁.next.trans (h₂.fresh v i hv h')
    | some j =>
      rw [h₂.index v j hv] at h'
      cases h'
      exact h₁.fresh v i h hv
  lowLink v h := by
    obtain ⟨i, hi⟩ := Option.isSome_iff_exists.1 h
    rw [h₂.lowLink v (by simp [h₁.index v i hi]), h₁.lowLink v h]
  stack := by
    obtain ⟨new₁, hs₁, hn₁⟩ := h₁.stack
    obtain ⟨new₂, hs₂, hn₂⟩ := h₂.stack
    refine ⟨new₂ ++ new₁, by rw [hs₂, hs₁, List.append_assoc], fun v hv => ?_⟩
    rcases List.mem_append.1 hv with hv | hv
    · have := hn₂ v hv
      cases hi : s₀.index v with
      | none => rfl
      | some i => rw [h₁.index v i hi] at this; cases this
    · exact hn₁ v hv
  next := h₁.next.trans h₂.next

theorem Extends.num (h : Extends s₀ s₁) {v : α} (hv : (s₀.index v).isSome) :
    s₁.num v = s₀.num v := by
  obtain ⟨i, hi⟩ := Option.isSome_iff_exists.1 hv
  rw [num_of_index hi, num_of_index (h.index v i hi)]

theorem Visited.seen (h : Visited succ vs gs n s s₁) : (s₁.index n).isSome :=
  Option.isSome_of_mem h.self

theorem Inv.isSome_of_mem (h : Inv succ vs gs s) {v : α} (hv : v ∈ s.stack) :
    (s.index v).isSome := (h.visited v).2 (.inl hv)

theorem Inv.num_lt (h : Inv succ vs gs s) {v : α} (hv : v ∈ s.stack) : s.num v < s.next := by
  obtain ⟨i, hi⟩ := Option.isSome_iff_exists.1 (h.isSome_of_mem hv)
  rw [num_of_index hi]
  exact h.bound v i hi

/-- Vertices above `n` on the stack have larger numbers, those below smaller ones. -/
theorem Inv.num_split (h : Inv succ vs gs s) {new old : List α} (hs : s.stack = new ++ n :: old) :
    (∀ v ∈ new, s.num n < s.num v) ∧ ∀ v ∈ old, s.num v < s.num n := by
  have ho := h.order
  rw [hs, List.pairwise_append, List.pairwise_cons] at ho
  exact ⟨fun v hv => ho.2.2 v hv n (by simp), ho.2.1.1⟩

theorem Inv.nodup (h : Inv succ vs gs s) : s.stack.Nodup :=
  h.order.imp fun hlt he => by rw [he] at hlt; exact lt_irrefl _ hlt

theorem Inv.init (succ : α → List α) (vs : List α) : Inv succ vs [] .init where
  bound v i h := by cases h
  order := .nil
  onStack v := by simp [Search.init]
  visited v := by simp [Search.init]
  apart v h := by simp [Search.init] at h
  known v h := by simp [Search.init] at h
  gray g h := by simp at h
  down x h := by simp [Search.init] at h
  up y h := by simp [Search.init] at h
  black v h := by simp [Search.init] at h
  popped c h := by simp [Search.init] at h
  found := .nil

namespace Scanning

variable {pre : List α} {tn : α} {i : ℕ}

theorem num_self (h : Scanning succ vs gs n s₀ pre s) : s.num n = s₀.next := num_of_index h.self

theorem num_eq (h : Scanning succ vs gs n s₀ pre s) (h₀ : Inv succ vs gs s₀) {v : α}
    (hv : v ∈ s₀.stack) : s.num v = s₀.num v ∧ s₀.num v < s₀.next :=
  ⟨h.ext.num (h₀.isSome_of_mem hv), h₀.num_lt hv⟩

theorem mem_stack (h : Scanning succ vs gs n s₀ pre s) {v : α} (hv : v ∈ s₀.stack) :
    v ∈ s.stack := by
  obtain ⟨new, hs⟩ := h.stack
  simp [hs, hv]

/-- What is on the stack is below `n`, or has a number no smaller. -/
theorem below_or (h : Scanning succ vs gs n s₀ pre s) {v : α} (hv : v ∈ s.stack) :
    v ∈ s₀.stack ∨ s₀.next ≤ s.num v := by
  obtain ⟨new, hs⟩ := h.stack
  have hnum := (h.inv.num_split hs).1
  rw [hs] at hv
  simp only [List.mem_append, List.mem_cons] at hv
  rcases hv with hv | rfl | hv
  · exact .inr (h.num_self ▸ (hnum v hv).le)
  · exact .inr h.num_self.ge
  · exact .inl hv

/-- What was put on the stack since was not visited before. -/
theorem new_index (h : Scanning succ vs gs n s₀ pre s) {new : List α}
    (hs : s.stack = new ++ n :: s₀.stack) : ∀ v ∈ new, s₀.index v = none := by
  obtain ⟨new', hs', hn⟩ := h.ext.stack
  have he : new ++ [n] = new' := by
    rw [hs, show new ++ n :: s₀.stack = (new ++ [n]) ++ s₀.stack by simp] at hs'
    exact List.append_cancel_right hs'
  intro v hv
  exact hn v (he ▸ List.mem_append_left _ hv)

/-- A successor in a component found. -/
theorem skip (h : Scanning succ vs gs n s₀ pre s) (hi : s.index tn = some i)
    (ht : tn ∉ s.stack) : Scanning succ vs gs n s₀ (pre ++ [tn]) s :=
  { h with
    seen := fun w hw => by
      rcases List.mem_append.1 hw with hw | hw
      · exact h.seen w hw
      · rw [List.mem_singleton.1 hw]
        exact Option.isSome_of_mem hi
    direct := fun w hw hws => by
      rcases List.mem_append.1 hw with hw | hw
      · exact h.direct w hw hws
      · rw [List.mem_singleton.1 hw] at hws
        exact absurd (h.mem_stack hws) ht }

/-- The visit ends with `n` left on the stack. -/
theorem stay (h : Scanning succ vs gs n s₀ (succ n) s) (h₀ : Inv succ vs gs s₀)
    (hn : s₀.index n = none) (hne : s.lowLink n ≠ s.num n) : Visited succ vs gs n s₀ s := by
  have hlow := h.low.resolve_left fun he => hne (he.trans h.num_self.symm)
  have hmem : n ∈ s.stack := h.inv.gray n List.mem_cons_self
  obtain ⟨y₀, hy₀, hyn, hr⟩ := hlow
  -- `n` reaches a vertex below, and that one a vertex still being visited
  have hup : ∃ g ∈ gs, s.num g < s.num n ∧ Reach succ n g := by
    obtain ⟨he, hlt⟩ := h.num_eq h₀ hy₀
    obtain ⟨g, hg, hle, hyg⟩ := h.inv.up y₀ (h.mem_stack hy₀)
    have hgn : s.num g < s.num n := by rw [h.num_self]; omega
    rcases List.mem_cons.1 hg with rfl | hg
    · exact absurd hgn (lt_irrefl _)
    · exact ⟨g, hg, hgn, hr.trans hyg⟩
  refine
    { inv :=
        { h.inv with
          gray := fun g hg => h.inv.gray g (List.mem_cons_of_mem _ hg)
          up := fun y hy => ?_
          black := fun v hv hvg => ?_ }
      ext := h.ext
      self := h.self
      low := .inr ⟨y₀, hy₀, hyn, hr⟩
      cross := fun x hx hxn w hw hws => ?_ }
  · obtain ⟨g, hg, hle, hyg⟩ := h.inv.up y hy
    rcases List.mem_cons.1 hg with rfl | hg
    · obtain ⟨g', hg', hlt, hr'⟩ := hup
      exact ⟨g', hg', hlt.le.trans hle, hyg.trans hr'⟩
    · exact ⟨g, hg, hle, hyg⟩
  · by_cases hvn : v = n
    · rw [hvn]
      exact h.seen
    · exact h.inv.black v hv (by simp [hvn, hvg])
  · by_cases hxe : x = n
    · rw [hxe] at hw
      exact h.direct w hw hws
    · exact h.cross x hx hxn hxe w hw hws

end Scanning

end Search

end Tarjan
