import Epx.Basic

/-!
# Dependency arrays

The operations of `instance.c` on a dependency array, a list of `maxDeps` slots, the empty ones
those with instance id 0. `update_deps` looks for the entry with the new id first; otherwise it
puts the new entry before the first slot with a smaller instance id, each later slot taking its
left neighbour unless it is empty. So an array that starts out zeroed stays `Packed`, and `Deps`
holds no other. In front of a smaller entry the last entry falls off, full array or not.
-/

namespace Epx

/-- `struct dependency`. -/
structure Dependency where
  id : InstanceId
  committed : ℕ
  deriving DecidableEq, Repr

namespace Dependency

/-- The content of a zeroed slot. -/
def zero : Dependency := ⟨⟨0, 0⟩, 0⟩

/-- The slot holds no dependency. -/
def Empty (d : Dependency) : Prop := d.id.instanceId = 0

instance (d : Dependency) : Decidable d.Empty := inferInstanceAs (Decidable (_ = _))

theorem zero_empty : zero.Empty := rfl

end Dependency

/-- The entry with `d`'s id takes the larger committed flag: the array and whether it changed, or
`none` when no entry has the id. -/
def markCommitted (d : Dependency) : List Dependency → Option (List Dependency × ℕ)
  | [] => none
  | x :: xs =>
    if x.id = d.id then
      if x.committed < d.committed then some ({ x with committed := d.committed } :: xs, 1)
      else some (x :: xs, 0)
    else (markCommitted d xs).map fun p => (x :: p.1, p.2)

/-- Each slot takes its left neighbour `prev` unless it is empty. -/
def shiftSlots : Dependency → List Dependency → List Dependency
  | _, [] => []
  | prev, x :: xs => (if x.Empty then x else prev) :: shiftSlots x xs

/-- `d` before the first slot with a smaller instance id. -/
def insertDep (d : Dependency) : List Dependency → List Dependency × ℕ
  | [] => ([], 0)
  | x :: xs =>
    if x.id.instanceId < d.id.instanceId then (d :: shiftSlots x xs, 1)
    else ((x :: (insertDep d xs).1), (insertDep d xs).2)

/-- `update_deps` on the slots. -/
def updateSlots (deps : List Dependency) (d : Dependency) : List Dependency × ℕ :=
  if d.Empty then (deps, 0) else (markCommitted d deps).getD (insertDep d deps)

theorem length_markCommitted (d : Dependency) :
    ∀ {xs : List Dependency} {p : List Dependency × ℕ}, markCommitted d xs = some p →
      p.1.length = xs.length
  | [], p, h => by simp [markCommitted] at h
  | x :: xs, p, h => by
    simp only [markCommitted] at h
    split_ifs at h
    · simp only [Option.some.injEq] at h
      subst h; rfl
    · simp only [Option.some.injEq] at h
      subst h; rfl
    · obtain ⟨q, hq, rfl⟩ := Option.map_eq_some_iff.1 h
      simp [length_markCommitted d hq]

theorem length_shiftSlots :
    ∀ (prev : Dependency) (xs : List Dependency), (shiftSlots prev xs).length = xs.length
  | _, [] => rfl
  | _, x :: xs => by simp [shiftSlots, length_shiftSlots x xs]

theorem length_insertDep (d : Dependency) :
    ∀ xs : List Dependency, (insertDep d xs).1.length = xs.length
  | [] => rfl
  | x :: xs => by
    simp only [insertDep]
    split_ifs
    · simp [length_shiftSlots]
    · simp [length_insertDep d xs]

theorem length_updateSlots (deps : List Dependency) (d : Dependency) :
    (updateSlots deps d).1.length = deps.length := by
  unfold updateSlots
  split_ifs
  · rfl
  · rcases h : markCommitted d deps with _ | p
    · simp [length_insertDep]
    · simp [length_markCommitted d h]

/-- Dependencies, larger instance ids first and each id once. -/
structure Entries (ds : List Dependency) : Prop where
  full : ∀ d ∈ ds, ¬ d.Empty
  sorted : ds.Pairwise fun a b => b.id.instanceId ≤ a.id.instanceId
  nodup : (ds.map Dependency.id).Nodup

/-- Zeroed slots. -/
def zeros (n : ℕ) : List Dependency := List.replicate n .zero

@[simp] theorem length_zeros (n : ℕ) : (zeros n).length = n := by simp [zeros]

theorem empty_of_mem_zeros {n : ℕ} {d : Dependency} (h : d ∈ zeros n) : d.Empty := by
  rw [List.eq_of_mem_replicate h]
  exact Dependency.zero_empty

theorem zeros_eq_cons {n : ℕ} {e : Dependency} {es : List Dependency} (h : zeros n = e :: es) :
    ∃ n', n = n' + 1 ∧ es = zeros n' := by
  cases n with
  | zero => cases h
  | succ n => exact ⟨n, rfl, ((List.cons.inj h).2).symm⟩

/-- The entries first, the zeroed slots after them. -/
def Packed (xs : List Dependency) : Prop := ∃ ds n, xs = ds ++ zeros n ∧ Entries ds

theorem Entries.nil : Entries [] := ⟨by simp, .nil, by simp⟩

theorem packed_zeros (n : ℕ) : Packed (zeros n) := ⟨[], n, rfl, .nil⟩

section Update

variable {d : Dependency}

theorem markCommitted_eq_none {xs : List Dependency} (h : d.id ∉ xs.map Dependency.id) :
    markCommitted d xs = none := by
  induction xs with
  | nil => rfl
  | cons x xs ih =>
    simp only [List.map_cons, List.mem_cons, not_or] at h
    simp [markCommitted, Ne.symm h.1, ih h.2]

theorem markCommitted_of_mem {xs : List Dependency} (ys : List Dependency)
    (h : d.id ∈ xs.map Dependency.id) :
    ∃ hi x lo, xs = hi ++ x :: lo ∧ x.id = d.id
      ∧ markCommitted d (xs ++ ys)
          = some (hi ++ { x with committed := max x.committed d.committed } :: lo ++ ys,
              if x.committed < d.committed then 1 else 0) := by
  induction xs with
  | nil => simp at h
  | cons x xs ih =>
    by_cases hx : x.id = d.id
    · refine ⟨[], x, xs, rfl, hx, ?_⟩
      simp only [List.cons_append, markCommitted, if_pos hx, List.nil_append]
      split_ifs with hc
      · rw [max_eq_right hc.le]
      · rw [max_eq_left (not_lt.1 hc)]
    · simp only [List.map_cons, List.mem_cons, Ne.symm hx, false_or] at h
      obtain ⟨hi, y, lo, rfl, hy, he⟩ := ih h
      refine ⟨x :: hi, y, lo, rfl, hy, ?_⟩
      simp only [List.append_assoc, List.cons_append] at he ⊢
      simp [markCommitted, hx, he]

theorem shiftSlots_entries {es : List Dependency} (he : ∀ e ∈ es, e.Empty) :
    ∀ {xs : List Dependency} (p : Dependency), (∀ x ∈ xs, ¬ x.Empty) →
      shiftSlots p (xs ++ es) = (p :: xs).dropLast ++ es
  | [], p, _ => by
    induction es generalizing p with
    | nil => rfl
    | cons e es ih =>
      rw [List.forall_mem_cons] at he
      have := ih he.2 e
      simp only [List.nil_append, List.dropLast_singleton] at this ⊢
      simp [shiftSlots, he.1, this]
  | x :: xs, p, h => by
    simp only [List.forall_mem_cons] at h
    simp [shiftSlots, h.1, shiftSlots_entries he x h.2]

theorem insertDep_append {hi : List Dependency} (ys : List Dependency)
    (h : ∀ x ∈ hi, d.id.instanceId ≤ x.id.instanceId) :
    insertDep d (hi ++ ys) = (hi ++ (insertDep d ys).1, (insertDep d ys).2) := by
  induction hi with
  | nil => rfl
  | cons x hi ih =>
    simp only [List.forall_mem_cons] at h
    simp [insertDep, not_lt.2 h.1, ih h.2]

theorem insertDep_of_lt {x : Dependency} {lo es : List Dependency} (he : ∀ e ∈ es, e.Empty)
    (hx : x.id.instanceId < d.id.instanceId) (h : ∀ y ∈ lo, ¬ y.Empty) :
    insertDep d (x :: lo ++ es) = (d :: (x :: lo).dropLast ++ es, 1) := by
  simp [insertDep, hx, shiftSlots_entries he x h]

theorem insertDep_empty (hd : ¬ d.Empty) {e : Dependency} {es : List Dependency}
    (he : ∀ x ∈ e :: es, x.Empty) : insertDep d (e :: es) = (d :: es, 1) := by
  rw [List.forall_mem_cons] at he
  have hlt : e.id.instanceId < d.id.instanceId := he.1.trans_lt (Nat.pos_of_ne_zero hd)
  have h := @shiftSlots_entries es he.2 [] e (fun _ h => absurd h List.not_mem_nil)
  simp only [List.nil_append, List.dropLast_singleton] at h
  simp [insertDep, hlt, h]

/-- The entries at least as large as `d`, and the smaller ones. -/
theorem Entries.split {ds : List Dependency} (h : Entries ds) (d : Dependency) :
    ∃ hi lo, ds = hi ++ lo ∧ (∀ x ∈ hi, d.id.instanceId ≤ x.id.instanceId)
      ∧ ∀ x ∈ lo, x.id.instanceId < d.id.instanceId := by
  obtain ⟨-, hs, -⟩ := h
  induction ds with
  | nil => exact ⟨[], [], rfl, by simp, by simp⟩
  | cons x xs ih =>
    obtain ⟨hx, hxs⟩ := List.pairwise_cons.1 hs
    by_cases hd : d.id.instanceId ≤ x.id.instanceId
    · obtain ⟨hi, lo, rfl, h₁, h₂⟩ := ih hxs
      exact ⟨x :: hi, lo, rfl, by simpa [hd] using h₁, h₂⟩
    · refine ⟨[], x :: xs, rfl, by simp, fun y hy => ?_⟩
      rcases List.mem_cons.1 hy with rfl | hy
      · omega
      · have := hx y hy
        omega

/-- What `update_deps` does to entries with empty slots after them: it marks the entry with the id,
or finds no room, or fills the first empty slot, or pushes out the last of the smaller entries. -/
theorem updateSlots_cases {ds es : List Dependency} (h : Entries ds) (he : ∀ e ∈ es, e.Empty)
    (hd : ¬ d.Empty) :
    (∃ hi x lo, ds = hi ++ x :: lo ∧ x.id = d.id
      ∧ updateSlots (ds ++ es) d
          = (hi ++ { x with committed := max x.committed d.committed } :: lo ++ es,
              if x.committed < d.committed then 1 else 0))
    ∨ (d.id ∉ ds.map Dependency.id
      ∧ ((es = [] ∧ (∀ x ∈ ds, d.id.instanceId ≤ x.id.instanceId)
          ∧ updateSlots (ds ++ es) d = (ds ++ es, 0))
        ∨ (∃ e es', es = e :: es' ∧ (∀ x ∈ ds, d.id.instanceId ≤ x.id.instanceId)
          ∧ updateSlots (ds ++ es) d = (ds ++ [d] ++ es', 1))
        ∨ (∃ hi x lo, ds = hi ++ x :: lo ∧ (∀ y ∈ hi, d.id.instanceId ≤ y.id.instanceId)
          ∧ (∀ y ∈ x :: lo, y.id.instanceId < d.id.instanceId)
          ∧ updateSlots (ds ++ es) d = (hi ++ d :: (x :: lo).dropLast ++ es, 1)))) := by
  have hz : d.id ∉ es.map Dependency.id := by
    rintro hm
    obtain ⟨y, hy, hid⟩ := List.mem_map.1 hm
    exact hd (by rw [Dependency.Empty, ← hid]; exact he y hy)
  unfold updateSlots
  rw [if_neg hd]
  by_cases hm : d.id ∈ ds.map Dependency.id
  · obtain ⟨hi, x, lo, rfl, hx, hu⟩ := markCommitted_of_mem es hm
    exact .inl ⟨hi, x, lo, rfl, hx, by rw [hu]; rfl⟩
  · refine .inr ⟨hm, ?_⟩
    rw [markCommitted_eq_none (by simpa using ⟨by simpa using hm, by simpa using hz⟩)]
    obtain ⟨hi, lo, rfl, h₁, h₂⟩ := h.split d
    simp only [Option.getD_none, List.append_assoc, insertDep_append _ h₁]
    cases lo with
    | nil =>
      cases es with
      | nil => exact .inl ⟨rfl, by simpa using h₁, by simp [insertDep]⟩
      | cons e es =>
        refine .inr (.inl ⟨e, es, rfl, by simpa using h₁, ?_⟩)
        simp [insertDep_empty hd he]
    | cons x lo =>
      have hlo : ∀ y ∈ lo, ¬ y.Empty := fun y hy => h.full y (by simp [hy])
      refine .inr (.inr ⟨hi, x, lo, rfl, h₁, h₂, ?_⟩)
      have := insertDep_of_lt he (h₂ x (by simp)) hlo
      simp only [List.cons_append] at this
      simp [this]

theorem Entries.mark {hi lo : List Dependency} {x : Dependency} (h : Entries (hi ++ x :: lo))
    (c : ℕ) : Entries (hi ++ { x with committed := c } :: lo) := by
  refine ⟨fun y hy => ?_, ?_, by simpa using h.nodup⟩
  · simp only [List.mem_append, List.mem_cons] at hy
    rcases hy with hy | rfl | hy
    · exact h.full y (by simp [hy])
    · exact h.full x (by simp)
    · exact h.full y (by simp [hy])
  · have hs := h.sorted
    simp only [List.pairwise_append, List.pairwise_cons, List.forall_mem_cons] at hs ⊢
    exact hs

theorem Entries.insert {hi lo : List Dependency} (h : Entries (hi ++ lo)) (hd : ¬ d.Empty)
    (hn : d.id ∉ (hi ++ lo).map Dependency.id)
    (h₁ : ∀ y ∈ hi, d.id.instanceId ≤ y.id.instanceId)
    (h₂ : ∀ y ∈ lo, y.id.instanceId < d.id.instanceId) : Entries (hi ++ d :: lo) := by
  refine ⟨fun y hy => ?_, ?_, ?_⟩
  · simp only [List.mem_append, List.mem_cons] at hy
    rcases hy with hy | rfl | hy
    · exact h.full y (by simp [hy])
    · exact hd
    · exact h.full y (by simp [hy])
  · have hs := h.sorted
    simp only [List.pairwise_append, List.pairwise_cons, List.forall_mem_cons] at hs ⊢
    exact ⟨hs.1, ⟨fun y hy => (h₂ y hy).le, hs.2.1⟩, fun y hy => ⟨h₁ y hy, hs.2.2 y hy⟩⟩
  · have hp : ((hi ++ d :: lo).map Dependency.id).Perm (d.id :: (hi ++ lo).map Dependency.id) := by
      simp only [List.map_append, List.map_cons]
      exact List.perm_middle
    exact hp.nodup_iff.2 (List.nodup_cons.2 ⟨hn, h.nodup⟩)

theorem Entries.sublist {xs ys : List Dependency} (h : Entries ys) (hs : xs.Sublist ys) :
    Entries xs where
  full y hy := h.full y (hs.subset hy)
  sorted := h.sorted.sublist hs
  nodup := h.nodup.sublist (hs.map _)

theorem packed_updateSlots {xs : List Dependency} (h : Packed xs) (d : Dependency) :
    Packed (updateSlots xs d).1 := by
  obtain ⟨ds, n, rfl, hs⟩ := h
  by_cases hd : d.Empty
  · rw [updateSlots, if_pos hd]
    exact ⟨ds, n, rfl, hs⟩
  rcases updateSlots_cases hs (fun _ => empty_of_mem_zeros (n := n)) hd with
    ⟨hi, x, lo, rfl, -, hu⟩ | ⟨hn, hu⟩
  · rw [hu]
    exact ⟨_, n, rfl, hs.mark _⟩
  rcases hu with ⟨-, -, hu⟩ | ⟨e, es, hes, h₁, hu⟩ | ⟨hi, x, lo, rfl, h₁, h₂, hu⟩ <;> rw [hu]
  · exact ⟨ds, n, rfl, hs⟩
  · obtain ⟨n', -, rfl⟩ := zeros_eq_cons hes
    have hs' : Entries (ds ++ []) := by simpa using hs
    exact ⟨_, n', rfl, hs'.insert hd (by simpa using hn) h₁ (by simp)⟩
  · refine ⟨_, n, rfl, Entries.sublist (hs.insert hd hn h₁ h₂) ?_⟩
    exact List.Sublist.append_left (List.Sublist.cons_cons d (List.dropLast_sublist _)) hi

end Update

/-- `lt_dep_replica`: the instance id of the first slot of the replica. -/
def ltDepReplica (replicaId : ℕ) (slots : List Dependency) : ℕ :=
  ((slots.find? fun d => d.id.replicaId = replicaId).map fun d => d.id.instanceId).getD 0

/-- `has_key`. -/
def hasKey (id : InstanceId) (slots : List Dependency) : Bool := slots.any fun d => d.id = id

/-- `struct dependency deps[MAX_DEPS]`, as `update_deps` and copies of it leave it. -/
@[ext]
structure Deps where
  slots : List Dependency
  size : slots.length = maxDeps
  packed : Packed slots
  deriving DecidableEq

namespace Deps

/-- A zeroed array. -/
def zero : Deps := ⟨zeros maxDeps, by simp, packed_zeros _⟩

instance : Inhabited Deps := ⟨zero⟩

/-- `update_deps`: the array, and 1 when it changed. -/
def update (deps : Deps) (d : Dependency) : Deps × ℕ :=
  (⟨(updateSlots deps.slots d).1, (length_updateSlots _ _).trans deps.size,
    packed_updateSlots deps.packed d⟩, (updateSlots deps.slots d).2)

/-- Every entry of `ds` put in by `update_deps` in turn: the array, and the number of changes. -/
def merge (deps : Deps) : List Dependency → Deps × ℕ
  | [] => (deps, 0)
  | d :: ds => (((deps.update d).1.merge ds).1, (deps.update d).2 + ((deps.update d).1.merge ds).2)

/-- The slots that hold a dependency. -/
def entries (deps : Deps) : List Dependency := deps.slots.filter fun d => ¬ d.Empty

/-- `id` is the id of an entry. -/
def Has (deps : Deps) (id : InstanceId) : Prop := ∃ d ∈ deps.entries, d.id = id

instance (deps : Deps) (id : InstanceId) : Decidable (deps.Has id) :=
  inferInstanceAs (Decidable (∃ _ ∈ _, _))

/-- The two arrays hold the same set of ids. -/
def SameIds (a b : Deps) : Prop := ∀ id, a.Has id ↔ b.Has id

theorem SameIds.refl (a : Deps) : a.SameIds a := fun _ => Iff.rfl

theorem SameIds.symm {a b : Deps} (h : a.SameIds b) : b.SameIds a := fun id => (h id).symm

theorem SameIds.trans {a b c : Deps} (h₁ : a.SameIds b) (h₂ : b.SameIds c) : a.SameIds c :=
  fun id => (h₁ id).trans (h₂ id)

/-- `lt_dep_replica` of the array. -/
def ltDepReplica (replicaId : ℕ) (deps : Deps) : ℕ := Epx.ltDepReplica replicaId deps.slots

/-- `equal_deps`. -/
def equalDeps (a b : Deps) : Bool :=
  (a.slots.zip b.slots).all fun p => p.1.id = p.2.id && p.1.committed = p.2.committed

end Deps

/-- `has_uncommitted_deps` on the slots: the first empty slot ends the search. -/
def hasUncommitted : List Dependency → Bool
  | [] => false
  | d :: ds => if d.Empty then false else if d.committed = 0 then true else hasUncommitted ds

end Epx
