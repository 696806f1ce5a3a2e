import Epx.Dependency

/-!
# What update_deps keeps

An array in order, with its empty slots last and no id twice, whatever the empty slots hold. A new
entry in front of a smaller one takes the place of the last entry, although there may be an empty
slot behind that one.
-/

namespace Epx

/-- The slots that hold a dependency. -/
def occupied (xs : List Dependency) : List Dependency := xs.filter fun d => ¬ d.Empty

/-- The instance ids do not grow, so that the empty slots are last, and no dependency is there
twice. -/
structure SlotsInOrder (xs : List Dependency) : Prop where
  sorted : xs.Pairwise fun a b => b.id.instanceId ≤ a.id.instanceId
  nodup : ((occupied xs).map Dependency.id).Nodup

/-- The entries with `d` among them, behind those with its instance id: as many of the largest as
there are slots. -/
def newest (ds : List Dependency) (d : Dependency) : List Dependency :=
  ((ds.filter fun x => d.id.instanceId ≤ x.id.instanceId)
    ++ d :: ds.filter fun x => x.id.instanceId < d.id.instanceId).take maxDeps

/-- `update_deps` marks an entry that is there, else keeps the newest, and answers 1 if the array
changes. -/
structure KeepsNewest (xs : List Dependency) (d : Dependency) : Prop where
  marked : d.id ∈ (occupied xs).map Dependency.id → (updateSlots xs d).1
    = xs.map fun x => if x.id = d.id then { x with committed := max x.committed d.committed } else x
  added : d.id ∉ (occupied xs).map Dependency.id →
    occupied (updateSlots xs d).1 = newest (occupied xs) d
  answer : (updateSlots xs d).2 = 1 ↔ (updateSlots xs d).1 ≠ xs

section Slots

variable {xs ds es hi lo : List Dependency} {d x : Dependency}

theorem occupied_append (h : ∀ x ∈ ds, ¬ x.Empty) (he : ∀ e ∈ es, e.Empty) :
    occupied (ds ++ es) = ds := by
  unfold occupied
  rw [List.filter_append, List.filter_eq_self.2 (by simpa using h),
    List.filter_eq_nil_iff.2 (by simpa using he), List.append_nil]

theorem SlotsInOrder.tail (h : SlotsInOrder (x :: xs)) : SlotsInOrder xs where
  sorted := (List.pairwise_cons.1 h.sorted).2
  nodup := h.nodup.sublist (((List.sublist_cons_self x xs).filter _).map _)

/-- The entries of a well-formed array, and its empty slots. -/
theorem SlotsInOrder.split (h : SlotsInOrder xs) :
    ∃ es, xs = occupied xs ++ es ∧ Entries (occupied xs) ∧ ∀ e ∈ es, e.Empty := by
  have hent : Entries (occupied xs) := by
    refine ⟨fun d hd => ?_, h.sorted.sublist List.filter_sublist, h.nodup⟩
    simpa using (List.mem_filter.1 hd).2
  suffices hes : ∃ es, xs = occupied xs ++ es ∧ ∀ e ∈ es, e.Empty by
    obtain ⟨es, he, hes⟩ := hes
    exact ⟨es, he, hent, hes⟩
  clear hent
  induction xs with
  | nil => exact ⟨[], rfl, fun _ h => absurd h List.not_mem_nil⟩
  | cons x xs ih =>
    obtain ⟨es, he, hes⟩ := ih h.tail
    by_cases hx : x.Empty
    · have hall : ∀ y ∈ x :: xs, y.Empty := by
        refine List.forall_mem_cons.2 ⟨hx, fun y hy => ?_⟩
        exact Nat.le_zero.1 (((List.pairwise_cons.1 h.sorted).1 y hy).trans_eq hx)
      have hnil : occupied (x :: xs) = [] := List.filter_eq_nil_iff.2 (by simpa using hall)
      exact ⟨x :: xs, by rw [hnil, List.nil_append], hall⟩
    · have hcons : occupied (x :: xs) = x :: occupied xs := List.filter_cons_of_pos (by simpa)
      exact ⟨es, by rw [hcons, List.cons_append, ← he], hes⟩

/-- Marking the entry is marking every slot with its id. -/
theorem map_mark (he : ∀ e ∈ es, e.Empty) (hd : ¬ d.Empty) (hx : x.id = d.id)
    (hn : ((hi ++ x :: lo).map Dependency.id).Nodup) :
    (hi ++ x :: lo ++ es).map (fun y =>
        if y.id = d.id then { y with committed := max y.committed d.committed } else y)
      = hi ++ { x with committed := max x.committed d.committed } :: lo ++ es := by
  have hsame : ∀ {ys : List Dependency}, d.id ∉ ys.map Dependency.id → ys.map (fun y =>
      if y.id = d.id then { y with committed := max y.committed d.committed } else y) = ys := by
    intro ys hys
    refine (List.map_congr_left fun y hy => ?_).trans (List.map_id ys)
    exact if_neg fun hid => hys (List.mem_map.2 ⟨y, hy, hid⟩)
  rw [List.map_append, List.map_cons, List.nodup_append, List.nodup_cons, hx] at hn
  obtain ⟨-, ⟨hlo, -⟩, hdis⟩ := hn
  have hhi : d.id ∉ hi.map Dependency.id := fun h => hdis _ h _ List.mem_cons_self rfl
  have hes : d.id ∉ es.map Dependency.id := by
    intro hm
    obtain ⟨e, hmem, hid⟩ := List.mem_map.1 hm
    exact hd (by rw [Dependency.Empty, ← hid]; exact he e hmem)
  rw [List.map_append, List.map_append, List.map_cons, hsame hhi, hsame hlo, hsame hes, if_pos hx]

/-- The order in which the entries and `d` are kept. -/
theorem newest_split (h₁ : ∀ y ∈ hi, d.id.instanceId ≤ y.id.instanceId)
    (h₂ : ∀ y ∈ lo, y.id.instanceId < d.id.instanceId) :
    newest (hi ++ lo) d = (hi ++ d :: lo).take maxDeps := by
  unfold newest
  rw [List.filter_append, List.filter_append, List.filter_eq_self.2 (by simpa using h₁),
    List.filter_eq_nil_iff.2 (by simpa using h₂), List.filter_eq_nil_iff.2 (by simpa using h₁),
    List.filter_eq_self.2 (by simpa using h₂), List.append_nil, List.nil_append]

/-- An array that holds a new entry has changed. -/
theorem ne_of_mem_new {ys : List Dependency} (hd : ¬ d.Empty)
    (hn : d.id ∉ (occupied xs).map Dependency.id) (hy : d ∈ ys) : ys ≠ xs := by
  rintro rfl
  exact hn (List.mem_map.2 ⟨d, List.mem_filter.2 ⟨hy, by simpa⟩, rfl⟩)

/-- `update_deps` keeps the newest of a well-formed array just when the id is there, or no entry is
smaller, or there is no empty slot. -/
theorem keepsNewest_iff (h : SlotsInOrder xs) (hlen : xs.length = maxDeps) (hd : ¬ d.Empty) :
    KeepsNewest xs d ↔ d.id ∈ (occupied xs).map Dependency.id
      ∨ (∀ x ∈ occupied xs, d.id.instanceId ≤ x.id.instanceId) ∨ ∀ x ∈ xs, ¬ x.Empty := by
  obtain ⟨es, hxs, hent, hes⟩ := h.split
  generalize hds : occupied xs = ds at hxs hent ⊢
  subst hxs
  rw [List.length_append] at hlen
  rcases updateSlots_cases hent hes hd with ⟨hi, x, lo, rfl, hid, hu⟩ | ⟨hn, hu⟩
  · -- the id is there
    have hmem : d.id ∈ (hi ++ x :: lo).map Dependency.id :=
      List.mem_map.2 ⟨x, List.mem_append_right _ List.mem_cons_self, hid⟩
    refine iff_of_true ⟨fun _ => ?_, fun hn => absurd hmem (hds ▸ hn), ?_⟩ (.inl hmem)
    · rw [hu, map_mark hes hd hid hent.nodup]
    · rw [hu]
      dsimp only
      split_ifs with hc
      · refine iff_of_true rfl fun heq => hc.not_ge ?_
        rw [List.append_left_inj, List.append_right_inj] at heq
        have hx := congrArg Dependency.committed (List.cons.inj heq).1
        exact max_eq_left_iff.1 hx
      · rw [max_eq_left (not_lt.1 hc)]
        exact iff_of_false not_false fun hne => hne rfl
  have hnew : d.id ∉ (occupied (ds ++ es)).map Dependency.id := by rwa [hds]
  rcases hu with ⟨rfl, hge, hu⟩ | ⟨e, es, rfl, hge, hu⟩ | ⟨hi, x, lo, rfl, hhi, hlo, hu⟩
  · -- full, and nothing smaller
    refine iff_of_true ⟨fun hm => absurd hm hnew, fun _ => ?_, ?_⟩ (.inr (.inl hge))
    · have hsplit := @newest_split _ [] _ hge (fun _ h => absurd h List.not_mem_nil)
      rw [List.append_nil] at hsplit
      rw [hu, hds, hsplit, List.take_left' (by simpa using hlen)]
    · rw [hu]
      exact iff_of_false zero_ne_one fun hne => hne rfl
  · -- an empty slot, and nothing smaller
    have hfull : ∀ y ∈ ds ++ [d], ¬ y.Empty := by
      intro y hy
      rcases List.mem_append.1 hy with hy | hy
      · exact hent.full y hy
      · rwa [List.mem_singleton.1 hy]
    refine iff_of_true ⟨fun hm => absurd hm hnew, fun _ => ?_, ?_⟩ (.inr (.inl hge))
    · have hsplit := @newest_split _ [] _ hge (fun _ h => absurd h List.not_mem_nil)
      rw [List.append_nil] at hsplit
      rw [hu, hds, hsplit, occupied_append hfull (List.forall_mem_cons.1 hes).2,
        List.take_of_length_le]
      rw [List.length_append, List.length_singleton]
      simp only [List.length_cons] at hlen
      omega
    · rw [hu]
      exact iff_of_true rfl (ne_of_mem_new hd hnew (by simp))
  · -- in front of a smaller entry the last one goes
    have hfull : ∀ y ∈ hi ++ d :: (x :: lo).dropLast, ¬ y.Empty := by
      intro y hy
      rcases List.mem_append.1 hy with hy | hy
      · exact hent.full y (List.mem_append_left _ hy)
      rcases List.mem_cons.1 hy with rfl | hy
      · exact hd
      · exact hent.full y (List.mem_append_right _ (List.mem_of_mem_dropLast hy))
    have hocc : occupied (updateSlots (hi ++ x :: lo ++ es) d).1
        = hi ++ d :: (x :: lo).dropLast := by
      rw [hu, occupied_append hfull hes]
    have hkeep : newest (hi ++ x :: lo) d = (hi ++ d :: x :: lo).take maxDeps :=
      newest_split hhi hlo
    simp only [List.length_append, List.length_cons] at hlen
    cases es with
    | nil =>
      refine iff_of_true ⟨fun hm => absurd hm hnew, fun _ => ?_, ?_⟩ (.inr (.inr ?_))
      · have htake : (hi ++ d :: (x :: lo)).take maxDeps = hi ++ d :: (x :: lo).dropLast := by
          rw [List.length_nil] at hlen
          have hrest : maxDeps - hi.length = lo.length + 1 := by omega
          rw [List.take_append, List.take_of_length_le (by omega), hrest, List.take_succ_cons,
            List.dropLast_eq_take, List.length_cons, Nat.add_sub_cancel]
        rw [hocc, hds, hkeep, htake]
      · rw [hu]
        exact iff_of_true rfl (ne_of_mem_new hd hnew (by simp))
      · rw [List.append_nil]
        exact hent.full
    | cons e es =>
      refine iff_of_false (fun hk => ?_) ?_
      · have hadd := hk.added hnew
        rw [hocc, hds, hkeep, List.take_of_length_le] at hadd
        · have hl := congrArg List.length hadd
          simp only [List.length_append, List.length_cons, List.length_dropLast] at hl
          omega
        · simp only [List.length_append, List.length_cons] at hlen ⊢
          omega
      · rintro (hm | hge | hall)
        · exact hn hm
        · exact (hlo x List.mem_cons_self).not_ge
            (hge x (List.mem_append_right _ List.mem_cons_self))
        · exact hall e (List.mem_append_right _ List.mem_cons_self)
            (hes e List.mem_cons_self)

/-- The entry 0.3 is put behind 0.5. -/
theorem keepsNewest_behind : KeepsNewest (⟨⟨0, 5⟩, 0⟩ :: zeros 7) ⟨⟨0, 3⟩, 0⟩ :=
  (keepsNewest_iff ⟨by decide, by decide⟩ (by decide) (by decide)).2 (.inr (.inl (by decide)))

/-- The entry 0.5 takes the place of 0.3, with seven empty slots behind it. -/
theorem entry_lost : ¬ KeepsNewest (⟨⟨0, 3⟩, 0⟩ :: zeros 7) ⟨⟨0, 5⟩, 0⟩
    ∧ occupied (updateSlots (⟨⟨0, 3⟩, 0⟩ :: zeros 7) ⟨⟨0, 5⟩, 0⟩).1 = [⟨⟨0, 5⟩, 0⟩] :=
  ⟨fun h => absurd (h.added (by decide)) (by decide), by decide⟩

end Slots

end Epx
