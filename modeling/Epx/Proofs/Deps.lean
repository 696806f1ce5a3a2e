import Epx.Dependency

/-!
# What update_deps and merging keep

A packed array is its entries. Updating it with a new entry keeps every entry at least as large as
the new one, and merging the entries of another array in order leaves all of those in.
-/

namespace Epx

namespace Deps

theorem entries_append {ds : List Dependency} {n : ℕ} (h : ∀ d ∈ ds, ¬ d.Empty) :
    (ds ++ zeros n).filter (fun d => ¬ d.Empty) = ds := by
  rw [List.filter_append, List.filter_eq_self.2 (by simpa using h), List.filter_eq_nil_iff.2,
    List.append_nil]
  intro d hd
  simpa using empty_of_mem_zeros hd

theorem exists_entries (deps : Deps) :
    ∃ n, deps.slots = deps.entries ++ zeros n ∧ deps.entries.length + n = maxDeps
      ∧ Entries deps.entries := by
  obtain ⟨ds, n, h, hs⟩ := deps.packed
  have he : deps.entries = ds := by rw [entries, h, entries_append hs.full]
  refine ⟨n, he ▸ h, ?_, he ▸ hs⟩
  have := deps.size
  rw [h, List.length_append, length_zeros] at this
  rw [he, this]

theorem entries_ok (deps : Deps) : Entries deps.entries := (exists_entries deps).choose_spec.2.2

theorem length_entries (deps : Deps) : deps.entries.length ≤ maxDeps := by
  obtain ⟨n, -, h, -⟩ := deps.exists_entries
  omega

theorem ext_entries {a b : Deps} (h : a.entries = b.entries) : a = b := by
  obtain ⟨n, ha, hn, -⟩ := a.exists_entries
  obtain ⟨k, hb, hk, -⟩ := b.exists_entries
  have : n = k := by rw [h] at hn; omega
  exact Deps.ext (by rw [ha, hb, h, this])

theorem has_iff {deps : Deps} {id : InstanceId} :
    deps.Has id ↔ id ∈ deps.entries.map Dependency.id := by
  simp [Has]

@[simp] theorem entries_zero : zero.entries = [] := by decide

theorem not_has_zero (id : InstanceId) : ¬ zero.Has id := by simp [has_iff]

/-- `update_deps`, on the entries. -/
theorem update_cases (deps : Deps) {d : Dependency} (hd : ¬ d.Empty) :
    (∃ hi x lo, deps.entries = hi ++ x :: lo ∧ x.id = d.id
      ∧ (deps.update d).1.entries
          = hi ++ { x with committed := max x.committed d.committed } :: lo
      ∧ (deps.update d).2 = if x.committed < d.committed then 1 else 0)
    ∨ (¬ deps.Has d.id
      ∧ ((deps.entries.length = maxDeps ∧ (∀ x ∈ deps.entries, d.id.instanceId ≤ x.id.instanceId)
          ∧ deps.update d = (deps, 0))
        ∨ (deps.entries.length < maxDeps
          ∧ (∀ x ∈ deps.entries, d.id.instanceId ≤ x.id.instanceId)
          ∧ (deps.update d).1.entries = deps.entries ++ [d] ∧ (deps.update d).2 = 1)
        ∨ (∃ hi x lo, deps.entries = hi ++ x :: lo
          ∧ (∀ y ∈ hi, d.id.instanceId ≤ y.id.instanceId)
          ∧ (∀ y ∈ x :: lo, y.id.instanceId < d.id.instanceId)
          ∧ (deps.update d).1.entries = hi ++ d :: (x :: lo).dropLast
          ∧ (deps.update d).2 = 1))) := by
  obtain ⟨n, hs, hn, hw⟩ := deps.exists_entries
  have hu₁ : (deps.update d).1.slots = (updateSlots (deps.entries ++ zeros n) d).1 := by
    rw [← hs]; rfl
  have hu₂ : (deps.update d).2 = (updateSlots (deps.entries ++ zeros n) d).2 := by
    rw [← hs]; rfl
  have hf : ∀ {xs}, (deps.update d).1.slots = xs → (deps.update d).1.entries
      = xs.filter fun d => ¬ d.Empty := fun h => by rw [entries, h]
  rcases updateSlots_cases hw (fun _ => empty_of_mem_zeros (n := n)) hd with
    ⟨hi, x, lo, he, hx, hu⟩ | ⟨hm, hu⟩
  · refine .inl ⟨hi, x, lo, he, hx, ?_, by rw [hu₂, hu]⟩
    rw [hu] at hu₁
    rw [hf hu₁, entries_append]
    exact ((he ▸ hw).mark _).full
  refine .inr ⟨fun h => hm (has_iff.1 h), ?_⟩
  rcases hu with ⟨h₀, h₁, hu⟩ | ⟨e, es, h₀, h₁, hu⟩ | ⟨hi, x, lo, he, h₁, h₂, hu⟩
  · obtain rfl : n = 0 := by simpa using congrArg List.length h₀
    refine .inl ⟨by omega, h₁, Prod.ext (Deps.ext ?_) (by rw [hu₂, hu])⟩
    rw [hu₁, hu]
    exact hs.symm
  · obtain ⟨n', rfl, rfl⟩ := zeros_eq_cons h₀
    refine .inr (.inl ⟨by omega, h₁, ?_, by rw [hu₂, hu]⟩)
    rw [hu] at hu₁
    rw [hf hu₁, entries_append]
    intro y hy
    rcases List.mem_append.1 hy with hy | hy
    · exact hw.full y hy
    · simp only [List.mem_singleton] at hy
      rwa [hy]
  · refine .inr (.inr ⟨hi, x, lo, he, h₁, h₂, ?_, by rw [hu₂, hu]⟩)
    rw [hu] at hu₁
    rw [hf hu₁, entries_append]
    intro y hy
    simp only [List.mem_append, List.mem_cons] at hy
    rcases hy with hy | rfl | hy
    · exact hw.full y (by simp [he, hy])
    · exact hd
    · exact hw.full y (by rw [he]; exact List.mem_append_right _ (List.mem_of_mem_dropLast hy))

end Deps

/-- The dependencies on instances with the instance id `n`. -/
def level (n : ℕ) (ds : List Dependency) : List InstanceId :=
  (ds.map Dependency.id).filter fun id => id.instanceId = n

/-- `ys` has every dependency of `xs`, committed where it is in `xs`, and of those with one instance
id the ones of `xs` first and in the order of `xs`. -/
def Within (xs ys : List Dependency) : Prop :=
  (∀ x ∈ xs, ∃ y ∈ ys, y.id = x.id ∧ x.committed ≤ y.committed)
    ∧ ∀ x ∈ xs, level x.id.instanceId xs <+: level x.id.instanceId ys

instance (xs ys : List Dependency) : Decidable (Within xs ys) :=
  inferInstanceAs (Decidable (_ ∧ _))

namespace Within

variable {xs ys : List Dependency} {d : Dependency}

theorem level_prefix (h : Within xs ys) (n : ℕ) : level n xs <+: level n ys := by
  cases hl : level n xs with
  | nil => exact List.nil_prefix
  | cons id rest =>
    have hm : id ∈ level n xs := by simp [hl]
    obtain ⟨hm, hn⟩ := List.mem_filter.1 hm
    obtain ⟨x, hx, rfl⟩ := List.mem_map.1 hm
    have := h.2 x hx
    simp only [decide_eq_true_eq] at hn
    rwa [hn, hl] at this

theorem nil_right (h : Within xs []) : xs = [] := by
  cases xs with
  | nil => rfl
  | cons x xs =>
    obtain ⟨y, hy, -⟩ := h.1 x (by simp)
    simp at hy

theorem le_head (h : Within xs (d :: ys)) (he : Entries (d :: ys)) {x : Dependency} (hx : x ∈ xs) :
    x.id.instanceId ≤ d.id.instanceId := by
  obtain ⟨y, hy, hid, -⟩ := h.1 x hx
  rw [← hid]
  rcases List.mem_cons.1 hy with rfl | hy
  · exact le_rfl
  · exact (List.pairwise_cons.1 he.sorted).1 y hy

/-- The first dependency on the level of the head of `ys` is that head. -/
theorem mem_of_level (h : Within xs (d :: ys)) {x : Dependency} (hx : x ∈ xs)
    (hn : x.id.instanceId = d.id.instanceId) :
    ∃ rest, level d.id.instanceId xs = d.id :: rest := by
  have hp := h.level_prefix d.id.instanceId
  have hm : x.id ∈ level d.id.instanceId xs := by
    simp only [level, List.mem_filter, List.mem_map, decide_eq_true_eq]
    exact ⟨⟨x, hx, rfl⟩, hn⟩
  cases hl : level d.id.instanceId xs with
  | nil => rw [hl] at hm; simp at hm
  | cons id rest =>
    rw [hl] at hp
    have : level d.id.instanceId (d :: ys) = d.id :: level d.id.instanceId ys := by simp [level]
    rw [this, List.cons_prefix_cons] at hp
    exact ⟨rest, by rw [hp.1]⟩

theorem level_cons_of_ne {n : ℕ} (h : d.id.instanceId ≠ n) : level n (d :: ys) = level n ys := by
  simp [level, h]

/-- A prefix of `xs` that has nothing on the level of `d` does not need it. -/
theorem of_lt {zs : List Dependency} (h : Within xs (d :: ys)) (hp : zs <+: xs)
    (hlt : ∀ x ∈ xs, x.id.instanceId < d.id.instanceId) : Within zs ys := by
  refine ⟨fun x hx => ?_, fun x hx => ?_⟩
  · obtain ⟨y, hy, hid, hc⟩ := h.1 x (hp.subset hx)
    have := hlt x (hp.subset hx)
    rcases List.mem_cons.1 hy with rfl | hy
    · rw [hid] at this
      omega
    · exact ⟨y, hy, hid, hc⟩
  · have hl := h.2 x (hp.subset hx)
    rw [level_cons_of_ne (hlt x (hp.subset hx)).ne'] at hl
    refine List.IsPrefix.trans ?_ hl
    obtain ⟨ws, rfl⟩ := hp
    simp [level]

/-- With the common head gone, the tails are still one within the other. -/
theorem tail {x : Dependency} (h : Within (x :: xs) (d :: ys)) (hid : x.id = d.id)
    (he : Entries (x :: xs)) : Within xs ys := by
  have hne : ∀ z ∈ xs, z.id ≠ d.id := by
    intro z hz hzd
    have := (List.nodup_cons.1 he.nodup).1
    exact this (List.mem_map.2 ⟨z, hz, hzd.trans hid.symm⟩)
  refine ⟨fun z hz => ?_, fun z hz => ?_⟩
  · obtain ⟨y, hy, hzy, hc⟩ := h.1 z (by simp [hz])
    rcases List.mem_cons.1 hy with rfl | hy
    · exact absurd hzy.symm (hne z hz)
    · exact ⟨y, hy, hzy, hc⟩
  · have hl := h.2 z (by simp [hz])
    by_cases hn : d.id.instanceId = z.id.instanceId
    · simpa [level, hid, hn] using hl
    · rwa [level_cons_of_ne hn, level_cons_of_ne (by rwa [hid])] at hl

end Within

namespace Deps

/-- A list of larger entries followed by one of smaller ones is split in one way only. -/
theorem split_unique {n : ℕ} {a b c e : List Dependency} (h : a ++ b = c ++ e)
    (ha : ∀ x ∈ a, n ≤ x.id.instanceId) (hb : ∀ x ∈ b, x.id.instanceId < n)
    (hc : ∀ x ∈ c, n ≤ x.id.instanceId) (he : ∀ x ∈ e, x.id.instanceId < n) : a = c ∧ b = e := by
  induction a generalizing c with
  | nil =>
    cases c with
    | nil => exact ⟨rfl, h⟩
    | cons y c =>
      have h₁ := hc y (by simp)
      have h₂ := hb y (by simp only [List.nil_append] at h; simp [h])
      omega
  | cons x a ih =>
    cases c with
    | nil =>
      have h₁ := ha x (by simp)
      have h₂ := he x (by simp only [List.nil_append] at h; simp [← h])
      omega
    | cons y c =>
      simp only [List.cons_append, List.cons.injEq] at h
      simp only [List.forall_mem_cons] at ha hc
      obtain ⟨rfl, h₂⟩ := ih h.2 ha.2 hc.2
      exact ⟨by rw [h.1], h₂⟩

/-- Merging what the array is within gives just that. The entries merged so far stand in front, what
is left of the array's own after them. -/
theorem merge_within : ∀ (ds : List Dependency) {a : Deps} {front own : List Dependency},
    a.entries = front ++ own → Entries (front ++ ds) → (front ++ ds).length ≤ maxDeps →
      Within own ds → (a.merge ds).1.entries = front ++ ds
  | [], a, front, own, ha, _, _, hw => by
    rw [hw.nil_right] at ha
    simpa [merge] using ha
  | d :: ds, a, front, own, ha, he, hl, hw => by
    have hd : ¬ d.Empty := he.full d (by simp)
    have hed : Entries (d :: ds) := he.sublist (List.sublist_append_right _ _)
    have hfront : ∀ x ∈ front, d.id.instanceId ≤ x.id.instanceId := fun x hx =>
      (List.pairwise_append.1 he.sorted).2.2 x hx d (by simp)
    have hnf : d.id ∉ front.map Dependency.id := by
      have := he.nodup
      simp only [List.map_append, List.map_cons, List.nodup_append, List.mem_cons] at this
      exact fun hm => this.2.2 _ hm _ (.inl rfl) rfl
    have hown : Entries own := by
      have := a.entries_ok
      rw [ha] at this
      exact this.sublist (List.sublist_append_right _ _)
    simp only [merge]
    have next : ∀ {own'}, (a.update d).1.entries = (front ++ [d]) ++ own' → Within own' ds →
        ((a.update d).1.merge ds).1.entries = front ++ d :: ds := fun h₁ h₂ => by
      have := merge_within ds h₁ (by simpa using he) (by simpa using hl) h₂
      simpa using this
    rcases a.update_cases hd with ⟨hi, x, lo, hx, hid, hu, -⟩ | ⟨hm, hu⟩
    · -- the entry is there: it heads what is left of the array's own
      have hmem : x ∈ own := by
        have : x ∈ front ++ own := by rw [← ha, hx]; simp
        rcases List.mem_append.1 this with h | h
        · exact absurd (List.mem_map.2 ⟨x, h, hid⟩) hnf
        · exact h
      obtain ⟨rest, hrest⟩ := hw.mem_of_level hmem (by rw [hid])
      cases own with
      | nil => simp at hmem
      | cons z own =>
        have hz : z.id = d.id := by
          have h₁ := hw.le_head hed (x := z) (by simp)
          have h₂ : x.id.instanceId ≤ z.id.instanceId := by
            rcases List.mem_cons.1 hmem with rfl | h
            · exact le_rfl
            · exact (List.pairwise_cons.1 hown.sorted).1 x h
          rw [hid] at h₂
          have : z.id.instanceId = d.id.instanceId := le_antisymm h₁ h₂
          simp only [level, List.map_cons, List.filter_cons, this, decide_true, if_true,
            List.cons.injEq] at hrest
          exact hrest.1
        have hnd : ((hi ++ x :: lo).map Dependency.id).Nodup := hx ▸ a.entries_ok.nodup
        simp only [List.map_append, List.map_cons, List.nodup_append, List.nodup_cons] at hnd
        have hxz : x.id = z.id := hid.trans hz.symm
        obtain ⟨rfl, rfl, rfl⟩ := (List.append_cons_inj_of_notMem
          (fun h => hnd.2.2 _ (List.mem_map.2 ⟨z, h, rfl⟩) x.id (by simp) hxz.symm)
          (fun h => hnd.2.1.1 (hxz ▸ List.mem_map.2 ⟨z, h, rfl⟩))).1 (hx.symm.trans ha)
        obtain ⟨y, hy, hyx, hc⟩ := hw.1 x (by simp)
        have hyd : y = d := by
          rcases List.mem_cons.1 hy with rfl | hy
          · rfl
          · have := (List.nodup_cons.1 hed.nodup).1
            exact absurd (List.mem_map.2 ⟨y, hy, hyx.trans hz⟩) this
        refine @next lo ?_ (hw.tail hz hown)
        rw [hu, max_eq_right (hyd ▸ hc)]
        have : ({ x with committed := d.committed } : Dependency) = d := by
          cases x; cases d; simp only at hz; subst hz; rfl
        simp [this]
    · have hlt : ∀ x ∈ own, x.id.instanceId < d.id.instanceId := by
        intro x hx
        refine lt_of_le_of_ne (hw.le_head hed hx) fun hn => ?_
        obtain ⟨rest, hrest⟩ := hw.mem_of_level hx hn
        have : d.id ∈ level d.id.instanceId own := by simp [hrest]
        refine hm (has_iff.2 ?_)
        rw [ha]
        simp only [level, List.mem_filter] at this
        simp [this.1]
      rcases hu with ⟨hfull, h₁, -⟩ | ⟨-, h₁, hu, -⟩ | ⟨hi, x, lo, hx, h₁, h₂, hu, -⟩
      · cases own with
        | nil =>
          rw [ha] at hfull
          simp only [List.append_nil] at hfull
          simp only [List.length_append, List.length_cons] at hl
          omega
        | cons z own =>
          have h₁ := h₁ z (by simp [ha])
          have h₂ := hlt z (by simp)
          omega
      · cases own with
        | nil => exact @next [] (by simpa [ha] using hu) (hw.of_lt List.prefix_rfl hlt)
        | cons z own =>
          have h₁ := h₁ z (by simp [ha])
          have h₂ := hlt z (by simp)
          omega
      · obtain ⟨rfl, rfl⟩ := split_unique (hx.symm.trans ha) h₁ h₂ hfront hlt
        exact next (by simpa using hu) (hw.of_lt (List.dropLast_prefix _) hlt)

theorem update_empty (a : Deps) {d : Dependency} (h : d.Empty) : a.update d = (a, 0) := by
  unfold update updateSlots
  simp only [if_pos h]

theorem merge_append (a : Deps) (xs ys : List Dependency) :
    a.merge (xs ++ ys)
      = (((a.merge xs).1.merge ys).1, (a.merge xs).2 + ((a.merge xs).1.merge ys).2) := by
  induction xs generalizing a with
  | nil => simp [merge]
  | cons x xs ih => simp [merge, ih, add_assoc]

theorem merge_zeros (a : Deps) (n : ℕ) : a.merge (zeros n) = (a, 0) := by
  induction n with
  | zero => rfl
  | succ n ih =>
    have hs : zeros (n + 1) = .zero :: zeros n := by simp [zeros, List.replicate_succ]
    simp [hs, merge, a.update_empty Dependency.zero_empty, ih]

/-- The empty slots of a reply change nothing. -/
theorem merge_slots (a b : Deps) : a.merge b.slots = a.merge b.entries := by
  obtain ⟨n, h, -⟩ := b.exists_entries
  rw [h, merge_append, merge_zeros]
  rfl

/-- A reply that has what the array has takes its place. -/
theorem merge_eq {a b : Deps} (h : Within a.entries b.entries) : (a.merge b.slots).1 = b := by
  refine ext_entries ?_
  rw [merge_slots]
  exact merge_within b.entries (List.nil_append _).symm b.entries_ok b.length_entries h

end Deps

namespace Deps

/-- Where there is room for all of them, a merge puts every entry in: the ones before it are no
smaller, so it pushes none of them out. -/
theorem merge_has {ids : List InstanceId} (hl : ids.length ≤ maxDeps) : ∀ (ds : List Dependency)
    {a : Deps} {front : List Dependency}, Entries (front ++ ds) → (∀ x ∈ front, a.Has x.id) →
      (∀ id, a.Has id → id ∈ ids) → (∀ d ∈ ds, d.id ∈ ids) →
        ∀ x ∈ front ++ ds, (a.merge ds).1.Has x.id
  | [], a, front, _, hf, _, _ => by simpa [merge] using hf
  | d :: ds, a, front, he, hf, ha, hd => by
    have hfull : ¬ d.Empty := he.full d (by simp)
    have hfront : ∀ x ∈ front, d.id.instanceId ≤ x.id.instanceId := fun x hx =>
      (List.pairwise_append.1 he.sorted).2.2 x hx d (by simp)
    simp only [List.forall_mem_cons] at hd
    simp only [merge]
    have next : (∀ x ∈ front ++ [d], (a.update d).1.Has x.id) →
        (∀ id, (a.update d).1.Has id → id ∈ ids) →
          ∀ x ∈ front ++ d :: ds, ((a.update d).1.merge ds).1.Has x.id := fun h₁ h₂ => by
      have := @merge_has _ hl ds _ (front ++ [d]) (by simpa using he) h₁ h₂ hd.2
      simpa using this
    rcases a.update_cases hfull with ⟨hi, y, lo, hy, hid, hu, -⟩ | ⟨hn, hu⟩
    · have hsame : ∀ id, (a.update d).1.Has id ↔ a.Has id := fun id => by
        simp [has_iff, hu, hy]
      refine next (fun x hx => ?_) fun id h => ha id ((hsame id).1 h)
      rw [hsame]
      rcases List.mem_append.1 hx with hx | hx
      · exact hf x hx
      · simp only [List.mem_singleton] at hx
        rw [has_iff, hy, hx]
        simp [hid]
    · rcases hu with ⟨hfullA, -, -⟩ | ⟨-, -, hu, -⟩ | ⟨hi, y, lo, hy, h₁, h₂, hu, -⟩
      · -- no room: but then the array's ids and `d`'s are too many
        have hnd : (d.id :: a.entries.map Dependency.id).Nodup :=
          List.nodup_cons.2 ⟨fun h => hn (has_iff.2 h), a.entries_ok.nodup⟩
        have hsub : (d.id :: a.entries.map Dependency.id) ⊆ ids := by
          simp only [List.cons_subset]
          exact ⟨hd.1, fun id h => ha id (has_iff.2 h)⟩
        have := (hnd.subperm hsub).length_le
        simp only [List.length_cons, List.length_map] at this
        omega
      · have hsame : ∀ id, (a.update d).1.Has id ↔ a.Has id ∨ id = d.id := fun id => by
          simp [has_iff, hu]
        refine next (fun x hx => ?_) fun id h => ?_
        · rw [hsame]
          rcases List.mem_append.1 hx with hx | hx
          · exact .inl (hf x hx)
          · simp only [List.mem_singleton] at hx
            exact .inr (by rw [hx])
        · rcases (hsame id).1 h with h | rfl
          · exact ha id h
          · exact hd.1
      · refine next (fun x hx => ?_) fun id h => ?_
        · rw [has_iff, hu]
          rcases List.mem_append.1 hx with hx | hx
          · have hx' := has_iff.1 (hf x hx)
            rw [hy, List.map_append, List.mem_append] at hx'
            rcases hx' with hx' | hx'
            · simp [hx']
            · obtain ⟨z, hz, hzx⟩ := List.mem_map.1 hx'
              have := h₂ z hz
              rw [hzx] at this
              have := hfront x hx
              omega
          · simp only [List.mem_singleton] at hx
            simp [hx]
        · rw [has_iff, hu, List.map_append, List.mem_append, List.map_cons, List.mem_cons] at h
          rcases h with h | rfl | h
          · exact ha id (has_iff.2 (by simp [hy, h]))
          · exact hd.1
          · refine ha id (has_iff.2 ?_)
            rw [hy, List.map_append, List.mem_append]
            exact .inr (((List.dropLast_sublist _).map _).subset h)

/-- The ids of two arrays. -/
def allIds (a b : Deps) : List InstanceId :=
  (a.entries ++ b.entries.filter fun d => ¬ a.Has d.id).map Dependency.id

theorem has_merge {a b : Deps} (hl : (a.allIds b).length ≤ maxDeps) {id : InstanceId}
    (h : b.Has id) : (a.merge b.slots).1.Has id := by
  have hmem : ∀ id, a.Has id ∨ b.Has id → id ∈ a.allIds b := by
    intro id h
    by_cases ha : a.Has id
    · obtain ⟨d, hd, rfl⟩ := ha
      exact List.mem_map.2 ⟨d, by simp [hd], rfl⟩
    · obtain ⟨d, hd, rfl⟩ := h.resolve_left ha
      exact List.mem_map.2 ⟨d, by simp [hd, ha], rfl⟩
  obtain ⟨d, hd, rfl⟩ := h
  rw [merge_slots]
  exact @merge_has _ hl b.entries _ [] b.entries_ok (by simp) (fun id h => hmem id (.inl h))
    (fun d hd => hmem d.id (.inr ⟨d, hd, rfl⟩)) d hd

end Deps

end Epx
