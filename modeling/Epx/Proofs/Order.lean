import Epx.Proofs.Deps
import Epx.Proofs.Slots

/-!
# Dependencies put in in two orders

`equal_deps` compares slot by slot, and where an entry stands depends on when it came: of two with
one instance id the first is in front, and a larger one coming after a smaller takes its place.
-/

namespace Epx

/-- Two ways to put in the same dependencies leave arrays that `equal_deps` takes for equal, and it
takes no others for equal than those with the same entries. -/
structure OrdersAgree (S : List Dependency) : Prop where
  agree : ∀ l₁ l₂ : List Dependency, (∀ d, d ∈ l₁ ↔ d ∈ S) → (∀ d, d ∈ l₂ ↔ d ∈ S) →
    (Deps.zero.merge l₁).1.equalDeps (Deps.zero.merge l₂).1 = true
  only : ∀ a b : Deps, a.equalDeps b = true → ∀ d, d ∈ a.entries ↔ d ∈ b.entries

namespace Deps

variable {a b : Deps} {d e : Dependency}

/-- `equal_deps` takes two arrays for equal that are. -/
theorem equalDeps_iff : a.equalDeps b = true ↔ a = b := by
  have key : ∀ {xs ys : List Dependency}, xs.length = ys.length →
      (((xs.zip ys).all fun p => p.1.id = p.2.id && p.1.committed = p.2.committed) = true
        ↔ xs = ys) := by
    intro xs
    induction xs with
    | nil =>
      intro ys h
      obtain rfl := List.eq_nil_of_length_eq_zero h.symm
      exact iff_of_true rfl rfl
    | cons x xs ih =>
      intro ys h
      cases ys with
      | nil => cases h
      | cons y ys =>
        obtain ⟨i, c⟩ := x
        obtain ⟨j, k⟩ := y
        rw [List.zip_cons_cons, List.all_cons, Bool.and_eq_true, ih (Nat.succ.inj h)]
        simp
  unfold equalDeps
  rw [key (a.size.trans b.size.symm)]
  exact ⟨Deps.ext, congrArg Deps.slots⟩

theorem merge_empties (a : Deps) : ∀ {l : List Dependency}, (∀ d ∈ l, d.Empty) → a.merge l = (a, 0)
  | [], _ => rfl
  | d :: l, h => by
    rw [List.forall_mem_cons] at h
    rw [merge, a.update_empty h.1, merge_empties a h.2]
    rfl

/-- In order, all of them fit in an empty array. -/
theorem entries_merge_sorted {l : List Dependency} (h : Entries l) (hlen : l.length ≤ maxDeps) :
    (zero.merge l).1.entries = l :=
  @merge_within l _ [] [] entries_zero h hlen
    ⟨fun _ h => absurd h List.not_mem_nil, fun _ h => absurd h List.not_mem_nil⟩

/-- A larger entry takes the place of a single smaller one. -/
theorem entries_update_larger (ha : a.entries = [e]) (hlt : e.id.instanceId < d.id.instanceId) :
    (a.update d).1.entries = [d] := by
  have hd : ¬ d.Empty := Nat.ne_zero_of_lt hlt
  rcases a.update_cases hd with ⟨hi, x, lo, he, hid, -⟩ | ⟨-, ⟨-, hge, -⟩ | ⟨-, hge, -⟩
    | ⟨hi, x, lo, he, hhi, -, hu, -⟩⟩
  · have hx : x ∈ [e] := ha ▸ he ▸ List.mem_append_right _ List.mem_cons_self
    rw [List.mem_singleton.1 hx] at hid
    exact absurd (congrArg InstanceId.instanceId hid) hlt.ne
  · exact absurd (hge e (ha ▸ List.mem_cons_self)) hlt.not_ge
  · exact absurd (hge e (ha ▸ List.mem_cons_self)) hlt.not_ge
  · rw [ha] at he
    cases hi with
    | nil =>
      obtain ⟨rfl, rfl⟩ := List.cons.inj he
      exact hu
    | cons y hi =>
      obtain ⟨rfl, -⟩ := List.cons.inj he
      exact absurd (hhi e List.mem_cons_self) hlt.not_ge

/-- One dependency, put in any number of times. -/
theorem merge_single (hd : ¬ d.Empty) : ∀ {l : List Dependency}, (∀ x ∈ l, x.Empty ∨ x = d) →
    ((zero.update d).1.merge l).1 = (zero.update d).1
      ∧ (d ∈ l → (zero.merge l).1 = (zero.update d).1)
  | [], _ => ⟨rfl, fun h => absurd h List.not_mem_nil⟩
  | x :: l, h => by
    rw [List.forall_mem_cons] at h
    obtain ⟨hagain, hfirst⟩ := merge_single hd h.2
    rcases h.1 with hx | rfl
    · refine ⟨?_, fun hm => ?_⟩
      · rw [merge, update_empty _ hx]
        exact hagain
      · rw [merge, update_empty _ hx]
        refine hfirst ((List.mem_cons.1 hm).resolve_left ?_)
        rintro rfl
        exact hd hx
    · have hone : (zero.update x).1.entries = [x] :=
        entries_merge_sorted (l := [x]) ⟨by simpa using hd, by simp, by simp⟩ (by simp [maxDeps])
      have hsame : ((zero.update x).1.update x).1 = (zero.update x).1 := by
        refine ext_entries ?_
        have := @merge_within [x] (zero.update x).1 [] [x] hone
          ⟨by simpa using hd, by simp, by simp⟩ (by simp [maxDeps])
          ⟨fun y hy => ⟨y, hy, rfl, le_rfl⟩, fun _ _ => List.prefix_rfl⟩
        exact this.trans hone.symm
      refine ⟨?_, fun _ => hagain⟩
      rw [merge, hsame]
      exact hagain

end Deps

section Orders

variable {S : List Dependency}

/-- The dependencies to put in, newest first. -/
theorem exists_newest_first (hn : ((occupied S).map Dependency.id).Nodup) :
    ∃ T, (∀ d, d ∈ T ↔ d ∈ occupied S) ∧ Entries T ∧ T.length = (occupied S).length := by
  let le : Dependency → Dependency → Bool := fun a b => b.id.instanceId ≤ a.id.instanceId
  have hperm := List.mergeSort_perm (occupied S) le
  refine ⟨(occupied S).mergeSort le, fun d => hperm.mem_iff, ⟨fun d hd => ?_, ?_, ?_⟩,
    hperm.length_eq⟩
  · simpa using (List.mem_filter.1 (hperm.mem_iff.1 hd)).2
  · refine (List.pairwise_mergeSort ?_ ?_ (occupied S)).imp fun h => of_decide_eq_true h
    · intro a b c hab hbc
      exact decide_eq_true ((of_decide_eq_true hbc).trans (of_decide_eq_true hab))
    · intro a b
      simp only [Bool.or_eq_true, decide_eq_true_eq]
      exact le_total _ _
  · exact (hperm.map _).nodup_iff.2 hn

/-- Of two dependencies or more, two orders leave arrays that differ. -/
theorem orders_differ (hn : ((occupied S).map Dependency.id).Nodup)
    (hlen : (occupied S).length ≤ maxDeps) (htwo : 1 < (occupied S).length) : ¬ OrdersAgree S := by
  intro h
  obtain ⟨_ | ⟨a, _ | ⟨b, rest⟩⟩, hT, hent, hl⟩ := exists_newest_first hn
  · rw [List.length_nil] at hl
    omega
  · rw [List.length_singleton] at hl
    omega
  · have hel : ∀ {l : List Dependency}, (∀ d, d ∈ l ↔ d ∈ a :: b :: rest) →
        ∀ d, d ∈ l ++ S.filter (fun d => d.Empty) ↔ d ∈ S := by
      intro l hl d
      rw [List.mem_append, hl, hT, occupied, List.mem_filter, List.mem_filter]
      by_cases hd : d.Empty <;> simp [hd]
    have hempty : ∀ d ∈ S.filter (fun d => d.Empty), d.Empty := fun d hd => by
      simpa using (List.mem_filter.1 hd).2
    have hswap : ∀ d, d ∈ b :: a :: rest ↔ d ∈ a :: b :: rest := fun d =>
      (List.Perm.swap a b rest).mem_iff
    have heq := h.agree _ _ (hel fun _ => Iff.rfl) (hel hswap)
    rw [Deps.equalDeps_iff, Deps.merge_append, Deps.merge_append, Deps.merge_empties _ hempty,
      Deps.merge_empties _ hempty] at heq
    have hle : (a :: b :: rest).length ≤ maxDeps := hl.trans_le hlen
    have h₁ := Deps.entries_merge_sorted hent hle
    rw [show (Deps.zero.merge (a :: b :: rest)).1 = _ from heq] at h₁
    obtain ⟨ha, hrest⟩ := List.pairwise_cons.1 hent.sorted
    obtain ⟨hb, hrest⟩ := List.pairwise_cons.1 hrest
    have hne : a ≠ b := by
      rintro rfl
      exact (List.nodup_cons.1 hent.nodup).1 List.mem_cons_self
    rcases (ha b List.mem_cons_self).lt_or_eq with hlt | htie
    · -- the larger second one takes the first one's place
      have hba : (Deps.zero.merge [b, a]).1.entries = [a] := by
        have hone : (Deps.zero.update b).1.entries = [b] :=
          Deps.entries_merge_sorted (l := [b])
            (hent.sublist (by simp)) (by simp [maxDeps])
        exact Deps.entries_update_larger hone hlt
      have h₂ := @Deps.merge_within rest _ [a] [] hba
        (hent.sublist (by simp)) (by simp only [List.length_cons] at hle ⊢; simp; omega)
        ⟨fun _ h => absurd h List.not_mem_nil, fun _ h => absurd h List.not_mem_nil⟩
      have hcat := Deps.merge_append Deps.zero [b, a] rest
      have h₃ : (Deps.zero.merge (b :: a :: rest)).1.entries = [a] ++ rest :=
        (congrArg (fun p : Deps × ℕ => p.1.entries) hcat).trans h₂
      have hlen := congrArg List.length (h₁.symm.trans h₃)
      simp at hlen
    · -- of two with one instance id the first stays in front
      have hent' : Entries (b :: a :: rest) := by
        refine ⟨fun d hd => hent.full d ((hswap d).1 hd), ?_,
          ((List.Perm.swap a b rest).map _).nodup_iff.2 hent.nodup⟩
        refine List.pairwise_cons.2 ⟨List.forall_mem_cons.2 ⟨htie.ge, hb⟩,
          List.pairwise_cons.2 ⟨fun d hd => ha d (List.mem_cons_of_mem _ hd), hrest⟩⟩
      have h₂ := Deps.entries_merge_sorted hent' hle
      exact hne (List.cons.inj (h₁.symm.trans h₂)).1

/-- At most `maxDeps` dependencies leave equal arrays, in whatever two orders they are put in, just
when there is no more than one of them. -/
theorem orders_agree_iff (hn : ((occupied S).map Dependency.id).Nodup)
    (hlen : (occupied S).length ≤ maxDeps) : OrdersAgree S ↔ (occupied S).length ≤ 1 := by
  refine ⟨fun h => not_lt.1 fun htwo => orders_differ hn hlen htwo h, fun hone => ⟨?_, ?_⟩⟩
  · intro l₁ l₂ h₁ h₂
    rw [Deps.equalDeps_iff]
    rcases hS : occupied S with _ | ⟨s, _ | ⟨t, rest⟩⟩
    · have hempty : ∀ {l : List Dependency}, (∀ d, d ∈ l ↔ d ∈ S) → ∀ d ∈ l, d.Empty := by
        intro l hl d hd
        have := List.filter_eq_nil_iff.1 hS d ((hl d).1 hd)
        simpa using this
      rw [Deps.merge_empties _ (hempty h₁), Deps.merge_empties _ (hempty h₂)]
    · have hs : s ∈ occupied S := hS ▸ List.mem_cons_self
      have hfull : ¬ s.Empty := by simpa using (List.mem_filter.1 hs).2
      have hall : ∀ {l : List Dependency}, (∀ d, d ∈ l ↔ d ∈ S) →
          (∀ d ∈ l, d.Empty ∨ d = s) ∧ s ∈ l := by
        refine fun hl => ⟨fun d hd => or_iff_not_imp_left.2 fun hne => ?_,
          (hl s).2 (List.mem_filter.1 hs).1⟩
        have : d ∈ occupied S := List.mem_filter.2 ⟨(hl d).1 hd, by simpa⟩
        exact List.mem_singleton.1 (hS ▸ this)
      exact ((Deps.merge_single hfull (hall h₁).1).2 (hall h₁).2).trans
        ((Deps.merge_single hfull (hall h₂).1).2 (hall h₂).2).symm
    · rw [hS] at hone
      simp at hone
  · intro a b h d
    rw [Deps.equalDeps_iff.1 h]

/-- One dependency, once or twice. -/
theorem orders_agree_single : OrdersAgree [⟨⟨0, 1⟩, 0⟩] :=
  (orders_agree_iff (by decide) (by decide)).2 (by decide)

/-- Of 0.1 and 1.1 the first put in is in front, and 1.2 put in after 0.1 takes its place. -/
theorem orders_disagree : ¬ OrdersAgree [⟨⟨0, 1⟩, 0⟩, ⟨⟨1, 1⟩, 0⟩]
    ∧ ¬ OrdersAgree [⟨⟨0, 1⟩, 0⟩, ⟨⟨1, 2⟩, 0⟩] := by
  constructor
  · intro h
    exact absurd (h.agree [⟨⟨0, 1⟩, 0⟩, ⟨⟨1, 1⟩, 0⟩] [⟨⟨1, 1⟩, 0⟩, ⟨⟨0, 1⟩, 0⟩] (fun _ => Iff.rfl)
      fun _ => (List.Perm.swap _ _ _).mem_iff) (by decide)
  · intro h
    exact absurd (h.agree [⟨⟨0, 1⟩, 0⟩, ⟨⟨1, 2⟩, 0⟩] [⟨⟨1, 2⟩, 0⟩, ⟨⟨0, 1⟩, 0⟩] (fun _ => Iff.rfl)
      fun _ => (List.Perm.swap _ _ _).mem_iff) (by decide)

end Orders

end Epx
