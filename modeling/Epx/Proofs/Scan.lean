import Epx.Proofs.Deps
import Epx.Replica

/-!
# What a scan does to its probe

A scan touches its probe through `Probe.add` only, so the dependencies are as they were unless
`updated` has grown.
-/

namespace Epx

variable {T : RangeTree}

namespace Deps

theorem update_eq_zero {deps : Deps} {d : Dependency} (h : (deps.update d).2 = 0) :
    (deps.update d).1 = deps := by
  by_cases hd : d.Empty
  · rw [deps.update_empty hd]
  rcases deps.update_cases hd with ⟨hi, x, lo, he, hid, hu, hc⟩ | ⟨-, hu⟩
  · refine ext_entries ?_
    rw [hc] at h
    split_ifs at h with hlt
    rw [hu, he, max_eq_left (not_lt.1 hlt)]
  · rcases hu with ⟨-, -, hu⟩ | ⟨-, -, -, hu⟩ | ⟨_, _, _, -, -, -, -, hu⟩
    · rw [hu]
    · omega
    · omega

theorem update_le_one (deps : Deps) (d : Dependency) : (deps.update d).2 ≤ 1 := by
  by_cases hd : d.Empty
  · rw [deps.update_empty hd]
    exact Nat.zero_le 1
  rcases deps.update_cases hd with ⟨hi, x, lo, he, hid, hu, hc⟩ | ⟨-, hu⟩
  · rw [hc]
    split_ifs <;> omega
  · rcases hu with ⟨-, -, hu⟩ | ⟨-, -, -, hu⟩ | ⟨_, _, _, -, -, -, -, hu⟩
    · rw [hu]
      exact Nat.zero_le 1
    · omega
    · omega

theorem merge_le_length : ∀ (ds : List Dependency) (deps : Deps), (deps.merge ds).2 ≤ ds.length
  | [], _ => le_rfl
  | d :: ds, deps => by
    have h₁ := deps.update_le_one d
    have h₂ := merge_le_length ds (deps.update d).1
    simp only [merge, List.length_cons]
    omega

/-- A merge that changes nothing leaves the array, and no entry merged would have changed it. -/
theorem merge_eq_zero : ∀ (ds : List Dependency) {deps : Deps}, (deps.merge ds).2 = 0 →
    (deps.merge ds).1 = deps ∧ ∀ d ∈ ds, (deps.update d).2 = 0
  | [], deps, _ => ⟨rfl, by simp⟩
  | d :: ds, deps, h => by
    simp only [merge] at h ⊢
    have hd : (deps.update d).2 = 0 := by omega
    rw [update_eq_zero hd] at h ⊢
    obtain ⟨h₁, h₂⟩ := @merge_eq_zero ds deps (by omega)
    exact ⟨h₁, by simpa using ⟨hd, h₂⟩⟩

/-- An entry of the array `update_deps` leaves was there under its id, or is the one put in. -/
theorem has_update {deps : Deps} {d : Dependency} {id : InstanceId}
    (h : (deps.update d).1.Has id) : deps.Has id ∨ (¬ d.Empty ∧ id = d.id) := by
  by_cases hd : d.Empty
  · rw [deps.update_empty hd] at h
    exact .inl h
  rw [has_iff] at h ⊢
  rcases deps.update_cases hd with
    ⟨hi, y, lo, he, -, hu, -⟩ | ⟨-, ⟨-, -, hu⟩ | ⟨-, -, hu, -⟩ | ⟨hi, y, lo, he, -, -, hu, -⟩⟩
  · rw [hu] at h
    rw [he]
    exact .inl (by simpa using h)
  · rw [hu] at h
    exact .inl h
  · rw [hu, List.map_append, List.mem_append, List.map_singleton, List.mem_singleton] at h
    exact h.imp_right fun h => ⟨hd, h⟩
  · rw [hu, List.map_append, List.map_cons, List.mem_append, List.mem_cons] at h
    rw [he, List.map_append, List.mem_append]
    rcases h with h | rfl | h
    · exact .inl (.inl h)
    · exact .inr ⟨hd, rfl⟩
    · exact .inl (.inr (((List.dropLast_sublist _).map _).subset h))

/-- Anything changes an empty array. -/
theorem update_zero {d : Dependency} (hd : ¬ d.Empty) : (zero.update d).2 = 1 := by
  rcases zero.update_cases hd with
    ⟨hi, x, lo, he, -⟩ | ⟨-, ⟨hl, -⟩ | ⟨-, -, -, hu⟩ | ⟨_, _, _, -, -, -, -, hu⟩⟩
  · simp at he
  · simp [maxDeps] at hl
  · exact hu
  · exact hu

/-- A change leaves an entry. -/
theorem update_ne_zero {deps : Deps} {d : Dependency} (h : (deps.update d).2 ≠ 0) :
    (deps.update d).1 ≠ zero := by
  have hd : ¬ d.Empty := fun he => h (by rw [deps.update_empty he])
  intro hz
  rcases deps.update_cases hd with
    ⟨hi, y, lo, -, -, hu, -⟩ | ⟨-, ⟨-, -, hu⟩ | ⟨-, -, hu, -⟩ | ⟨hi, y, lo, -, -, -, hu, -⟩⟩
  · rw [hz, entries_zero] at hu
    simp at hu
  · rw [hu] at h
    exact h rfl
  · rw [hz, entries_zero] at hu
    simp at hu
  · rw [hz, entries_zero] at hu
    simp at hu

end Deps

/-- What a scan may do to a probe. -/
def Probe.Grows (p q : Probe) : Prop :=
  p.updated ≤ q.updated ∧ (q.updated = p.updated → q.deps = p.deps)

theorem Probe.Grows.refl (p : Probe) : p.Grows p := ⟨le_rfl, fun _ => rfl⟩

theorem Probe.Grows.trans {p q s : Probe} (h₁ : p.Grows q) (h₂ : q.Grows s) : p.Grows s := by
  refine ⟨h₁.1.trans h₂.1, fun h => ?_⟩
  have h₃ := h₁.1
  have h₄ := h₂.1
  rw [h₂.2 (by omega), h₁.2 (by omega)]

theorem Probe.grows_add (p : Probe) (ti : Instance) : p.Grows (p.add ti) :=
  ⟨Nat.le_add_right _ _, fun h => Deps.update_eq_zero (by simp only [add, addDep] at h ⊢; omega)⟩

/-- What holds of the seq and the probe of a scan: what an entry that the scan may meet keeps, added
or not, the scan keeps. -/
theorem seqDepsLoop_bound {P : ℕ → Probe → Prop} {ignore : Option InstanceId} :
    ∀ {xs : List Instance}, (∀ ti ∈ xs, ignore ≠ some ti.key → ti.status ≠ .executed →
        ∀ n p, P n p → P (max n ti.seq) p ∧ P (max n ti.seq) (p.add ti)) →
      ∀ {rt : T.Tree} {mseq : ℕ} {cmd : Option Command} {p : Probe}
        {s : ℕ × Option Command × Probe},
        seqDepsLoop T ignore xs rt mseq cmd p = some s → P mseq p → P s.1 s.2.2
  | [], _, rt, mseq, cmd, p, s, h, hp => by
    cases h
    exact hp
  | ti :: rest, hadd, rt, mseq, cmd, p, s, h, hp => by
    simp only [List.forall_mem_cons] at hadd
    obtain ⟨hti, hrest⟩ := hadd
    simp only [seqDepsLoop] at h
    split_ifs at h with h₁ h₂
    · exact seqDepsLoop_bound hrest h hp
    · cases h
      exact hp
    obtain ⟨hkeep, hput⟩ := hti h₁ (fun he => h₂ (by simp [isState, he])) mseq p hp
    split at h
    · cases h
    · exact seqDepsLoop_bound hrest h hp
    split at h
    · split_ifs at h
      · cases h
        exact hput
      · cases h
        exact hkeep
      · exact seqDepsLoop_bound hrest h hput
      · exact seqDepsLoop_bound hrest h hkeep
      · exact seqDepsLoop_bound hrest h hput
      · exact seqDepsLoop_bound hrest h hkeep
    · cases h

/-- `seqDepsLoop_bound` over the first `n` indexes. -/
theorem sdLoop_bound {P : ℕ → Probe → Prop} {r : Replica} {ignore : Option InstanceId} :
    ∀ {n : ℕ}, (∀ k < n, ∀ ti ∈ (r.index k).entries, ignore ≠ some ti.key →
        ti.status ≠ .executed → ∀ n p, P n p → P (max n ti.seq) p ∧ P (max n ti.seq) (p.add ti)) →
      ∀ {cmd : Option Command} {p : Probe} {s : ℕ × Option Command × Probe},
        sdLoop T r ignore n cmd p = some s → P 0 p → P s.1 s.2.2
  | 0, _, cmd, p, s, h, hp => by
    cases h
    exact hp
  | n + 1, hadd, cmd, p, s, h, hp => by
    simp only [sdLoop] at h
    split at h
    · cases h
    · rename_i mseq cmd' q hq
      obtain ⟨q', hq', rfl⟩ := Option.map_eq_some_iff.1 h
      have hp' : P mseq q := sdLoop_bound (fun k hk => hadd k (by omega)) hq hp
      refine seqDepsLoop_bound (P := fun n p => P (max mseq n) p) (fun ti hti hi he m p hp => ?_)
        hq' (by rwa [Nat.max_zero])
      rw [← max_assoc]
      exact hadd n (by omega) ti hti hi he _ p hp

/-- What `Probe.add` keeps, for every entry the scan does not ignore, the scan keeps. -/
theorem sdForCommand_rule {P : Probe → Prop} {r : Replica} {ignore : Option InstanceId}
    {cmd : Option Command} {p : Probe} {s : ℕ × Option Command × Probe}
    (hadd : ∀ k < N, ∀ ti ∈ (r.index k).entries, ignore ≠ some ti.key → ∀ p, P p → P (p.add ti))
    (h : sdForCommand T r cmd ignore p = some s) (hp : P p) : P s.2.2 :=
  sdLoop_bound (P := fun _ p => P p)
    (fun k hk ti hti hi _ _ p hp => ⟨hp, hadd k hk ti hti hi p hp⟩) h hp

/-- A scan that counts no change leaves the dependencies as they were. -/
theorem sdForCommand_deps {r : Replica} {ignore : Option InstanceId} {cmd : Option Command}
    {deps : Deps} {s : ℕ × Option Command × Probe}
    (h : sdForCommand T r cmd ignore ⟨0, deps⟩ = some s) (hu : s.2.2.updated = 0) :
    s.2.2.deps = deps := by
  have hg : Probe.Grows ⟨0, deps⟩ s.2.2 :=
    sdForCommand_rule (fun _ _ ti _ _ p hp => hp.trans (p.grows_add ti)) h (.refl _)
  exact hg.2 hu

end Epx
