import Mathlib

/-!
# Queues in rings

A queue in a ring of slots whose counters run on, and how many of the threads at work on it are at a
stage: a thread that goes from one stage to another changes what is counted by no more than that.
-/

namespace Queues

section Ring

variable {α : Type*} {cap : ℕ} [NeZero cap] {slots : Fin cap → α} {first : ℕ} {queue : List α}
  {a : α}

/-- The slots from `first` on hold the queue. -/
def InSlots (slots : Fin cap → α) (first : ℕ) (queue : List α) : Prop :=
  ∀ (i : ℕ) (hi : i < queue.length), slots (Fin.ofNat cap (first + i)) = queue[i]

/-- Counters less than a round apart are at different slots. -/
theorem ofNat_ne {i j : ℕ} (hij : i < j) (hj : j < i + cap) :
    Fin.ofNat cap i ≠ Fin.ofNat cap j := by
  intro he
  have hmod : i % cap = j % cap := congrArg Fin.val he
  have hdvd : cap ∣ j - i := (Nat.modEq_iff_dvd' hij.le).1 hmod
  have := Nat.le_of_dvd (by omega) hdvd
  omega

/-- In a queue with room the next entry overwrites none. -/
theorem InSlots.push (h : InSlots slots first queue) (hl : queue.length < cap) :
    InSlots (Function.update slots (Fin.ofNat cap (first + queue.length)) a) first
      (queue ++ [a]) := by
  intro i hi
  rw [List.length_append, List.length_singleton] at hi
  rcases Nat.lt_succ_iff_lt_or_eq.1 hi with hlt | rfl
  · rw [Function.update_of_ne (ofNat_ne (by omega) (by omega)), List.getElem_append_left hlt]
    exact h i hlt
  · rw [Function.update_self, List.getElem_concat_length rfl]

/-- The slot at `first` has the first entry, and the others stay where they are. -/
theorem InSlots.pop (h : InSlots slots first (a :: queue)) :
    slots (Fin.ofNat cap first) = a ∧ InSlots slots (first + 1) queue := by
  refine ⟨h 0 (Nat.succ_pos _), fun i hi => ?_⟩
  rw [show first + 1 + i = first + (i + 1) by omega]
  exact h (i + 1) (Nat.succ_lt_succ hi)

end Ring

section Threads

variable {θ σ : Type*} [Fintype θ] {w : σ → ℕ} {p : σ → Bool} {stage : θ → σ} {t : θ}

/-- What the stages of the threads weigh. -/
def total (w : σ → ℕ) (stage : θ → σ) : ℕ := ∑ t, w (stage t)

/-- How many of the threads are at one of the stages. -/
def numAt (p : σ → Bool) (stage : θ → σ) : ℕ := total (fun a => (p a).toNat) stage

/-- A thread goes from its stage to `b`. -/
theorem total_update [DecidableEq θ] (w : σ → ℕ) (stage : θ → σ) (t : θ) (b : σ) :
    total w (Function.update stage t b) + w (stage t) = total w stage + w b := by
  have hsum (g : θ → σ) : total w g = w (g t) + ∑ u ∈ Finset.univ.erase t, w (g u) :=
    (Finset.add_sum_erase _ _ (Finset.mem_univ t)).symm
  have hrest : ∑ u ∈ Finset.univ.erase t, w (Function.update stage t b u)
      = ∑ u ∈ Finset.univ.erase t, w (stage u) :=
    Finset.sum_congr rfl fun u hu => by rw [Function.update_of_ne (Finset.ne_of_mem_erase hu)]
  rw [hsum, hsum stage, hrest, Function.update_self]
  omega

theorem numAt_update [DecidableEq θ] (p : σ → Bool) (stage : θ → σ) (t : θ) (b : σ) :
    numAt p (Function.update stage t b) + (p (stage t)).toNat = numAt p stage + (p b).toNat :=
  total_update _ stage t b

theorem numAt_eq_zero (h : ∀ t, p (stage t) = false) : numAt p stage = 0 :=
  Finset.sum_eq_zero fun t _ => congrArg Bool.toNat (h t)

theorem numAt_pos (h : p (stage t) = true) : 0 < numAt p stage := by
  calc 0 < (p (stage t)).toNat := by rw [h]; exact Nat.one_pos
    _ ≤ numAt p stage := Finset.single_le_sum (f := fun u => (p (stage u)).toNat)
      (fun u _ => Nat.zero_le _) (Finset.mem_univ t)

end Threads

end Queues
