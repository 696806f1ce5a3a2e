import Mathlib

/-!
# Logs

A log is a list of entries, the last one first. `Grown S` holds of the logs whose entries each stood
in the relation `S` to the entries before it. What is known of every entry when it is added is known
of it afterwards, in any log that extends its own.
-/

namespace Log

inductive Grown {α : Type*} (S : List α → α → Prop) : List α → Prop
  | nil : Grown S []
  | cons {t log} (h : Grown S log) (ht : S log t) : Grown S (t :: log)

variable {α : Type*} {S S' : List α → α → Prop} {t : α} {xs ys log : List α}

theorem Grown.of_append (h : Grown S (xs ++ ys)) : Grown S ys := by
  induction xs with
  | nil => exact h
  | cons x xs ih =>
    cases h with
    | cons h _ => exact ih h

theorem Grown.head (h : Grown S (t :: ys)) : S ys t := by
  cases h
  assumption

theorem Grown.tail (h : Grown S (t :: ys)) : Grown S ys := by
  cases h
  assumption

theorem Grown.entry (h : Grown S (xs ++ t :: ys)) : S ys t := h.of_append.head

/-- The end of a log. -/
theorem Grown.upto (h : Grown S log) (hl : log = xs ++ ys) : Grown S ys := (hl ▸ h).of_append

theorem Grown.cut (h : Grown S log) (hl : log = xs ++ t :: ys) : Grown S ys ∧ S ys t :=
  ⟨(h.upto hl).tail, (h.upto hl).head⟩

/-- An entry of the log, and the log it was added to. -/
theorem Grown.of_mem (h : Grown S log) (ht : t ∈ log) :
    ∃ xs ys, log = xs ++ t :: ys ∧ Grown S ys ∧ S ys t := by
  obtain ⟨xs, ys, rfl⟩ := List.append_of_mem ht
  exact ⟨xs, ys, rfl, h.of_append.tail, h.entry⟩

/-- Each entry's relation to the log before it may be strengthened by what is known of that log. -/
theorem Grown.imp (h : Grown S log)
    (hi : ∀ {t log}, Grown S log → Grown S' log → S log t → S' log t) : Grown S' log := by
  induction h with
  | nil => exact .nil
  | cons h ht ih => exact .cons ih (hi h ih ht)

/-- What holds of every entry may be added to the relation. -/
theorem Grown.and {C : α → Prop} (h : Grown S log) (hc : ∀ t ∈ log, C t) :
    Grown (fun log t => S log t ∧ C t) log := by
  induction h with
  | nil => exact .nil
  | cons h ht ih =>
    simp only [List.forall_mem_cons] at hc
    exact .cons (ih hc.2) ⟨ht, hc.1⟩

theorem Grown.both (h : Grown S log) (h' : Grown S' log) :
    Grown (fun log t => S log t ∧ S' log t) log := by
  induction h with
  | nil => exact .nil
  | cons h ht ih => exact .cons (ih h'.tail) ⟨ht, h'.head⟩

/-- Of two entries of a log one is earlier, or they are one. -/
theorem comparable {newer older : List α} {u : α} (h : log = newer ++ t :: older) (hu : u ∈ log) :
    (∃ xs ys, log = xs ++ u :: ys ∧ t ∈ ys) ∨ u = t ∨ u ∈ older := by
  rw [h] at hu ⊢
  rcases List.mem_append.1 hu with hu | hu
  · obtain ⟨xs, ys, rfl⟩ := List.append_of_mem hu
    exact .inl ⟨xs, ys ++ t :: older, by simp, by simp⟩
  · exact .inr (List.mem_cons.1 hu)

/-- Each entry may be related to the log that it ends up in. -/
theorem Grown.split (h : Grown S log) :
    Grown (fun older t => S older t ∧ ∃ newer, log = newer ++ t :: older) log := by
  induction h with
  | nil => exact .nil
  | @cons t log h ht ih =>
    refine .cons (ih.imp fun _ _ hu => ⟨hu.1, ?_⟩) ⟨ht, [], rfl⟩
    obtain ⟨newer, hn⟩ := hu.2
    exact ⟨t :: newer, congrArg (t :: ·) hn⟩

theorem grown_cons : Grown S (t :: log) ↔ Grown S log ∧ S log t :=
  ⟨fun h => ⟨h.tail, h.head⟩, fun h => .cons h.1 h.2⟩

instance Grown.decidable [∀ log t, Decidable (S log t)] : ∀ log : List α, Decidable (Grown S log)
  | [] => isTrue .nil
  | t :: log =>
    have : Decidable (Grown S log) := Grown.decidable log
    decidable_of_iff (Grown S log ∧ S log t) grown_cons.symm

end Log
