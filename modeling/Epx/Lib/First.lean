import Mathlib

/-!
# The first that stands out

`FirstAt P xs t` says that `t` is the first element of `xs` to be in the relation `P` to those ahead
of it. A walk that ends at such an element finds it one element at a time, the relation taking in
what has been passed.
-/

namespace First

variable {α : Type*} {P : List α → α → Prop} {x t u : α} {xs : List α}

/-- `t` is the first to be in the relation to those ahead of it. -/
def FirstAt (P : List α → α → Prop) (xs : List α) (t : α) : Prop :=
  ∃ ahead behind, xs = ahead ++ t :: behind ∧ P ahead t
    ∧ ∀ pre e post, ahead = pre ++ e :: post → ¬ P pre e

theorem firstAt_nil : ¬ FirstAt P [] t := by
  rintro ⟨ahead, behind, h, -⟩
  exact List.append_ne_nil_of_right_ne_nil ahead (List.cons_ne_nil t behind) h.symm

theorem FirstAt.mem (h : FirstAt P xs t) : t ∈ xs := by
  obtain ⟨ahead, behind, rfl, -⟩ := h
  exact List.mem_append_right _ List.mem_cons_self

/-- The first of a list is its head, or the first of the rest with the head passed. -/
theorem firstAt_cons : FirstAt P (x :: xs) t ↔
    P [] x ∧ t = x ∨ ¬ P [] x ∧ FirstAt (fun ahead => P (x :: ahead)) xs t := by
  constructor
  · rintro ⟨_ | ⟨y, ahead⟩, behind, h, hp, hn⟩
    · obtain ⟨rfl, -⟩ := List.cons.inj h
      exact .inl ⟨hp, rfl⟩
    · obtain ⟨rfl, rfl⟩ := List.cons.inj h
      refine .inr ⟨hn [] x ahead rfl, ahead, behind, rfl, hp, ?_⟩
      rintro pre e post rfl
      exact hn (x :: pre) e post rfl
  · rintro (⟨hp, rfl⟩ | ⟨hx, ahead, behind, rfl, hp, hn⟩)
    · refine ⟨[], xs, rfl, hp, fun pre e post h => ?_⟩
      exact absurd h.symm (List.append_ne_nil_of_right_ne_nil pre (List.cons_ne_nil e post))
    · refine ⟨x :: ahead, behind, rfl, hp, ?_⟩
      rintro (_ | ⟨y, pre⟩) e post h
      · obtain ⟨rfl, -⟩ := List.cons.inj h
        exact hx
      · obtain ⟨rfl, ha⟩ := List.cons.inj h
        exact hn pre e post ha

theorem FirstAt.unique (h : FirstAt P xs t) (hu : FirstAt P xs u) : t = u := by
  induction xs generalizing P with
  | nil => exact absurd h firstAt_nil
  | cons x xs ih =>
    rcases firstAt_cons.1 h with ⟨hp, rfl⟩ | ⟨hp, h⟩ <;>
      rcases firstAt_cons.1 hu with ⟨hp', rfl⟩ | ⟨hp', hu⟩
    · rfl
    · exact absurd hp hp'
    · exact absurd hp' hp
    · exact ih h hu

/-- Where an element is in the relation to those ahead of it, some element is the first. -/
theorem exists_firstAt {ahead : List α} (h : P ahead t) (behind : List α) :
    ∃ u, FirstAt P (ahead ++ t :: behind) u := by
  induction ahead generalizing P with
  | nil => exact ⟨t, firstAt_cons.2 (.inl ⟨h, rfl⟩)⟩
  | cons x ahead ih =>
    by_cases hx : P [] x
    · exact ⟨x, firstAt_cons.2 (.inl ⟨hx, rfl⟩)⟩
    · obtain ⟨u, hu⟩ := @ih (fun ahead => P (x :: ahead)) h
      exact ⟨u, firstAt_cons.2 (.inr ⟨hx, hu⟩)⟩

/-- The first has a property exactly where each element in the relation to those ahead of it has it,
or comes behind one that has both. -/
theorem forall_firstAt {R : α → Prop} : (∀ t, FirstAt P xs t → R t) ↔
    ∀ ahead t behind, xs = ahead ++ t :: behind → P ahead t →
      R t ∨ ∃ pre e post, ahead = pre ++ e :: post ∧ P pre e ∧ R e := by
  constructor
  · intro h ahead t behind hxs hp
    obtain ⟨u, hu⟩ := exists_firstAt hp behind
    have hr : R u := h u (hxs ▸ hu)
    obtain ⟨pre, post, heq, hpu, hfirst⟩ := hu
    rcases List.append_eq_append_iff.1 heq with ⟨mid, hpre, hmid⟩ | ⟨mid, hahead, hmid⟩
    · cases mid with
      | nil =>
        cases hmid
        exact .inl hr
      | cons x mid =>
        cases hmid
        exact absurd hp (hfirst ahead t mid hpre)
    · cases mid with
      | nil =>
        cases hmid
        exact .inl hr
      | cons x mid =>
        cases hmid
        exact .inr ⟨pre, u, mid, hahead, hpu, hr⟩
  · rintro h t ⟨ahead, behind, hxs, hp, hfirst⟩
    rcases h ahead t behind hxs hp with hr | ⟨pre, e, post, hahead, hpe, -⟩
    · exact hr
    · exact absurd hpe (hfirst pre e post hahead)

end First
