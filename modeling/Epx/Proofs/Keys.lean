import Epx.Command

/-!
# The order of keys

`strcmp` compares keys as the lists of their bytes. A span is the interval from its start key to its
end key, both included.
-/

namespace Epx

/-- The bytes of a key, in whose order it stands. -/
def Key.rank (k : Key) : List ℕ := k.map UInt8.toNat

theorem rank_injective : Function.Injective Key.rank :=
  List.map_injective_iff.2 fun _ _ h => UInt8.toNat_inj.1 h

theorem rank_cons (x : UInt8) (xs : Key) : Key.rank (x :: xs) = x.toNat :: xs.rank := rfl

theorem strcmp_lt_iff : ∀ {a b : Key}, strcmp a b = .lt ↔ a.rank < b.rank
  | [], [] => by simp [strcmp, Key.rank]
  | [], _ :: _ => iff_of_true rfl (List.nil_lt_cons _ _)
  | _ :: _, [] => by simp [strcmp, Key.rank]
  | a :: as, b :: bs => by
    have ih := strcmp_lt_iff (a := as) (b := bs)
    rw [strcmp, rank_cons, rank_cons, List.cons_lt_cons_iff, ← ih]
    split_ifs with h₁ h₂ <;> rw [UInt8.lt_iff_toNat_lt] at *
    · exact iff_of_true rfl (.inl h₁)
    · refine iff_of_false (by rintro ⟨⟩) ?_
      rintro (h | ⟨h, -⟩) <;> omega
    · exact ⟨fun h => .inr ⟨by omega, h⟩, fun h => h.elim (fun h => absurd h h₁) And.right⟩

theorem strcmp_gt_iff {a b : Key} : strcmp a b = .gt ↔ b.rank < a.rank := by
  rw [← strcmp_lt_iff, ← strcmp_swap a b]
  cases strcmp a b <;> decide

theorem strcmp_ne_gt_iff {a b : Key} : strcmp a b ≠ .gt ↔ a.rank ≤ b.rank := by
  rw [ne_eq, strcmp_gt_iff, not_lt]

theorem strcmp_ne_lt_iff {a b : Key} : strcmp a b ≠ .lt ↔ b.rank ≤ a.rank := by
  rw [ne_eq, strcmp_lt_iff, not_lt]

theorem overlaps_iff {s t : Span} :
    overlaps s t = true ↔ s.startKey.rank ≤ t.endKey.rank ∧ t.startKey.rank ≤ s.endKey.rank := by
  simp only [overlaps, Bool.and_eq_true, bne_iff_ne, strcmp_ne_gt_iff, strcmp_ne_lt_iff]

theorem encloses_iff {s t : Span} :
    encloses s t = true ↔ s.startKey.rank ≤ t.startKey.rank ∧ t.endKey.rank ≤ s.endKey.rank := by
  simp only [encloses, Bool.and_eq_true, bne_iff_ne, strcmp_ne_gt_iff, strcmp_ne_lt_iff]

/-- The span is not inverted. -/
def Span.Valid (s : Span) : Prop := strcmp s.startKey s.endKey ≠ .gt

instance (s : Span) : Decidable s.Valid := inferInstanceAs (Decidable (_ ≠ _))

theorem Span.valid_iff {s : Span} : s.Valid ↔ s.startKey.rank ≤ s.endKey.rank := strcmp_ne_gt_iff

theorem encloses_refl (s : Span) : encloses s s = true := encloses_iff.2 ⟨le_rfl, le_rfl⟩

theorem Span.Valid.overlaps_self {s : Span} (h : s.Valid) : overlaps s s = true :=
  overlaps_iff.2 ⟨valid_iff.1 h, valid_iff.1 h⟩

/-- A span meets what encloses it. -/
theorem Span.Valid.overlaps_of_encloses {s t : Span} (h : s.Valid) (he : encloses t s = true) :
    overlaps s t = true :=
  overlaps_iff.2 ⟨(valid_iff.1 h).trans (encloses_iff.1 he).2,
    (encloses_iff.1 he).1.trans (valid_iff.1 h)⟩

end Epx
