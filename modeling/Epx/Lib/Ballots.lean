import Mathlib

/-!
# Values by ballot

Values are offered at ballots. Where whoever offers one above some ballot repeats one that was
offered from that ballot on, the value offered there is the only one from there on.
-/

namespace Ballots

variable {V : Type*} {offered : ℕ → V → Prop} {b b' : ℕ} {v v' : V}

/-- Above the ballot only what was offered from it on is offered. -/
def Repeats (offered : ℕ → V → Prop) (b : ℕ) : Prop :=
  ∀ b' v', b < b' → offered b' v' → ∃ c, b ≤ c ∧ c < b' ∧ offered c v'

/-- No two values are offered at one ballot. -/
def Unique (offered : ℕ → V → Prop) : Prop := ∀ b v v', offered b v → offered b v' → v = v'

theorem Repeats.first (h : Repeats offered b) (hb : b ≤ b') (hv : offered b' v) :
    offered b v := by
  induction b' using Nat.strongRecOn with
  | ind b' ih =>
    rcases hb.eq_or_lt with rfl | hlt
    · exact hv
    · obtain ⟨c, hbc, hcb, hc⟩ := h b' v hlt hv
      exact ih c hcb hbc hc

/-- What is offered at two such ballots is the same. -/
theorem Unique.agree (hu : Unique offered) (h : Repeats offered b) (h' : Repeats offered b')
    (hv : offered b v) (hv' : offered b' v') : v = v' := by
  rcases le_total b b' with hb | hb
  · exact hu b v v' hv (h.first hb hv')
  · exact hu b' v v' (h'.first hb hv) hv'

end Ballots
