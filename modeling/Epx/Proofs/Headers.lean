import Epx.Sock

/-!
# The size comes back

Round `n` of the sender writes byte `n` of the size. Reading the bytes in the opposite order, the
receiver has after `n` rounds what the first `h` bytes make of the size without its last `h - n`.
-/

namespace Epx

section Header

variable {h : ℕ} {bigendian : Bool} {sz : UInt64} {szbuf : Fin h → UInt8}

theorem slotOut_injective : Function.Injective (slotOut bigendian : Fin h → Fin h) := by
  intro i j hij
  unfold slotOut at hij
  cases bigendian with
  | true => exact Fin.rev_injective hij
  | false => exact hij

/-- The receiver reads the bytes in the opposite order. -/
theorem slotIn_eq (i : Fin h) : slotIn bigendian i = slotOut bigendian i.rev := by
  unfold slotIn slotOut
  cases bigendian with
  | true => exact (Fin.rev_rev i).symm
  | false => rfl

/-- Byte `i` of the size. -/
def byteAt (sz : UInt64) (i : ℕ) : ℕ := sz.toNat / 256 ^ i % 256

theorem sendRounds_fst : ∀ {n : ℕ} (hn : n ≤ h),
    (sendRounds bigendian sz szbuf n hn).1.toNat = sz.toNat / 256 ^ n
  | 0, _ => by simp [sendRounds]
  | n + 1, hn => by
    have ih := sendRounds_fst (Nat.le_of_succ_le hn)
    rw [sendRounds, UInt64.toNat_shiftRight, ih, pow_succ, ← Nat.div_div_eq_div_mul,
      Nat.shiftRight_eq_div_pow]
    rfl

theorem toNat_lowByte (x : UInt64) : (x &&& 0xff).toUInt8.toNat = x.toNat % 256 := by
  rw [UInt64.toNat_toUInt8, UInt64.toNat_and]
  have hand : x.toNat &&& 255 = x.toNat % 256 := Nat.and_two_pow_sub_one_eq_mod x.toNat 8
  rw [show (0xff : UInt64).toNat = 255 from rfl, hand]
  exact Nat.mod_mod _ _

/-- The rounds done have written the bytes of the size, the lowest first. -/
theorem sendRounds_snd : ∀ {n : ℕ} (hn : n ≤ h) (i : Fin h), i.val < n →
    ((sendRounds bigendian sz szbuf n hn).2 (slotOut bigendian i)).toNat = byteAt sz i
  | 0, _, i, hi => absurd hi (Nat.not_lt_zero _)
  | n + 1, hn, i, hi => by
    rw [sendRounds]
    by_cases hin : i = ⟨n, hn⟩
    · subst hin
      dsimp only
      rw [Function.update_self, toNat_lowByte, sendRounds_fst]
      rfl
    · have hlt : i.val < n := by
        have : i.val ≠ n := fun hv => hin (Fin.ext hv)
        omega
      dsimp only
      rw [Function.update_of_ne (fun he => hin (slotOut_injective he))]
      exact sendRounds_snd (Nat.le_of_succ_le hn) i hlt

theorem toNat_shiftIn {x : UInt64} (b : UInt8) (hx : x.toNat * 256 + b.toNat < 2 ^ 64) :
    (x <<< 8 ||| b.toUInt64).toNat = x.toNat * 256 + b.toNat := by
  have hb : b.toNat < 2 ^ 8 := b.toNat_lt
  have hlt : x.toNat * 2 ^ 8 < 2 ^ 64 := (Nat.le_add_right _ _).trans_lt hx
  have hs : (x <<< 8).toNat = 2 ^ 8 * x.toNat := by
    rw [UInt64.toNat_shiftLeft, Nat.shiftLeft_eq]
    exact (Nat.mod_eq_of_lt hlt).trans (Nat.mul_comm _ _)
  rw [UInt64.toNat_or, UInt8.toNat_toUInt64, hs, ← Nat.two_pow_add_eq_or_of_lt hb, Nat.mul_comm]

/-- What the bytes from `j` on make of the first `h` bytes of the size, one byte more. -/
theorem div_step (s j : ℕ) (hj : j + 1 ≤ h) :
    s % 256 ^ h / 256 ^ j = s % 256 ^ h / 256 ^ (j + 1) * 256 + s / 256 ^ j % 256 := by
  have hd : s % 256 ^ h / 256 ^ j % 256 = s / 256 ^ j % 256 := by
    obtain ⟨k, rfl⟩ := Nat.exists_eq_add_of_le hj
    rw [add_assoc, pow_add 256 j, Nat.mod_mul_right_div_self, pow_add, pow_one]
    exact Nat.mod_mod_of_dvd _ (Nat.dvd_mul_right 256 _)
  rw [pow_succ, ← Nat.div_div_eq_div_mul, ← hd]
  exact (Nat.div_add_mod' _ 256).symm

theorem recvRounds_eq (hb : ∀ i : Fin h, (szbuf (slotOut bigendian i)).toNat = byteAt sz i) :
    ∀ {n : ℕ} (hn : n ≤ h),
      (recvRounds bigendian szbuf n hn).toNat = sz.toNat % 256 ^ h / 256 ^ (h - n)
  | 0, _ => by
    rw [Nat.sub_zero, Nat.div_eq_of_lt (Nat.mod_lt _ (by positivity))]
    rfl
  | n + 1, hn => by
    have ih := recvRounds_eq hb (Nat.le_of_succ_le hn)
    have hstep := div_step sz.toNat (h - (n + 1)) (h := h) (by omega)
    have hbyte : (szbuf (slotIn bigendian ⟨n, hn⟩)).toNat
        = sz.toNat / 256 ^ (h - (n + 1)) % 256 := by
      rw [slotIn_eq, hb]
      rfl
    rw [show h - (n + 1) + 1 = h - n by omega, ← ih, ← hbyte] at hstep
    rw [recvRounds, toNat_shiftIn _ ?_, hstep]
    rw [← hstep]
    calc sz.toNat % 256 ^ h / 256 ^ (h - (n + 1)) ≤ sz.toNat % 256 ^ h := Nat.div_le_self _ _
      _ ≤ sz.toNat := Nat.mod_le _ _
      _ < 2 ^ 64 := sz.toNat_lt

/-- The receiver gets the size the sender put in the header, but for what does not fit there. -/
theorem recvHeader_sendHeader (h : ℕ) (bigendian : Bool) (sz : UInt64) (szbuf : Fin h → UInt8) :
    (recvHeader bigendian (sendHeader bigendian sz szbuf)).toNat = sz.toNat % 2 ^ (8 * min h 8)
      ∧ (8 ≤ h → recvHeader bigendian (sendHeader bigendian sz szbuf) = sz) := by
  have hr : (recvHeader bigendian (sendHeader bigendian sz szbuf)).toNat = sz.toNat % 256 ^ h := by
    have hb : ∀ i, (sendHeader bigendian sz szbuf (slotOut bigendian i)).toNat = byteAt sz i :=
      fun i => sendRounds_snd le_rfl i i.isLt
    have hs := recvRounds_eq hb le_rfl
    rwa [Nat.sub_self, pow_zero, Nat.div_one] at hs
  have hmod : sz.toNat % 256 ^ h = sz.toNat % 2 ^ (8 * min h 8) := by
    rcases le_total h 8 with hle | hle
    · rw [min_eq_left hle, pow_mul]
      rfl
    · have hlt : sz.toNat < 2 ^ 64 := sz.toNat_lt
      rw [min_eq_right hle, Nat.mod_eq_of_lt, Nat.mod_eq_of_lt hlt]
      calc sz.toNat < 256 ^ 8 := hlt
        _ ≤ 256 ^ h := Nat.pow_le_pow_right (by decide) hle
  refine ⟨hr.trans hmod, fun hle => UInt64.toNat_inj.1 ?_⟩
  rw [hr, hmod, min_eq_right hle, Nat.mod_eq_of_lt sz.toNat_lt]

end Header

/-- In the header of 16 bytes. -/
theorem recvHeader_sendHeader_sixteen :
    recvHeader true (sendHeader true 70000 (fun _ : Fin 16 => 0)) = 70000 :=
  (recvHeader_sendHeader 16 true 70000 _).2 (by decide)

end Epx
