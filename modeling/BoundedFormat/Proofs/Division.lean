import BoundedFormat.Division
import Mathlib.Tactic.Ring
import Mathlib.Tactic.Linarith

/-!
# Long division is division

The running remainder and the quotient of a long division stand for the bits of the dividend that
have been brought down, the top of the dividend register for those still to come. Together they
are a number, `Progress.pending`, that no step changes. After the last step the register stands
for nothing, and what is pending is the quotient times the divisor plus a remainder below it.
-/

namespace BoundedFormat.Division

theorem toNat_toUInt64 (b : Bool) : b.toUInt64.toNat = b.toNat := by cases b <;> rfl

theorem topBit_eq (w : UInt64) : topBit w = decide (2 ^ 63 ≤ w.toNat) := by
  simp only [topBit, UInt64.le_iff_toNat_le]
  rfl

theorem toNat_topBit (w : UInt64) : (topBit w).toNat = w.toNat / 2 ^ 63 := by
  have hw := w.toNat_lt
  rw [topBit_eq]
  by_cases h : 2 ^ 63 ≤ w.toNat
  · simp only [h, decide_true, Bool.toNat_true]; omega
  · simp only [h, decide_false, Bool.toNat_false]; omega

theorem toNat_shiftIn (w : UInt64) (bit : Bool) :
    (shiftIn w bit).toNat = (2 * w.toNat + bit.toNat) % 2 ^ 64 := by
  simp only [shiftIn, UInt64.toNat_add, toNat_toUInt64]
  omega

/-- The number that the state of a long division stands for, `bits` being still to come. -/
def Progress.pending (divisor : UInt64) (bits : ℕ) (p : Progress) : ℕ :=
  (p.quotient.toNat * divisor.toNat + p.remainder.toNat) * 2 ^ bits +
    p.dividend.toNat / 2 ^ (64 - bits)

/-- The remainder after a bit has come down, before anything is subtracted. It may not fit a
register. -/
def Progress.lowered (p : Progress) : ℕ := 2 * p.remainder.toNat + (topBit p.dividend).toNat

theorem fits_iff {divisor : UInt64} {p : Progress} (hr : p.remainder < divisor) :
    (topBit p.remainder || divisor ≤ shiftIn p.remainder (topBit p.dividend)) =
      decide (divisor.toNat ≤ p.lowered) := by
  have hd := divisor.toNat_lt
  have hb := Bool.toNat_le (topBit p.dividend)
  rw [UInt64.lt_iff_toNat_lt] at hr
  rw [topBit_eq, Bool.eq_iff_iff]
  simp only [Bool.or_eq_true, decide_eq_true_eq, UInt64.le_iff_toNat_le, toNat_shiftIn]
  simp only [Progress.lowered]
  omega

theorem toNat_remainder_step {divisor : UInt64} {p : Progress} (hr : p.remainder < divisor) :
    (step divisor p).remainder.toNat =
      if divisor.toNat ≤ p.lowered then p.lowered - divisor.toNat else p.lowered := by
  have hd := divisor.toNat_lt
  have hb := Bool.toNat_le (topBit p.dividend)
  simp only [step, fits_iff hr, decide_eq_true_eq]
  rw [UInt64.lt_iff_toNat_lt] at hr
  by_cases h : divisor.toNat ≤ p.lowered
  · -- A carry makes the difference wrap, back to the true remainder.
    simp only [h, if_true, UInt64.toNat_sub, toNat_shiftIn]
    simp only [Progress.lowered] at h ⊢
    omega
  · simp only [h, if_false, toNat_shiftIn]
    simp only [Progress.lowered] at h ⊢
    omega

theorem remainder_step_lt {divisor : UInt64} {p : Progress} (hr : p.remainder < divisor) :
    (step divisor p).remainder < divisor := by
  have hb := Bool.toNat_le (topBit p.dividend)
  rw [UInt64.lt_iff_toNat_lt, toNat_remainder_step hr]
  rw [UInt64.lt_iff_toNat_lt] at hr
  by_cases h : divisor.toNat ≤ p.lowered
  · rw [if_pos h, Progress.lowered]; omega
  · rw [if_neg h]; omega

theorem toNat_quotient_step {divisor : UInt64} {p : Progress} (hr : p.remainder < divisor) :
    (step divisor p).quotient.toNat =
      (2 * p.quotient.toNat + if divisor.toNat ≤ p.lowered then 1 else 0) % 2 ^ 64 := by
  simp only [step, fits_iff hr, toNat_shiftIn]
  by_cases h : divisor.toNat ≤ p.lowered <;> simp [h]

/-- A step leaves the remainder of what came down. -/
theorem toNat_remainder_step_eq_mod {divisor : UInt64} {p : Progress}
    (hr : p.remainder < divisor) :
    (step divisor p).remainder.toNat = p.lowered % divisor.toNat := by
  have hlt := remainder_step_lt hr
  rw [UInt64.lt_iff_toNat_lt, toNat_remainder_step hr] at hlt
  rw [toNat_remainder_step hr]
  by_cases h : divisor.toNat ≤ p.lowered
  · rw [if_pos h] at hlt ⊢
    rw [Nat.mod_eq_sub_mod h, Nat.mod_eq_of_lt hlt]
  · rw [if_neg h, Nat.mod_eq_of_lt (Nat.lt_of_not_le h)]

/-- A shift that carries out makes the remainder `2 ^ 64` more than the register shows. -/
theorem lowered_of_carry {p : Progress} (hcarry : topBit p.remainder) :
    p.lowered = 2 ^ 64 + (shiftIn p.remainder (topBit p.dividend)).toNat := by
  have hr := p.remainder.toNat_lt
  have hb := Bool.toNat_le (topBit p.dividend)
  rw [topBit_eq, decide_eq_true_eq] at hcarry
  rw [Progress.lowered, toNat_shiftIn]
  omega

/-- The top bit leaves the register, and the others move up. -/
theorem dividend_step_div (divisor : UInt64) (p : Progress) {bits : ℕ} (hbits : bits + 1 ≤ 64) :
    p.dividend.toNat / 2 ^ (64 - (bits + 1)) =
      (topBit p.dividend).toNat * 2 ^ bits +
        (step divisor p).dividend.toNat / 2 ^ (64 - bits) := by
  have hw := p.dividend.toNat_lt
  have hpos : 0 < 2 ^ (63 - bits) := Nat.two_pow_pos _
  have hhalf : 2 ^ 63 = 2 ^ bits * 2 ^ (63 - bits) := by
    rw [← Nat.pow_add]; congr 1; omega
  have hwhole : 2 ^ (64 - bits) = 2 * 2 ^ (63 - bits) := by
    rw [← Nat.pow_succ']; congr 1; omega
  have hnext : (step divisor p).dividend.toNat =
      2 * (p.dividend.toNat - p.dividend.toNat / 2 ^ 63 * 2 ^ 63) := by
    simp only [step, toNat_shiftIn, Bool.toNat_false]
    omega
  rw [hnext, hwhole, Nat.mul_div_mul_left _ _ (by decide), toNat_topBit,
    show 64 - (bits + 1) = 63 - bits by omega]
  generalize hbit : p.dividend.toNat / 2 ^ 63 = bit
  have hle : bit * 2 ^ 63 ≤ p.dividend.toNat := by omega
  calc p.dividend.toNat / 2 ^ (63 - bits)
      = ((p.dividend.toNat - bit * 2 ^ 63) + bit * 2 ^ bits * 2 ^ (63 - bits)) /
          2 ^ (63 - bits) := by
        rw [Nat.mul_assoc, ← hhalf, Nat.sub_add_cancel hle]
    _ = bit * 2 ^ bits + (p.dividend.toNat - bit * 2 ^ 63) / 2 ^ (63 - bits) := by
        rw [Nat.add_mul_div_right _ _ hpos, Nat.add_comm]

/-- **No step changes what is pending**, as long as it fits a word. -/
theorem pending_step {divisor : UInt64} {p : Progress} {bits : ℕ} (hbits : bits + 1 ≤ 64)
    (hr : p.remainder < divisor) (hfit : p.pending divisor (bits + 1) < 2 ^ 64) :
    (step divisor p).pending divisor bits = p.pending divisor (bits + 1) := by
  have hpow : 0 < 2 ^ bits := Nat.two_pow_pos _
  have hdivisor : 0 < divisor.toNat := by
    rw [UInt64.lt_iff_toNat_lt] at hr
    omega
  let taken := if divisor.toNat ≤ p.lowered then 1 else 0
  have hremainder : (step divisor p).remainder.toNat + taken * divisor.toNat = p.lowered := by
    rw [toNat_remainder_step hr]
    by_cases h : divisor.toNat ≤ p.lowered
    · simp only [taken, h, if_true]; omega
    · simp only [taken, h, if_false]; omega
  have hexpand : p.pending divisor (bits + 1) =
      (2 * (p.quotient.toNat * divisor.toNat) + p.lowered) * 2 ^ bits +
        (step divisor p).dividend.toNat / 2 ^ (64 - bits) := by
    rw [Progress.pending, dividend_step_div divisor p hbits, Progress.lowered, Nat.pow_succ]
    ring
  have hquotient : (step divisor p).quotient.toNat = 2 * p.quotient.toNat + taken := by
    rw [toNat_quotient_step hr]
    apply Nat.mod_eq_of_lt
    have hwhole : (2 * p.quotient.toNat + taken) * divisor.toNat ≤
        2 * (p.quotient.toNat * divisor.toNat) + p.lowered := by
      rw [← hremainder]
      linarith
    calc 2 * p.quotient.toNat + taken
        ≤ (2 * p.quotient.toNat + taken) * divisor.toNat := Nat.le_mul_of_pos_right _ hdivisor
      _ ≤ 2 * (p.quotient.toNat * divisor.toNat) + p.lowered := hwhole
      _ ≤ (2 * (p.quotient.toNat * divisor.toNat) + p.lowered) * 2 ^ bits :=
          Nat.le_mul_of_pos_right _ hpow
      _ ≤ p.pending divisor (bits + 1) := by rw [hexpand]; exact Nat.le_add_right _ _
      _ < 2 ^ 64 := hfit
  rw [hexpand, Progress.pending, hquotient, ← hremainder]
  ring

/-- Bringing down bits leaves the remainder below the divisor and changes nothing of what is
pending. -/
theorem pending_run {divisor : UInt64} (done bits : ℕ) {p : Progress}
    (hbits : done + bits ≤ 64) (hr : p.remainder < divisor)
    (hfit : p.pending divisor (done + bits) < 2 ^ 64) :
    (run divisor done p).remainder < divisor ∧
      (run divisor done p).pending divisor bits = p.pending divisor (done + bits) := by
  induction done generalizing p with
  | zero => exact ⟨hr, by rw [run, Nat.zero_add]⟩
  | succ done ih =>
      have hnext : done + 1 + bits = done + bits + 1 := by omega
      rw [hnext] at hbits hfit ⊢
      have hsame := pending_step hbits hr hfit
      obtain ⟨hlt, hpending⟩ :=
        ih (by omega) (remainder_step_lt hr) (by rw [hsame]; exact hfit)
      rw [run]
      exact ⟨hlt, hpending.trans hsame⟩

/-- Quotient and remainder of a division of numbers. -/
structure IsDivision (n d q r : ℕ) : Prop where
  eq : n = q * d + r
  lt : r < d

namespace IsDivision

variable {n d q r : ℕ}

theorem quotient_eq (h : IsDivision n d q r) : q = n / d := by
  have hd : 0 < d := Nat.zero_lt_of_lt h.lt
  rw [h.eq, Nat.add_comm, Nat.add_mul_div_right _ _ hd, Nat.div_eq_of_lt h.lt, Nat.zero_add]

theorem remainder_eq (h : IsDivision n d q r) : r = n % d := by
  rw [h.eq, Nat.add_comm, Nat.add_mul_mod_self_right, Nat.mod_eq_of_lt h.lt]

end IsDivision

/-- A long division before its first step. -/
def Progress.start (n : UInt64) : Progress := { dividend := n, quotient := 0, remainder := 0 }

/-- **After every step the bits brought down so far are divided.** -/
theorem isDivision_run (n : UInt64) {d : UInt64} (hd : 0 < d) {done : ℕ} (hdone : done ≤ 64) :
    IsDivision (n.toNat / 2 ^ (64 - done)) d.toNat (run d done (.start n)).quotient.toNat
      (run d done (.start n)).remainder.toNat := by
  have hstart : (Progress.start n).pending d (done + (64 - done)) = n.toNat := by
    rw [Nat.add_sub_cancel' hdone]
    simp [Progress.pending, Progress.start]
  obtain ⟨hlt, hpending⟩ :=
    pending_run done (64 - done) (by omega) hd (by rw [hstart]; exact n.toNat_lt)
  rw [hstart, Progress.pending] at hpending
  -- The bits still to come are fewer than the places that the others have moved up.
  have hcoming : (run d done (.start n)).dividend.toNat / 2 ^ (64 - (64 - done)) <
      2 ^ (64 - done) := by
    rw [Nat.div_lt_iff_lt_mul (Nat.two_pow_pos _), ← Nat.pow_add,
      Nat.add_sub_cancel' (Nat.sub_le ..)]
    exact UInt64.toNat_lt _
  refine ⟨?_, UInt64.lt_iff_toNat_lt.mp hlt⟩
  rw [← hpending, Nat.add_comm, Nat.add_mul_div_right _ _ (Nat.two_pow_pos _),
    Nat.div_eq_of_lt hcoming, Nat.zero_add]

theorem restoring_eq (n d : UInt64) (hd : d ≠ 0) : restoring n d = (n / d, n % d) := by
  have h := isDivision_run n (UInt64.pos_iff_ne_zero.mpr hd) (Nat.le_refl 64)
  rw [Nat.sub_self, Nat.pow_zero, Nat.div_one] at h
  rw [restoring]
  simp only [Prod.mk.injEq, ← UInt64.toNat_inj, UInt64.toNat_div, UInt64.toNat_mod]
  exact ⟨h.quotient_eq, h.remainder_eq⟩

theorem narrow_eq {n d : UInt64} (hn : fitsHalf n) (hd : fitsHalf d) :
    narrow n d = (n / d, n % d) := by
  simp only [fitsHalf, decide_eq_true_eq, UInt64.le_iff_toNat_le] at hn hd
  have hn' : n.toNat % 4294967296 = n.toNat := Nat.mod_eq_of_lt (Nat.lt_succ_of_le hn)
  have hd' : d.toNat % 4294967296 = d.toNat := Nat.mod_eq_of_lt (Nat.lt_succ_of_le hd)
  refine Prod.ext ?_ ?_ <;> apply UInt64.toNat_inj.mp <;> simp [narrow, hn', hd']

theorem divideRegisters_eq (n d : UInt64) (hd : d ≠ 0) :
    divideRegisters n d = (n / d, n % d) := by
  rw [divideRegisters]
  by_cases h : fitsHalf n && fitsHalf d
  · rw [if_pos h]
    rw [Bool.and_eq_true] at h
    exact narrow_eq h.1 h.2
  · rw [if_neg h, restoring_eq n d hd]

/-- Both ways of dividing give the quotient and the remainder. -/
theorem divMod_eq (n d : Word) (hd : d ≠ 0) : divMod n d = (n / d, n % d) := by
  have hd' : UInt64.ofBitVec d ≠ 0 := fun h => hd (congrArg UInt64.toBitVec h)
  rw [divMod, divideRegisters_eq _ _ hd']
  rfl

/-- From the start no shift carries out: a 64-bit dividend has at most 63 bits down before the last
step, so the remainder is below `2 ^ 63`. -/
theorem topBit_remainder_run (n : UInt64) {d : UInt64} (hd : 0 < d) {done : ℕ} (hdone : done < 64) :
    topBit (run d done (.start n)).remainder = false := by
  have hdivision := isDivision_run n hd (Nat.le_of_lt hdone)
  have hle : (run d done (.start n)).remainder.toNat ≤ n.toNat / 2 ^ (64 - done) := by
    rw [hdivision.eq]
    exact Nat.le_add_left ..
  have hhalf : n.toNat / 2 ^ (64 - done) ≤ n.toNat / 2 ^ 1 :=
    Nat.div_le_div_left (Nat.pow_le_pow_right (by decide) (by omega)) (Nat.two_pow_pos 1)
  have hn := n.toNat_lt
  rw [topBit_eq, decide_eq_false_iff_not]
  omega

/-- **Division is exact.** A quotient and a remainder below the divisor make up the dividend as
numbers. Long division gives them for every divisor, narrow division agrees with it wherever it
applies, and after each of the 64 steps the bits brought down so far are divided. A step whose shift
carries out is right as well: the difference wraps to the remainder of the number with its carry. -/
theorem divMod_exact (n d : UInt64) (hd : d ≠ 0) :
    (∃ q r : Word, divMod? n.toBitVec d.toBitVec = some (q, r) ∧
      IsDivision n.toNat d.toNat q.toNat r.toNat) ∧
    IsDivision n.toNat d.toNat (restoring n d).1.toNat (restoring n d).2.toNat ∧
    (fitsHalf n → fitsHalf d → narrow n d = restoring n d) ∧
    (∀ done ≤ 64, let p := run d done (.start n)
      IsDivision (n.toNat / 2 ^ (64 - done)) d.toNat p.quotient.toNat p.remainder.toNat) ∧
    ∀ p : Progress, p.remainder < d → topBit p.remainder →
      let shifted := shiftIn p.remainder (topBit p.dividend)
      2 ^ 63 < d.toNat ∧ (step d p).remainder = shifted - d ∧
        (shifted - d).toNat = (2 ^ 64 + shifted.toNat) % d.toNat := by
  have hpos : 0 < d := UInt64.pos_iff_ne_zero.mpr hd
  have hexact : IsDivision n.toNat d.toNat (n / d).toNat (n % d).toNat := by
    rw [UInt64.toNat_div, UInt64.toNat_mod]
    exact ⟨(Nat.div_add_mod' ..).symm, Nat.mod_lt _ (UInt64.lt_iff_toNat_lt.mp hpos)⟩
  refine ⟨⟨(n / d).toBitVec, (n % d).toBitVec, ?_, hexact⟩, ?_, ?_, ?_, ?_⟩
  · have hne : d.toBitVec ≠ 0 := fun h => hd (congrArg UInt64.ofBitVec h)
    rw [divMod?, if_neg hne, divMod_eq _ _ hne]
    rfl
  · rw [restoring_eq n d hd]
    exact hexact
  · intro hn hd'
    rw [narrow_eq hn hd', restoring_eq n d hd]
  · intro done hdone
    exact isDivision_run n hpos hdone
  · intro p hr hcarry shifted
    have hremainder : (step d p).remainder = shifted - d := by
      simp only [step, hcarry, Bool.true_or, if_true]
      rfl
    refine ⟨?_, hremainder, ?_⟩
    · rw [topBit_eq, decide_eq_true_eq] at hcarry
      exact Nat.lt_of_le_of_lt hcarry (UInt64.lt_iff_toNat_lt.mp hr)
    · rw [← hremainder, toNat_remainder_step_eq_mod hr, lowered_of_carry hcarry]

/-- A divisor above `2 ^ 63`, and a step that carries out. -/
theorem divMod_exact_carry :
    let n : UInt64 := 0xffffffffffffffff
    let d : UInt64 := 0x8000000000000001
    let p : Progress := { dividend := n, quotient := 0, remainder := 0x8000000000000000 }
    d ≠ 0 ∧ p.remainder < d ∧ topBit p.remainder ∧
    (∃ q r : Word, divMod? n.toBitVec d.toBitVec = some (q, r) ∧
      IsDivision n.toNat d.toNat q.toNat r.toNat) ∧
    (step d p).remainder.toNat = (2 ^ 64 + 1) % d.toNat := by
  intro n d p
  have hd : d ≠ 0 := by decide
  have hr : p.remainder < d := by decide
  have hcarry : topBit p.remainder := by decide
  obtain ⟨hexact, -, -, -, hstep⟩ := divMod_exact n d hd
  obtain ⟨-, hremainder, htrue⟩ := hstep p hr hcarry
  have hshifted : (shiftIn p.remainder (topBit p.dividend)).toNat = 1 := by decide
  refine ⟨hd, hr, hcarry, hexact, ?_⟩
  rw [hremainder, htrue, hshifted]

end BoundedFormat.Division
