import AgentLoop.Number.Floating
import Mathlib.Algebra.Order.Field.Power
import Mathlib.Data.Rat.Lemmas
import Mathlib.Tactic.FieldSimp
import Mathlib.Tactic.Linarith
import Mathlib.Tactic.Positivity
import Mathlib.Tactic.Ring

/-!
# Rounding

A number is rounded to the nearest multiple of a unit, a power of two that is chosen so that the multiple has as many
bits as a significand.  So a power of two that bounds the number bounds what it is rounded to, the number moves by half
a unit at most, and it does not move at all if it is a whole number that has no more bits than a significand.
-/

namespace AgentLoop

/-! ### Bounds -/

/-- What is at most a natural number is rounded to at most that number. -/
private theorem roundQuotient_le {num den c : Nat} (hd : 0 < den) (h : num ≤ c * den) : roundQuotient num den ≤ c := by
  have hsplit := Nat.div_add_mod num den
  have hwhole : num / den ≤ c := Nat.div_le_of_le_mul (Nat.mul_comm c den ▸ h)
  unfold roundQuotient
  dsimp only
  rcases hwhole.eq_or_lt with heq | hlt
  · -- there is nothing left to round
    have hrest : num % den = 0 := by
      rw [heq, Nat.mul_comm] at hsplit
      omega
    rw [hrest, Nat.mul_zero, if_pos hd, heq]
  · split_ifs <;> omega

/-- What is at least a natural number is rounded to at least that number. -/
private theorem le_roundQuotient {num den c : Nat} (hd : 0 < den) (h : c * den ≤ num) : c ≤ roundQuotient num den := by
  have hwhole : c ≤ num / den := (Nat.le_div_iff_mul_le hd).2 h
  unfold roundQuotient
  dsimp only
  split_ifs <;> omega

private theorem floorLog2_le {num den k : Nat} (hn : num ≠ 0) (h : num ≤ 2 ^ k * den) : floorLog2 num den ≤ k := by
  have hd : den ≠ 0 := by
    rintro rfl
    omega
  have hnum : num < 2 ^ (k + (den.log2 + 1)) := by
    calc num ≤ 2 ^ k * den := h
      _ < 2 ^ k * 2 ^ (den.log2 + 1) := Nat.mul_lt_mul_of_pos_left Nat.lt_log2_self (Nat.two_pow_pos k)
      _ = 2 ^ (k + (den.log2 + 1)) := (Nat.pow_add ..).symm
  have hlog : num.log2 < k + (den.log2 + 1) := (Nat.log2_lt hn).2 hnum
  unfold floorLog2
  dsimp only
  split_ifs <;> omega

theorem Floating.value_finite (negative : Bool) (m : Nat) (e : Int) :
    (Floating.finite negative m e).value = (if negative then -1 else 1) * (m * 2 ^ e) := by
  have hvalue : mkRat (m <<< e.toNat : Nat) (1 <<< (-e).toNat) = (m : Rat) * 2 ^ e := by
    have he : e = (e.toNat : Int) - ((-e).toNat : Int) := by omega
    conv => rhs; rw [he, zpow_sub₀ two_ne_zero, zpow_natCast, zpow_natCast]
    rw [Rat.mkRat_eq_div, Nat.shiftLeft_eq, Nat.shiftLeft_eq]
    push_cast
    ring
  unfold Floating.value
  dsimp only
  rw [hvalue]
  cases negative <;> simp

namespace FloatFormat

/-- A format that has significands, and one among whose units is one. -/
structure Proper (f : FloatFormat) : Prop where
  precision : 0 < f.precision
  least : f.leastExponent ≤ 0
  greatest : 0 ≤ f.greatestExponent

theorem proper_double : double.Proper := ⟨by decide, by decide, by decide⟩

theorem proper_single : single.Proper := ⟨by decide, by decide, by decide⟩

variable {f : FloatFormat} {num den k : Nat}

/-- In units of `2 ^ e` the bound is a whole number. -/
private theorem roundQuotient_shifted {e : Int} (hd : 0 < den) (h : num ≤ 2 ^ k * den) (he : e ≤ k) :
    (roundQuotient (num <<< (-e).toNat) (den <<< e.toNat) : Rat) * 2 ^ e ≤ 2 ^ k := by
  have hexp : (k - e).toNat + e.toNat = k + (-e).toNat := by omega
  have hm : roundQuotient (num <<< (-e).toNat) (den <<< e.toNat) ≤ 2 ^ (k - e).toNat := by
    refine roundQuotient_le (by rw [Nat.shiftLeft_eq]; positivity) ?_
    rw [Nat.shiftLeft_eq, Nat.shiftLeft_eq]
    calc num * 2 ^ (-e).toNat ≤ 2 ^ k * den * 2 ^ (-e).toNat := Nat.mul_le_mul_right _ h
      _ = 2 ^ (k + (-e).toNat) * den := by rw [Nat.pow_add]; ring
      _ = 2 ^ (k - e).toNat * (den * 2 ^ e.toNat) := by rw [← hexp, Nat.pow_add]; ring
  have hcast : (roundQuotient (num <<< (-e).toNat) (den <<< e.toNat) : Rat) ≤ 2 ^ ((k - e).toNat : Int) := by
    rw [zpow_natCast]
    exact_mod_cast hm
  have hunit : (0 : Rat) ≤ 2 ^ e := zpow_nonneg zero_le_two e
  calc (roundQuotient (num <<< (-e).toNat) (den <<< e.toNat) : Rat) * 2 ^ e
      ≤ 2 ^ ((k - e).toNat : Int) * 2 ^ e := mul_le_mul_of_nonneg_right hcast hunit
    _ = 2 ^ (((k - e).toNat : Int) + e) := (zpow_add₀ two_ne_zero _ _).symm
    _ = 2 ^ (k : Int) := by congr 1; omega
    _ = 2 ^ k := zpow_natCast ..

/-- A significand with one bit too many loses it to the exponent, and the number stays the same. -/
private theorem exists_carried {m : Nat} {e : Int} (hf : f.Proper) (hm : (m : Rat) * 2 ^ e ≤ 2 ^ k)
    (hk : k < f.greatestExponent + f.precision) (he : e ≤ f.greatestExponent) :
    ∃ m' e', (if m = 1 <<< f.precision then (1 <<< (f.precision - 1), e + 1) else (m, e)) = (m', e') ∧
      (m' : Rat) * 2 ^ e' = m * 2 ^ e ∧ e' ≤ f.greatestExponent := by
  have hprecision := hf.precision
  split_ifs with hfull
  · have hbits : (m : Rat) = 2 ^ (f.precision : Int) := by
      rw [hfull, Nat.shiftLeft_eq, one_mul, zpow_natCast, Nat.cast_pow, Nat.cast_ofNat]
    have hrest : ((1 <<< (f.precision - 1) : Nat) : Rat) = 2 ^ ((f.precision : Int) - 1) := by
      have hpred : (f.precision : Int) - 1 = (f.precision - 1 : Nat) := by omega
      rw [hpred, Nat.shiftLeft_eq, one_mul, zpow_natCast, Nat.cast_pow, Nat.cast_ofNat]
    -- a full significand is only bounded if the exponent is low
    have hlow : f.precision + e ≤ k := by
      rw [hbits, ← zpow_add₀ two_ne_zero, ← zpow_natCast, zpow_le_zpow_iff_right₀ one_lt_two] at hm
      exact hm
    refine ⟨_, _, rfl, ?_, by omega⟩
    rw [hbits, hrest, ← zpow_add₀ two_ne_zero, ← zpow_add₀ two_ne_zero]
    congr 1
    omega
  · exact ⟨m, e, rfl, rfl, he⟩

/-- The exponent of the unit that a quotient is rounded to multiples of. -/
def unit (f : FloatFormat) (num den : Nat) : Int :=
  max f.leastExponent (floorLog2 num den - (f.precision - 1 : Nat))

private theorem unit_le (hf : f.Proper) (hn : num ≠ 0) (h : num ≤ 2 ^ k * den) : f.unit num den ≤ k := by
  have hleast := hf.least
  have hlog := floorLog2_le hn h
  unfold unit
  omega

/-- A number that a power of two bounds is rounded to the nearest multiple of its unit, without an overflow. -/
private theorem exists_round (hf : f.Proper) (hn : num ≠ 0) (hd : 0 < den) (h : num ≤ 2 ^ k * den)
    (hk : k < f.greatestExponent + f.precision) (negative : Bool) :
    ∃ m e, f.round negative num den = .finite negative m e ∧ (m : Rat) * 2 ^ e =
      roundQuotient (num <<< (-f.unit num den).toNat) (den <<< (f.unit num den).toNat) * 2 ^ f.unit num den := by
  have hprecision := hf.precision
  have hgreatest := hf.greatest
  have hleast := hf.least
  have hlog := floorLog2_le hn h
  have hlimit : f.unit num den ≤ f.greatestExponent := by
    unfold unit
    omega
  obtain ⟨m, e, hcarried, hsame, hfits⟩ :=
    exists_carried hf (roundQuotient_shifted hd h (unit_le hf hn h)) hk hlimit
  refine ⟨m, e, ?_, hsame⟩
  unfold unit at hcarried
  unfold round
  rw [if_neg hn]
  dsimp only
  rw [hcarried]
  dsimp only
  rw [if_neg (by omega)]

/-- Rounding keeps to a power of two that bounds the number, and does not overflow there. -/
private theorem round_le (hf : f.Proper) (hd : 0 < den) (h : num ≤ 2 ^ k * den)
    (hk : k < f.greatestExponent + f.precision)
    (negative : Bool) : ∃ m e, f.round negative num den = .finite negative m e ∧ (m : Rat) * 2 ^ e ≤ 2 ^ k := by
  by_cases hn : num = 0
  · refine ⟨0, f.leastExponent, by rw [round, if_pos hn], ?_⟩
    rw [Nat.cast_zero, zero_mul]
    positivity
  · obtain ⟨m, e, hround, hvalue⟩ := exists_round hf hn hd h hk negative
    exact ⟨m, e, hround, hvalue ▸ roundQuotient_shifted hd h (unit_le hf hn h)⟩

private theorem natAbs_num_of_nonneg {q : Rat} (h0 : 0 ≤ q) : (q.num.natAbs : Rat) = q * q.den := by
  rw [Rat.mul_den_eq_num, ← Int.cast_natCast, Int.natAbs_of_nonneg (Rat.num_nonneg.2 h0)]

private theorem roundRat_of_nonneg {q : Rat} (h0 : 0 ≤ q) : f.roundRat q = f.round false q.num.natAbs q.den := by
  rw [roundRat, decide_eq_false (not_lt.2 h0)]

/-- The numerator and the denominator of a bounded number are as far apart as the bound says. -/
private theorem natAbs_num_le {q : Rat} (h0 : 0 ≤ q) (h : q ≤ 2 ^ k) : q.num.natAbs ≤ 2 ^ k * q.den := by
  have hscaled : q * q.den ≤ 2 ^ k * q.den := mul_le_mul_of_nonneg_right h (Nat.cast_nonneg _)
  rw [← natAbs_num_of_nonneg h0] at hscaled
  exact_mod_cast hscaled

/-- A number that is not negative and has a power of two above it is rounded to a finite one like that. -/
theorem roundRat_le {q : Rat} (hf : f.Proper) (h0 : 0 ≤ q) (h : q ≤ 2 ^ k) (hk : k < f.greatestExponent + f.precision) :
    ∃ m e, f.roundRat q = .finite false m e ∧ (m : Rat) * 2 ^ e ≤ 2 ^ k := by
  rw [roundRat_of_nonneg h0]
  exact round_le hf q.den_pos (natAbs_num_le h0 h) hk false

theorem value_round_nonpos (num den : Nat) : (f.round true num den).value ≤ 0 := by
  have hfinite (m : Nat) (e : Int) : (Floating.finite true m e).value ≤ 0 := by
    rw [Floating.value_finite, if_pos rfl, neg_one_mul, neg_nonpos]
    positivity
  have hlimited (m : Nat) (e : Int) :
      (if f.greatestExponent < e then .infinite true else .finite true m e : Floating).value ≤ 0 := by
    split_ifs
    · exact le_refl 0
    · exact hfinite m e
  unfold round
  split_ifs
  · exact hfinite ..
  · exact hlimited ..

end FloatFormat

/-! ### Errors -/

/-- The natural number that a quotient is rounded to is at most a half away from it. -/
private theorem abs_roundQuotient_sub_le {den : Nat} (hd : 0 < den) (num : Nat) :
    |(roundQuotient num den : Rat) - num / den| ≤ 1 / 2 := by
  have hden : (0 : Rat) < den := Nat.cast_pos.2 hd
  have hquotient : (num : Rat) / den = (num / den : Nat) + ((num % den : Nat) : Rat) / den := by
    field_simp
    exact_mod_cast (Nat.div_add_mod num den).symm
  have hrest : ((num % den : Nat) : Rat) / den ≤ 1 := by
    rw [div_le_one hden, Nat.cast_le]
    exact (Nat.mod_lt num hd).le
  have hrest0 : 0 ≤ ((num % den : Nat) : Rat) / den := by positivity
  rw [hquotient]
  unfold roundQuotient
  dsimp only
  split_ifs with hlow hhigh
  · have hhalf : ((num % den : Nat) : Rat) / den ≤ 1 / 2 := by
      rw [div_le_div_iff₀ hden two_pos]
      have hcast : ((2 * (num % den) : Nat) : Rat) ≤ den := Nat.cast_le.2 hlow.le
      push_cast at hcast ⊢
      linarith
    rw [abs_le]
    constructor <;> linarith
  · have hhalf : 1 / 2 ≤ ((num % den : Nat) : Rat) / den := by
      rw [div_le_div_iff₀ two_pos hden]
      have hcast : (den : Rat) ≤ (2 * (num % den) : Nat) := Nat.cast_le.2 hhigh.le
      push_cast at hcast ⊢
      linarith
    rw [abs_le]
    push_cast
    constructor <;> linarith
  · -- exactly between two neighbours either of them is a half away
    have hhalf : ((num % den : Nat) : Rat) / den = 1 / 2 := by
      rw [div_eq_div_iff hden.ne' two_ne_zero]
      have heq : 2 * (num % den) = den := by omega
      have hcast : ((2 * (num % den) : Nat) : Rat) = den := congrArg Nat.cast heq
      push_cast at hcast ⊢
      linarith
    have hparity : ((num / den % 2 : Nat) : Rat) ≤ 1 := by
      exact_mod_cast Nat.le_of_lt_succ (Nat.mod_lt _ two_pos)
    have hparity0 : (0 : Rat) ≤ (num / den % 2 : Nat) := Nat.cast_nonneg _
    rw [hhalf, Nat.cast_add, abs_le]
    constructor <;> linarith

private theorem roundQuotient_mul {den : Nat} (hd : 0 < den) (c : Nat) : roundQuotient (c * den) den = c := by
  unfold roundQuotient
  dsimp only
  rw [Nat.mul_mod_left, Nat.mul_zero, if_pos hd, Nat.mul_div_cancel c hd]

/-- The exponents of a power of two that is at most a quotient, and of the next one, which is greater. -/
private theorem floorLog2_spec {num den : Nat} (hn : num ≠ 0) (hd : den ≠ 0) :
    (2 : Rat) ^ floorLog2 num den ≤ num / den ∧ (num : Rat) / den < 2 ^ (floorLog2 num den + 1) := by
  have hden : (0 : Rat) < den := Nat.cast_pos.2 (Nat.pos_of_ne_zero hd)
  have two : (2 : Rat) ≠ 0 := two_ne_zero
  have hnumlow : (2 : Rat) ^ (num.log2 : Int) ≤ num := by
    rw [zpow_natCast]
    exact_mod_cast Nat.log2_self_le hn
  have hnumhigh : (num : Rat) < 2 ^ ((num.log2 : Int) + 1) := by
    rw [← Nat.cast_succ, zpow_natCast]
    exact_mod_cast Nat.lt_log2_self
  have hdenlow : (2 : Rat) ^ (den.log2 : Int) ≤ den := by
    rw [zpow_natCast]
    exact_mod_cast Nat.log2_self_le hd
  have hdenhigh : (den : Rat) < 2 ^ ((den.log2 : Int) + 1) := by
    rw [← Nat.cast_succ, zpow_natCast]
    exact_mod_cast Nat.lt_log2_self
  unfold floorLog2
  dsimp only
  generalize hk : (num.log2 : Int) - den.log2 = k
  -- the comparison decides on which side of `2 ^ k` the quotient is
  have hcompare : den <<< k.toNat ≤ num <<< (-k).toNat ↔ (2 : Rat) ^ k ≤ num / den := by
    have hsplit : (k.toNat : Int) = k + (-k).toNat := by omega
    have hshift : (0 : Rat) < 2 ^ ((-k).toNat : Int) := zpow_pos two_pos _
    rw [Nat.shiftLeft_eq, Nat.shiftLeft_eq, ← Nat.cast_le (α := Rat), le_div_iff₀ hden]
    push_cast
    rw [← zpow_natCast, ← zpow_natCast, hsplit, zpow_add₀ two, ← mul_assoc, mul_le_mul_iff_left₀ hshift, mul_comm]
  split_ifs with hle
  · refine ⟨hcompare.1 hle, ?_⟩
    rw [div_lt_iff₀ hden]
    calc (num : Rat) < 2 ^ ((num.log2 : Int) + 1) := hnumhigh
      _ = 2 ^ (k + 1) * 2 ^ (den.log2 : Int) := by rw [← zpow_add₀ two]; congr 1; omega
      _ ≤ 2 ^ (k + 1) * den := by gcongr
  · refine ⟨?_, ?_⟩
    · rw [le_div_iff₀ hden]
      calc (2 : Rat) ^ (k - 1) * den ≤ 2 ^ (k - 1) * 2 ^ ((den.log2 : Int) + 1) := by gcongr
        _ = 2 ^ (num.log2 : Int) := by rw [← zpow_add₀ two]; congr 1; omega
        _ ≤ num := hnumlow
    · rw [sub_add_cancel]
      exact not_le.1 fun h => hle (hcompare.2 h)

namespace FloatFormat

variable {f : FloatFormat} {num den k : Nat}

private theorem shifted_div (num den : Nat) (e : Int) :
    ((num <<< (-e).toNat : Nat) : Rat) / (den <<< e.toNat : Nat) = num / den / 2 ^ e := by
  have he : e = (e.toNat : Int) - ((-e).toNat : Int) := by omega
  conv => rhs; rw [he, zpow_sub₀ two_ne_zero, zpow_natCast, zpow_natCast]
  rw [Nat.shiftLeft_eq, Nat.shiftLeft_eq]
  push_cast
  field_simp

/-- Where the unit of a number is not the least one of the format, rounding moves the number by half a unit at most,
and so by no more than a part of it that the bits of the significand determine. -/
theorem abs_value_round_sub_le (hf : f.Proper) (hn : num ≠ 0) (hd : 0 < den) (h : num ≤ 2 ^ k * den)
    (hk : k < f.greatestExponent + f.precision)
    (hnormal : (2 : Rat) ^ (f.leastExponent + f.precision) ≤ num / den) :
    |(f.round false num den).value - num / den| ≤ num / den / 2 ^ f.precision := by
  have two : (2 : Rat) ≠ 0 := two_ne_zero
  have hprecision := hf.precision
  obtain ⟨hlow, hhigh⟩ := floorLog2_spec hn hd.ne'
  have hunit : f.unit num den = floorLog2 num den - (f.precision - 1 : Nat) := by
    have hexp : f.leastExponent + f.precision < floorLog2 num den + 1 :=
      (zpow_lt_zpow_iff_right₀ one_lt_two).1 (hnormal.trans_lt hhigh)
    unfold unit
    omega
  obtain ⟨m, e, hround, hvalue⟩ := exists_round hf hn hd h hk false
  rw [hround, Floating.value_finite, if_neg Bool.false_ne_true, one_mul, hvalue, hunit]
  generalize he : floorLog2 num den - (f.precision - 1 : Nat) = e
  have hpos : (0 : Rat) < 2 ^ e := zpow_pos two_pos e
  have hunits : 0 < den <<< e.toNat := by
    rw [Nat.shiftLeft_eq]
    positivity
  have hhalf := abs_roundQuotient_sub_le hunits (num <<< (-e).toNat)
  rw [shifted_div] at hhalf
  generalize roundQuotient (num <<< (-e).toNat) (den <<< e.toNat) = n at hhalf ⊢
  calc |(n : Rat) * 2 ^ e - num / den| = |((n : Rat) - num / den / 2 ^ e) * 2 ^ e| := by
        congr 1
        field_simp
    _ = |(n : Rat) - num / den / 2 ^ e| * 2 ^ e := by rw [abs_mul, abs_of_pos hpos]
    _ ≤ 1 / 2 * 2 ^ e := by gcongr
    _ = 2 ^ floorLog2 num den / 2 ^ f.precision := by
      have hexp : floorLog2 num den = e + f.precision - 1 := by omega
      rw [hexp, zpow_sub₀ two, zpow_add₀ two, zpow_natCast, zpow_one]
      field_simp
    _ ≤ num / den / 2 ^ f.precision := by gcongr

/-- A whole number that the significand has room for is not moved at all. -/
theorem value_round_mul (hf : f.Proper) (hd : 0 < den) {c : Nat} (hc : c ≤ 2 ^ k) (hk : k < f.precision) :
    (f.round false (c * den) den).value = c := by
  have hleast := hf.least
  have hgreatest := hf.greatest
  rcases eq_or_ne c 0 with rfl | hc0
  · rw [round, if_pos (Nat.zero_mul den), Floating.value_finite]
    simp
  · have hn : c * den ≠ 0 := Nat.mul_ne_zero hc0 hd.ne'
    have hle : c * den ≤ 2 ^ k * den := Nat.mul_le_mul_right den hc
    obtain ⟨m, e, hround, hvalue⟩ := exists_round hf hn hd hle (by omega) false
    have hunit : f.unit (c * den) den ≤ 0 := by
      have hlog := floorLog2_le hn hle
      unfold unit
      omega
    rw [hround, Floating.value_finite, if_neg Bool.false_ne_true, one_mul, hvalue]
    generalize f.unit (c * den) den = e at hunit
    -- a multiple of one is a multiple of any smaller unit
    have hshift : (c * den) <<< (-e).toNat = c * 2 ^ (-e).toNat * (den <<< e.toNat) := by
      rw [Int.toNat_of_nonpos hunit, Nat.shiftLeft_zero, Nat.shiftLeft_eq]
      ring
    have hexp : ((-e).toNat : Int) + e = 0 := by omega
    rw [hshift, roundQuotient_mul (by rw [Nat.shiftLeft_eq]; positivity)]
    push_cast
    rw [← zpow_natCast, mul_assoc, ← zpow_add₀ two_ne_zero, hexp, zpow_zero, mul_one]

theorem abs_value_roundRat_sub_le {q : Rat} (hf : f.Proper) (h0 : 0 < q) (h : q ≤ 2 ^ k)
    (hk : k < f.greatestExponent + f.precision) (hnormal : (2 : Rat) ^ (f.leastExponent + f.precision) ≤ q) :
    |(f.roundRat q).value - q| ≤ q / 2 ^ f.precision := by
  have hnum : q.num.natAbs ≠ 0 := Int.natAbs_ne_zero.2 (Rat.num_ne_zero.2 h0.ne')
  have hquotient : (q.num.natAbs : Rat) / q.den = q := by
    rw [natAbs_num_of_nonneg h0.le, mul_div_cancel_right₀ q (Nat.cast_ne_zero.2 q.den_ne_zero)]
  have herror := abs_value_round_sub_le hf hnum q.den_pos (natAbs_num_le h0.le h) hk (by rwa [hquotient])
  rwa [← roundRat_of_nonneg h0.le, hquotient] at herror

theorem value_roundRat_natCast (hf : f.Proper) {c : Nat} (hc : c ≤ 2 ^ k) (hk : k < f.precision) :
    (f.roundRat c).value = c := by
  have hvalue := value_round_mul hf Nat.one_pos hc hk
  rw [Nat.mul_one] at hvalue
  rw [roundRat_of_nonneg (Nat.cast_nonneg c), Rat.num_natCast, Rat.den_natCast, Int.natAbs_natCast, hvalue]

/-! ### Numbers of a format -/

/-- A finite number of the format: its significand has all its bits unless the exponent is the least one. -/
def Holds (f : FloatFormat) : Floating → Prop
  | .finite _ m e => m < 2 ^ f.precision ∧ f.leastExponent ≤ e ∧ e ≤ f.greatestExponent ∧
      (e = f.leastExponent ∨ 2 ^ (f.precision - 1) ≤ m)
  | _ => False

instance (f : FloatFormat) : ∀ x, Decidable (f.Holds x)
  | .finite _ m e => inferInstanceAs (Decidable (m < 2 ^ f.precision ∧ f.leastExponent ≤ e ∧ e ≤ f.greatestExponent ∧
      (e = f.leastExponent ∨ 2 ^ (f.precision - 1) ≤ m)))
  | .nan | .infinite _ => inferInstanceAs (Decidable False)

private theorem floorLog2_shifted {m : Nat} (hm : m ≠ 0) (e : Int) :
    floorLog2 (m <<< e.toNat) (1 <<< (-e).toNat) = m.log2 + e := by
  have hshift (n k : Nat) (hn : n ≠ 0) : n <<< k ≠ 0 := by
    rw [Nat.shiftLeft_eq]
    positivity
  have hvalue : ((m <<< e.toNat : Nat) : Rat) / (1 <<< (-e).toNat : Nat) = m * 2 ^ e := by
    have hdiv := shifted_div m 1 (-e)
    rwa [neg_neg, Nat.cast_one, div_one, zpow_neg, div_inv_eq_mul] at hdiv
  obtain ⟨hlow, hhigh⟩ := floorLog2_spec (hshift m e.toNat hm) (hshift 1 (-e).toNat one_ne_zero)
  rw [hvalue] at hlow hhigh
  -- the same number lies between two powers of two in two ways
  have hmlow : (2 : Rat) ^ ((m.log2 : Int) + e) ≤ m * 2 ^ e := by
    rw [zpow_add₀ two_ne_zero, zpow_natCast]
    gcongr
    exact_mod_cast Nat.log2_self_le hm
  have hmhigh : (m : Rat) * 2 ^ e < 2 ^ (((m.log2 + 1 : Nat) : Int) + e) := by
    rw [zpow_add₀ two_ne_zero, zpow_natCast]
    gcongr
    exact_mod_cast Nat.lt_log2_self
  have hle := (zpow_lt_zpow_iff_right₀ (one_lt_two : (1 : Rat) < 2)).1 (hlow.trans_lt hmhigh)
  have hge := (zpow_lt_zpow_iff_right₀ (one_lt_two : (1 : Rat) < 2)).1 (hmlow.trans_lt hhigh)
  omega

/-- A number of the format is rounded to itself. -/
private theorem convert_of_holds (hf : f.Proper) {x : Floating} (h : f.Holds x) : x.convert f = x := by
  have hprecision := hf.precision
  cases x with
  | nan => exact h.elim
  | infinite => exact h.elim
  | finite negative m e =>
    obtain ⟨hbits, hleast, hgreatest, hfull⟩ := h
    rcases eq_or_ne m 0 with rfl | hm
    · have hpos := Nat.two_pow_pos (f.precision - 1)
      have he : e = f.leastExponent := hfull.resolve_right (by omega)
      rw [Floating.convert, round, if_pos (by rw [Nat.shiftLeft_eq, Nat.zero_mul]), he]
    · have hunit : f.unit (m <<< e.toNat) (1 <<< (-e).toNat) = e := by
        have hlog : m.log2 < f.precision := (Nat.log2_lt hm).2 hbits
        have hlogfull (h : 2 ^ (f.precision - 1) ≤ m) := (Nat.le_log2 hm).2 h
        rw [unit, floorLog2_shifted hm]
        rcases hfull with rfl | hfull
        · omega
        · have hlogge := hlogfull hfull
          omega
      have hquotient : roundQuotient ((m <<< e.toNat) <<< (-e).toNat) ((1 <<< (-e).toNat) <<< e.toNat) = m := by
        have hmul : (m <<< e.toNat) <<< (-e).toNat = m * ((1 <<< (-e).toNat) <<< e.toNat) := by
          simp only [Nat.shiftLeft_eq]
          ring
        rw [hmul, roundQuotient_mul (by simp only [Nat.shiftLeft_eq]; positivity)]
      have hcarry : m ≠ 1 <<< f.precision := by
        rw [Nat.shiftLeft_eq, Nat.one_mul]
        omega
      unfold unit at hunit
      rw [Floating.convert, round, if_neg (by rw [Nat.shiftLeft_eq]; positivity)]
      dsimp only
      rw [hunit, hquotient, if_neg hcarry]
      dsimp only
      rw [if_neg (by omega)]

/-- In its unit a number has the bits of a significand, all of them unless the unit is the least one. -/
private theorem roundQuotient_unit (hf : f.Proper) (hn : num ≠ 0) (hd : 0 < den) :
    roundQuotient (num <<< (-f.unit num den).toNat) (den <<< (f.unit num den).toNat) ≤ 2 ^ f.precision ∧
      (f.unit num den = f.leastExponent ∨ 2 ^ (f.precision - 1) ≤
        roundQuotient (num <<< (-f.unit num den).toNat) (den <<< (f.unit num den).toNat)) := by
  have hprecision := hf.precision
  obtain ⟨hlow, hhigh⟩ := floorLog2_spec hn hd.ne'
  obtain ⟨u, hu⟩ : ∃ u, u = f.unit num den := ⟨_, rfl⟩
  rw [← hu]
  unfold unit at hu
  have hunit : (0 : Rat) < 2 ^ u := zpow_pos two_pos u
  have hden : 0 < den <<< u.toNat := by
    rw [Nat.shiftLeft_eq]
    positivity
  have hden' : (0 : Rat) < (den <<< u.toNat : Nat) := Nat.cast_pos.2 hden
  constructor
  · refine roundQuotient_le hden ?_
    have hlt : (num : Rat) / den / 2 ^ u < 2 ^ (f.precision : Int) := by
      rw [div_lt_iff₀ hunit, ← zpow_add₀ two_ne_zero]
      exact hhigh.trans_le (zpow_le_zpow_right₀ one_le_two (by omega))
    rw [← shifted_div, zpow_natCast, div_lt_iff₀ hden'] at hlt
    exact_mod_cast hlt.le
  · refine or_iff_not_imp_left.2 fun hleast => le_roundQuotient hden ?_
    have hle : (2 : Rat) ^ ((f.precision - 1 : Nat) : Int) ≤ num / den / 2 ^ u := by
      rw [le_div_iff₀ hunit, ← zpow_add₀ two_ne_zero]
      exact (zpow_le_zpow_right₀ one_le_two (by omega)).trans hlow
    rw [← shifted_div, zpow_natCast, le_div_iff₀ hden'] at hle
    exact_mod_cast hle

/-- Whatever is finite after rounding is a number of the format. -/
private theorem holds_round (hf : f.Proper) (hd : 0 < den) {negative s : Bool} {m : Nat} {e : Int}
    (h : f.round negative num den = .finite s m e) : f.Holds (.finite s m e) := by
  have hprecision := hf.precision
  have hhalf : 2 ^ (f.precision - 1) < 2 ^ f.precision := Nat.pow_lt_pow_right (by decide) (by omega)
  unfold round at h
  split_ifs at h with hn
  · cases h
    exact ⟨Nat.two_pow_pos _, le_rfl, hf.least.trans hf.greatest, .inl rfl⟩
  · obtain ⟨hmost, hfull⟩ := roundQuotient_unit hf hn hd
    dsimp only at h
    rw [← unit] at h
    have hleast : f.leastExponent ≤ f.unit num den := le_max_left ..
    generalize f.unit num den = u at *
    generalize roundQuotient _ _ = q at *
    rw [Nat.shiftLeft_eq, Nat.shiftLeft_eq, Nat.one_mul, Nat.one_mul] at h
    split_ifs at h with hcarry hover hover
    · cases h
      exact ⟨hhalf, by omega, not_lt.1 hover, .inr le_rfl⟩
    · cases h
      exact ⟨by omega, hleast, not_lt.1 hover, hfull⟩

/-- Of the finite numbers only those of the format are rounded to themselves. -/
theorem convert_finite_iff (hf : f.Proper) {s : Bool} {m : Nat} {e : Int} :
    (Floating.finite s m e).convert f = .finite s m e ↔ f.Holds (.finite s m e) := by
  refine ⟨fun h => holds_round hf ?_ h, convert_of_holds hf⟩
  rw [Nat.shiftLeft_eq]
  positivity

end FloatFormat

end AgentLoop
