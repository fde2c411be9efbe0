import AgentLoop.Proofs.Rounding
import AgentLoop.Tokens

/-!
# Estimates

The estimate of a text is the ceiling of a sum in double precision, in which the classes that are counted in thirds of a
token are never exact.  Five roundings together move the sum by less than a twelfth of a token, so that the ceiling is
that of the exact cost unless the exact cost is a whole number of tokens: there the estimate can be one token more.
-/

namespace AgentLoop

namespace Tokens

open FloatFormat

variable {s : String}

/-! ### The sum of the classes -/

/-- What a text costs before anything is rounded. -/
def cost (s : String) : Rat :=
  count .latin s / 4 + 2 * count .eastAsian s / 3 + count .pictograph s + count .other s / 3

/-- The same cost in twelfths of a token, of which every class has a whole number. -/
def twelfths (s : String) : Nat :=
  3 * count .latin s + 8 * count .eastAsian s + 12 * count .pictograph s + 4 * count .other s

/-- The exact cost, rounded up. -/
def exactEstimate (s : String) : Nat := ((twelfths s : Rat) / 12).ceil.toNat

private theorem cost_eq (s : String) : cost s = twelfths s / 12 := by
  unfold cost twelfths
  push_cast
  ring

private theorem ceil_toNat_eq {x : Rat} {t : Nat} (hlow : (t : Rat) - 1 < x) (hhigh : x ≤ t) : x.ceil.toNat = t := by
  have hle : x.ceil ≤ t := Rat.ceil_le_iff.2 (by exact_mod_cast hhigh)
  have hlt : (t : Int) - 1 < x.ceil := Rat.lt_ceil_iff.2 (by push_cast; exact hlow)
  omega

private theorem exactEstimate_eq (s : String) : exactEstimate s = (twelfths s + 11) / 12 := by
  have hlow : 12 * ((twelfths s + 11) / 12) < twelfths s + 12 := by omega
  have hhigh : twelfths s ≤ 12 * ((twelfths s + 11) / 12) := by omega
  rw [← Nat.cast_lt (α := Rat)] at hlow
  rw [← Nat.cast_le (α := Rat)] at hhigh
  push_cast at hlow hhigh
  exact ceil_toNat_eq (by linarith) (by linarith)

private theorem length_eq_counts (s : String) :
    s.length = count .latin s + count .eastAsian s + count .pictograph s + count .other s := by
  unfold count
  rw [← String.length_toList]
  induction s.toList with
  | nil => rfl
  | cons c cs ih =>
    rw [List.length_cons, ih]
    cases hclass : classOf c <;> simp [hclass] <;> omega

private theorem cost_le_length (s : String) : cost s ≤ s.length := by
  have h1 : (0 : Rat) ≤ count .latin s := Nat.cast_nonneg _
  have h2 : (0 : Rat) ≤ count .eastAsian s := Nat.cast_nonneg _
  have h4 : (0 : Rat) ≤ count .other s := Nat.cast_nonneg _
  rw [length_eq_counts]
  unfold cost
  push_cast
  linarith

/-! ### The sum of the rounded quotients -/

/-- The second number is as near to the first one as a part of it allows. -/
def Within (w a x : Rat) : Prop := |x - a| ≤ w * a

/-- Nothing at all, or at least as much as a character can make a difference. -/
def Discernible (a : Rat) : Prop := a = 0 ∨ 1 / 12 ≤ a

private theorem Within.mono {w w' a x : Rat} (h : Within w a x) (hle : w ≤ w') (ha : 0 ≤ a) : Within w' a x :=
  h.trans (mul_le_mul_of_nonneg_right hle ha)

private theorem Discernible.nonneg {a : Rat} (h : Discernible a) : 0 ≤ a := by
  rcases h with rfl | h
  · exact le_refl 0
  · linarith

private theorem Discernible.add {a b : Rat} (ha : Discernible a) (hb : Discernible b) : Discernible (a + b) := by
  have hb0 := hb.nonneg
  rcases ha with rfl | ha
  · rwa [zero_add]
  · exact .inr (by linarith)

private theorem discernible_div (num den : Nat) (hd : 0 < den) (hle : den ≤ 12) : Discernible (num / den) := by
  have hden : (0 : Rat) < den := Nat.cast_pos.2 hd
  have hden' : (den : Rat) ≤ 12 := by exact_mod_cast hle
  rcases Nat.eq_zero_or_pos num with rfl | hnum
  · exact .inl (by simp)
  · have hone : (1 : Rat) ≤ num := Nat.one_le_cast.2 hnum
    refine .inr ?_
    rw [div_le_div_iff₀ (by norm_num) hden]
    linarith

/-- Far above the least numbers of double precision. -/
private theorem normal_double {q : Rat} (h : 1 / 24 ≤ q) :
    (2 : Rat) ^ (double.leastExponent + double.precision) ≤ q := by
  calc (2 : Rat) ^ (double.leastExponent + double.precision) ≤ 2 ^ (-5 : Int) :=
        zpow_le_zpow_right₀ one_le_two (by decide)
    _ ≤ 1 / 24 := by norm_num
    _ ≤ q := h

private theorem within_quotient (num den : Nat) (hd : 0 < den) (hden : den ≤ 12) (hnum : num ≤ 2 ^ 65) :
    Within (1 / 2 ^ 53) (num / den) (quotient num den) := by
  have hne : (den : Rat) ≠ 0 := Nat.cast_ne_zero.2 hd.ne'
  unfold Within quotient
  rcases discernible_div num den hd hden with hzero | hlow
  · have hnone : num = 0 * den := by
      rw [Nat.zero_mul]
      exact_mod_cast (div_eq_zero_iff.1 hzero).resolve_right hne
    rw [hnone, value_round_mul proper_double hd (Nat.zero_le (2 ^ 0)) (by decide)]
    simp
  · have hn : num ≠ 0 := by
      rintro rfl
      norm_num at hlow
    have hle : num ≤ 2 ^ 65 * den := hnum.trans (Nat.le_mul_of_pos_right _ hd)
    rw [one_div_mul_eq_div]
    exact abs_value_round_sub_le proper_double hn hd hle (by decide) (normal_double (by linarith))

/-- A sum of two approximations is rounded once more. -/
private theorem within_sum {w a b x y : Rat} (hx : Within w a x) (hy : Within w b y) (hw : w ≤ 1 / 2)
    (ha : Discernible a)
    (hb : Discernible b) (hab : a + b ≤ 2 ^ 64) : Within (w + (1 + w) / 2 ^ 53) (a + b) (sum x y) := by
  have hxy : |x + y - (a + b)| ≤ w * (a + b) := by
    calc |x + y - (a + b)| = |(x - a) + (y - b)| := by congr 1; ring
      _ ≤ |x - a| + |y - b| := abs_add_le _ _
      _ ≤ w * a + w * b := add_le_add hx hy
      _ = w * (a + b) := by ring
  have hab0 := (ha.add hb).nonneg
  obtain ⟨hlow, hhigh⟩ := abs_le.1 hxy
  unfold Within sum
  rcases ha.add hb with hzero | hsome
  · have hnone : x + y = (0 : Nat) := by
      rw [hzero, mul_zero] at hlow hhigh
      push_cast
      linarith
    rw [hnone, value_roundRat_natCast proper_double (Nat.zero_le (2 ^ 0)) (by decide), hzero]
    simp
  · have hscaled : w * (a + b) ≤ 1 / 2 * (a + b) := mul_le_mul_of_nonneg_right hw hab0
    have hpos : 0 < x + y := by linarith
    have hbound : x + y ≤ 2 ^ 65 := by
      norm_num at hab ⊢
      linarith
    have hround := abs_value_roundRat_sub_le proper_double hpos hbound (by decide) (normal_double (by linarith))
    calc |(double.roundRat (x + y)).value - (a + b)|
        = |((double.roundRat (x + y)).value - (x + y)) + (x + y - (a + b))| := by congr 1; ring
      _ ≤ |(double.roundRat (x + y)).value - (x + y)| + |x + y - (a + b)| := abs_add_le _ _
      _ ≤ (x + y) / 2 ^ 53 + w * (a + b) := add_le_add hround hxy
      _ ≤ (1 + w) * (a + b) / 2 ^ 53 + w * (a + b) := by gcongr; linarith
      _ = (w + (1 + w) / 2 ^ 53) * (a + b) := by ring

/-- The sum of the four classes in double precision. -/
def roundedCost (s : String) : Rat :=
  sum (sum (sum (quotient (count .latin s) 4) (quotient (2 * count .eastAsian s) 3))
    (quotient (count .pictograph s) 1)) (quotient (count .other s) 3)

private theorem estimate_eq (s : String) : estimate s = (roundedCost s).ceil.toNat := rfl

/-- Seven roundings of which the first four concern parts of the text only weigh no more than five of the whole. -/
private theorem within_roundedCost (h : s.length < 2 ^ 64) : Within (5 / 2 ^ 53) (cost s) (roundedCost s) := by
  have hlength := length_eq_counts s
  have hall : cost s ≤ 2 ^ 64 := (cost_le_length s).trans (by exact_mod_cast h.le)
  have hL := within_quotient (count .latin s) 4 (by decide) (by decide) (by omega)
  have hC := within_quotient (2 * count .eastAsian s) 3 (by decide) (by decide) (by omega)
  have hE := within_quotient (count .pictograph s) 1 (by decide) (by decide) (by omega)
  have hO := within_quotient (count .other s) 3 (by decide) (by decide) (by omega)
  have cL := discernible_div (count .latin s) 4 (by decide) (by decide)
  have cC := discernible_div (2 * count .eastAsian s) 3 (by decide) (by decide)
  have cE := discernible_div (count .pictograph s) 1 (by decide) (by decide)
  have cO := discernible_div (count .other s) 3 (by decide) (by decide)
  have hcost : cost s = ((count .latin s : Rat) / (4 : Nat) + ((2 * count .eastAsian s : Nat) : Rat) / (3 : Nat) +
      (count .pictograph s : Rat) / (1 : Nat)) + (count .other s : Rat) / (3 : Nat) := by
    unfold cost
    push_cast
    ring
  rw [hcost] at hall ⊢
  unfold roundedCost
  generalize ((count .latin s : Nat) : Rat) / (4 : Nat) = a at *
  generalize ((2 * count .eastAsian s : Nat) : Rat) / (3 : Nat) = b at *
  generalize ((count .pictograph s : Nat) : Rat) / (1 : Nat) = c at *
  generalize ((count .other s : Nat) : Rat) / (3 : Nat) = d at *
  have ha := cL.nonneg
  have hb := cC.nonneg
  have hc := cE.nonneg
  have hd := cO.nonneg
  have h1 := within_sum hL hC (by norm_num) cL cC (by linarith)
  have h2 := within_sum h1 (hE.mono (by norm_num) hc) (by norm_num) (cL.add cC) cE (by linarith)
  have h3 := within_sum h2 (hO.mono (by norm_num) hd) (by norm_num) ((cL.add cC).add cE) cO (by linarith)
  exact h3.mono (by norm_num) (((cL.add cC).add cE).add cO).nonneg

/-! ### The estimate -/

private theorem quotient_mul {den : Nat} (hd : 0 < den) {c : Nat} (hc : c ≤ 2 ^ 52) : quotient (c * den) den = c :=
  value_round_mul proper_double hd hc (by decide)

private theorem sum_natCast {a b : Nat} (h : a + b ≤ 2 ^ 52) : sum a b = (a + b : Nat) := by
  rw [sum, ← Nat.cast_add]
  exact value_roundRat_natCast proper_double h (by decide)

/-- Where every class costs whole tokens nothing is rounded. -/
private theorem roundedCost_of_whole (h : s.length ≤ 2 ^ 47) (hlatin : 4 ∣ count .latin s)
    (heastAsian : 3 ∣ count .eastAsian s) (hother : 3 ∣ count .other s) : roundedCost s = cost s := by
  have hlength := length_eq_counts s
  obtain ⟨a, ha⟩ := hlatin
  obtain ⟨b, hb⟩ := heastAsian
  obtain ⟨d, hd⟩ := hother
  have hL : quotient (count .latin s) 4 = a := by
    rw [ha, Nat.mul_comm]
    exact quotient_mul (by decide) (by omega)
  have hC : quotient (2 * count .eastAsian s) 3 = (2 * b : Nat) := by
    rw [hb, Nat.mul_left_comm, Nat.mul_comm]
    exact quotient_mul (by decide) (by omega)
  have hE : quotient (count .pictograph s) 1 = count .pictograph s := by
    conv_lhs => rw [← Nat.mul_one (count .pictograph s)]
    exact quotient_mul (by decide) (by omega)
  have hO : quotient (count .other s) 3 = d := by
    rw [hd, Nat.mul_comm]
    exact quotient_mul (by decide) (by omega)
  unfold roundedCost cost
  rw [hL, hC, hE, hO, sum_natCast (by omega), sum_natCast (by omega), sum_natCast (by omega), ha, hb, hd]
  push_cast
  ring

/-- The classes that are counted in thirds of a token leave a rest each, but together the text costs whole tokens. -/
def RestsMeet (s : String) : Prop :=
  4 ∣ count .latin s ∧ count .eastAsian s % 3 = count .other s % 3 ∧ count .other s % 3 ≠ 0

private theorem estimate_eq_or (h : s.length ≤ 2 ^ 47) :
    estimate s = exactEstimate s ∨ estimate s = exactEstimate s + 1 ∧ RestsMeet s := by
  have hnear : |roundedCost s - cost s| < 1 / 12 := by
    have hcost : cost s ≤ 2 ^ 47 := (cost_le_length s).trans (by exact_mod_cast h)
    calc |roundedCost s - cost s| ≤ 5 / 2 ^ 53 * cost s := within_roundedCost (by omega)
      _ ≤ 5 / 2 ^ 53 * 2 ^ 47 := by gcongr
      _ < 1 / 12 := by norm_num
  rw [cost_eq] at hnear
  obtain ⟨hlow, hhigh⟩ := abs_lt.1 hnear
  rw [estimate_eq, exactEstimate_eq]
  generalize ht : (twelfths s + 11) / 12 = t
  have hup : ((12 * t : Nat) : Rat) ≤ (twelfths s + 11 : Nat) := Nat.cast_le.2 (by omega)
  push_cast at hup
  by_cases hle : roundedCost s ≤ t
  · left
    exact ceil_toNat_eq (by linarith) hle
  · right
    -- the errors lead beyond the next whole number only from that number itself
    have hwhole : twelfths s = 12 * t := by
      have hgt : ((12 * t : Nat) : Rat) < (twelfths s + 1 : Nat) := by
        push_cast
        linarith
      have hlt := Nat.cast_lt.1 hgt
      omega
    have hsucc : (roundedCost s).ceil.toNat = t + 1 := by
      have hcast : (twelfths s : Rat) = 12 * t := by exact_mod_cast hwhole
      apply ceil_toNat_eq
      · push_cast
        linarith
      · push_cast
        linarith
    refine ⟨hsucc, ?_⟩
    have hcounts := hwhole
    unfold twelfths at hcounts
    refine ⟨by omega, by omega, fun hrest => hle ?_⟩
    rw [roundedCost_of_whole h (by omega) (by omega) (by omega), cost_eq, hwhole]
    push_cast
    linarith

/-- What the estimate of a text is. -/
structure Estimated (s : String) : Prop where
  /-- It is the ceiling of a number that is as near to the exact cost as five roundings leave it. -/
  near : ∃ x : Rat, |x - cost s| ≤ 5 / 2 ^ 53 * cost s ∧ estimate s = x.ceil.toNat
  /-- It is the exact cost, rounded up, whatever the classes are, unless their rests meet; then it may be one more.  It is
  never less.  (Five roundings of longer texts can add up to a twelfth of a token.) -/
  exact_or : s.length ≤ 2 ^ 47 → estimate s = exactEstimate s ∨ estimate s = exactEstimate s + 1 ∧ RestsMeet s
  exact_eq : exactEstimate s =
    (3 * count .latin s + 8 * count .eastAsian s + 12 * count .pictograph s + 4 * count .other s + 11) / 12

/-- The estimate of a text, which may have as many characters as a word of sixty-four bits can count. -/
theorem estimated (h : s.length < 2 ^ 64) : Estimated s where
  near := ⟨roundedCost s, within_roundedCost h, rfl⟩
  exact_or := estimate_eq_or
  exact_eq := exactEstimate_eq s

/-- Five characters of East Asian scripts, a pictograph, and two letters of another script: five tokens. -/
def thirds : String := "東京大阪市🚀да"

theorem estimated_thirds : thirds.length < 2 ^ 64 ∧ Estimated thirds :=
  ⟨by decide +kernel, estimated (by decide +kernel)⟩

/-- The two thirds that each of the classes leaves are rounded to numbers that make more than one token. -/
theorem not_estimate_eq_exactEstimate : ¬ ∀ s, estimate s = exactEstimate s := by
  intro hexact
  have hestimate : estimate thirds = 6 := by decide +kernel
  have hcost : exactEstimate thirds = 5 := by decide +kernel
  have heq := hexact thirds
  rw [hestimate, hcost] at heq
  exact absurd heq (by decide)

end Tokens

end AgentLoop
