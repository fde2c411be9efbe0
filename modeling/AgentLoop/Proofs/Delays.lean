import AgentLoop.Config.Basic
import AgentLoop.Proofs.Rounding

/-!
# Delays

There is a delay before every retry, however the retries are configured and whatever the random word is.  A number that
a power of two bounds is rounded to one that this power bounds, so that nothing overflows on the way: the factor that
spreads a delay is at most four, and a span that can be configured has at most `2 ^ 56` seconds.
-/

namespace AgentLoop

namespace RetryPolicy

open FloatFormat

variable {p : RetryPolicy} {q : Rat} {k : Nat}

private theorem nearest_mem (h0 : 0 ≤ q) (h : q ≤ 2 ^ k) (hk : k ≤ 1023) : 0 ≤ nearest q ∧ nearest q ≤ 2 ^ k := by
  have hrange : (k : Int) < double.greatestExponent + double.precision := by
    have hlimit : double.greatestExponent + double.precision = 1024 := rfl
    omega
  obtain ⟨m, e, hround, hvalue⟩ := roundRat_le proper_double h0 h hrange
  have hnearest : nearest q = m * 2 ^ e := by
    rw [nearest, hround, Floating.value_finite, if_neg Bool.false_ne_true, one_mul]
  rw [hnearest]
  exact ⟨by positivity, hvalue⟩

private theorem nearest_le (h : q ≤ 2 ^ k) (hk : k ≤ 1023) : nearest q ≤ 2 ^ k := by
  rcases le_or_gt 0 q with h0 | h0
  · exact (nearest_mem h0 h hk).2
  · have hnearest : nearest q = (double.round true q.num.natAbs q.den).value := by
      rw [nearest, roundRat, decide_eq_true h0]
    rw [hnearest]
    exact (value_round_nonpos ..).trans (by positivity)

/-! ### Spreading -/

theorem effectiveJitter_nonneg (p : RetryPolicy) : 0 ≤ p.effectiveJitter := by
  unfold effectiveJitter
  split
  · exact le_refl 0
  · split_ifs <;> decide
  · split_ifs with hnegative hlarge
    · exact le_refl 0
    · exact zero_le_one
    · exact not_lt.1 hnegative

theorem effectiveJitter_le_one (p : RetryPolicy) : p.effectiveJitter ≤ 1 := by
  unfold effectiveJitter
  split
  · exact zero_le_one
  · split_ifs <;> decide
  · split_ifs with hnegative hlarge
    · exact zero_le_one
    · exact le_refl 1
    · exact not_lt.1 hlarge

private theorem unitInterval_mem (draw : UInt64) : 0 ≤ unitInterval draw ∧ unitInterval draw ≤ 1 := by
  have hword : (draw >>> 12).toNat ≤ 2 ^ 52 := by
    have hlt := draw.toNat_lt
    simp only [UInt64.toNat_shiftRight, UInt64.reduceToNat, Nat.reduceMod, Nat.shiftRight_eq_div_pow]
    omega
  have hcast : ((draw >>> 12).toNat : Rat) ≤ (2 ^ 52 : Nat) := Nat.cast_le.2 hword
  have hunit : unitInterval draw = (draw >>> 12).toNat / (2 ^ 52 : Nat) := by
    rw [unitInterval, Rat.mkRat_eq_div, Int.cast_natCast, Nat.shiftLeft_eq, one_mul]
  rw [hunit]
  exact ⟨by positivity, div_le_one_of_le₀ hcast (Nat.cast_nonneg _)⟩

/-- The factor by which a random word spreads a delay. -/
def spread (p : RetryPolicy) (draw : UInt64) : Rat :=
  let j := p.effectiveJitter
  let scale := nearest (1 + nearest (nearest (unitInterval draw * nearest (j + j)) - j))
  if scale < 0 then 0 else scale

private theorem jitteredDelay?_eq (p : RetryPolicy) (attempt : UInt32) (draw : UInt64) :
    p.jitteredDelay? attempt draw =
      if p.effectiveJitter = 0 then some (p.baseDelay attempt)
      else ofSeconds? (nearest (p.spread draw * inSeconds (p.baseDelay attempt))) := rfl

/-- A delay is at most four times as long as it would be without spreading. -/
private theorem spread_mem (p : RetryPolicy) (draw : UInt64) : 0 ≤ p.spread draw ∧ p.spread draw ≤ 2 ^ 2 := by
  have hj0 := p.effectiveJitter_nonneg
  have hj1 := p.effectiveJitter_le_one
  obtain ⟨-, hu1⟩ := unitInterval_mem draw
  unfold spread
  dsimp only
  generalize p.effectiveJitter = j at hj0 hj1 ⊢
  generalize unitInterval draw = u at hu1 ⊢
  obtain ⟨hw0, hw1⟩ : 0 ≤ nearest (j + j) ∧ nearest (j + j) ≤ 2 ^ 1 :=
    nearest_mem (by linarith) (by linarith) (by decide)
  have hdrawn : nearest (u * nearest (j + j)) ≤ 2 ^ 1 :=
    nearest_le ((mul_le_of_le_one_left hw0 hu1).trans hw1) (by decide)
  have hfactor : nearest (nearest (u * nearest (j + j)) - j) ≤ 2 ^ 1 := nearest_le (by linarith) (by decide)
  have hscale : nearest (1 + nearest (nearest (u * nearest (j + j)) - j)) ≤ 2 ^ 2 := nearest_le (by linarith) (by decide)
  split_ifs with hnegative
  · exact ⟨le_refl 0, by positivity⟩
  · exact ⟨not_lt.1 hnegative, hscale⟩

/-! ### Delays -/

theorem baseDelay_le (p : RetryPolicy) (attempt : UInt32) : (p.baseDelay attempt).nanoseconds ≤ p.max.nanoseconds := by
  unfold baseDelay
  dsimp only
  split_ifs
  · exact Nat.le_refl _
  · exact Nat.min_le_right ..

/-- A span that is given in milliseconds of sixty-four bits. -/
private theorem inSeconds_mem {s : Span} (h : s.nanoseconds ≤ 2 ^ 64 * 1000000) :
    0 ≤ inSeconds s ∧ inSeconds s ≤ 2 ^ 56 := by
  have hwhole : ((s.nanoseconds / 1000000000 : Nat) : Rat) ≤ 2 ^ 55 := by
    have hnat : s.nanoseconds / 1000000000 ≤ 2 ^ 55 := by omega
    exact_mod_cast hnat
  have hrest : ((s.nanoseconds % 1000000000 : Nat) : Rat) / 1000000000 ≤ 2 ^ 0 := by
    have hnat : s.nanoseconds % 1000000000 ≤ 1000000000 := by omega
    have hcast : ((s.nanoseconds % 1000000000 : Nat) : Rat) ≤ 1000000000 := by exact_mod_cast hnat
    linarith
  obtain ⟨hw0, hw1⟩ := nearest_mem (Nat.cast_nonneg _) hwhole (by decide)
  obtain ⟨hr0, hr1⟩ := nearest_mem (by positivity) hrest (by decide)
  exact nearest_mem (add_nonneg hw0 hr0) (by linarith) (by decide)

end RetryPolicy

namespace RetryConfig

open RetryPolicy

/-- In double precision a spread delay has a number of seconds, far below the longest span. -/
theorem spread_delay (c : RetryConfig) (attempt : UInt32) (draw : UInt64) :
    ∃ m e, FloatFormat.double.roundRat (c.policy.spread draw * inSeconds (c.policy.baseDelay attempt)) =
      .finite false m e ∧ (m : Rat) * 2 ^ e ≤ 2 ^ 58 := by
  have hmax : c.policy.max.nanoseconds ≤ 2 ^ 64 * 1000000 := by
    have hlt := c.maxDelayMs.toNat_lt
    show c.maxDelayMs.toNat * 1000000 ≤ 2 ^ 64 * 1000000
    omega
  obtain ⟨hs0, hs1⟩ := c.policy.spread_mem draw
  obtain ⟨hb0, hb1⟩ := inSeconds_mem ((c.policy.baseDelay_le attempt).trans hmax)
  refine FloatFormat.roundRat_le FloatFormat.proper_double (mul_nonneg hs0 hb0) ?_ (by decide)
  calc c.policy.spread draw * inSeconds (c.policy.baseDelay attempt) ≤ 2 ^ 2 * 2 ^ 56 := by gcongr
    _ = 2 ^ 58 := by norm_num

/-- There is a delay before every retry. -/
theorem exists_delay (c : RetryConfig) (attempt : UInt32) (draw : UInt64) :
    ∃ delay, c.policy.jitteredDelay? attempt draw = some delay := by
  rw [jitteredDelay?_eq]
  split_ifs
  · exact ⟨_, rfl⟩
  · obtain ⟨m, e, hround, hvalue⟩ := c.spread_delay attempt draw
    have hsize : ¬ (UInt64.size : Rat) ≤ nearest (c.policy.spread draw * inSeconds (c.policy.baseDelay attempt)) := by
      rw [nearest, hround, Floating.value_finite, if_neg Bool.false_ne_true, one_mul, not_le]
      refine lt_of_le_of_lt hvalue ?_
      norm_num [UInt64.size]
    rw [ofSeconds?, if_neg hsize]
    exact ⟨_, rfl⟩

end RetryConfig

end AgentLoop
