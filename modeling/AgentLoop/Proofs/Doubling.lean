import AgentLoop.Proofs.Delays

/-!
# Doubling

The delay before a retry doubles from attempt to attempt until it is the maximum.  No more than thirty-one doublings are
counted, so the delay is the exact product wherever the maximum is reached by then, and stays below it where the
initial delay is so short, or the maximum so long, that it takes more of them.
-/

namespace AgentLoop.RetryPolicy

variable {p : RetryPolicy} {attempt : UInt32}

/-- The delay doubled once per attempt, however many these are, up to the maximum. -/
def exactDelay (p : RetryPolicy) (attempt : UInt32) : Span :=
  .min ⟨p.initial.nanoseconds * 2 ^ attempt.toNat⟩ p.max

/-- A product beyond the longest span is beyond the maximum, so the maximum stands for it rightly. -/
private theorem baseDelay_eq (hmax : p.max.nanoseconds ≤ Span.longest.nanoseconds) (attempt : UInt32) :
    p.baseDelay attempt = .min ⟨p.initial.nanoseconds * 2 ^ min attempt.toNat 31⟩ p.max := by
  unfold baseDelay
  rw [Nat.shiftLeft_eq]
  dsimp only
  split_ifs with hbeyond
  · exact congrArg Span.mk (Nat.min_eq_right (hmax.trans hbeyond.le)).symm
  · rfl

/-- A doubling more or less is not noticed if there is nothing to double, or if the maximum is reached before. -/
private theorem min_doubled_eq_iff {n limit j k : Nat} (hjk : j < k) :
    min (n * 2 ^ j) limit = min (n * 2 ^ k) limit ↔ n = 0 ∨ limit ≤ n * 2 ^ j := by
  have hgrows : n * 2 ^ j ≤ n * 2 ^ k := Nat.mul_le_mul_left n (Nat.pow_le_pow_right two_pos hjk.le)
  constructor
  · intro heq
    by_contra! hnoticed
    obtain ⟨hn, hlimit⟩ := hnoticed
    have hstrict : n * 2 ^ j < n * 2 ^ k :=
      Nat.mul_lt_mul_of_pos_left (Nat.pow_lt_pow_right one_lt_two hjk) (Nat.pos_of_ne_zero hn)
    omega
  · rintro (rfl | hreached)
    · rw [Nat.zero_mul, Nat.zero_mul]
    · rw [Nat.min_eq_right hreached, Nat.min_eq_right (hreached.trans hgrows)]

/-- What the delays of a policy are from attempt to attempt. -/
structure Doubles (p : RetryPolicy) : Prop where
  /-- Up to thirty-one doublings the delay is the exact one, and later it is as after thirty-one. -/
  capped : ∀ attempt, p.baseDelay attempt = .min ⟨p.initial.nanoseconds * 2 ^ min attempt.toNat 31⟩ p.max
  /-- The delay is the exact one unless a doubling that is not counted would still have been noticed. -/
  exact_iff : ∀ attempt, p.baseDelay attempt = p.exactDelay attempt ↔
    attempt.toNat ≤ 31 ∨ p.initial.nanoseconds = 0 ∨ p.max.nanoseconds ≤ p.initial.nanoseconds * 2 ^ 31
  le_exact : ∀ attempt, (p.baseDelay attempt).nanoseconds ≤ (p.exactDelay attempt).nanoseconds
  mono : ∀ attempt later, attempt ≤ later → (p.baseDelay attempt).nanoseconds ≤ (p.baseDelay later).nanoseconds
  le_max : ∀ attempt, (p.baseDelay attempt).nanoseconds ≤ p.max.nanoseconds

private theorem baseDelay_eq_exactDelay_iff (hmax : p.max.nanoseconds ≤ Span.longest.nanoseconds) :
    p.baseDelay attempt = p.exactDelay attempt ↔
      attempt.toNat ≤ 31 ∨ p.initial.nanoseconds = 0 ∨ p.max.nanoseconds ≤ p.initial.nanoseconds * 2 ^ 31 := by
  rw [baseDelay_eq hmax, exactDelay]
  rcases le_or_gt attempt.toNat 31 with hearly | hlate
  · rw [Nat.min_eq_left hearly]
    exact ⟨fun _ => .inl hearly, fun _ => rfl⟩
  · rw [Nat.min_eq_right hlate.le, or_iff_right (Nat.not_le.2 hlate), Span.min, Span.min, Span.mk.injEq]
    exact min_doubled_eq_iff hlate

private theorem baseDelay_le_of_le (hmax : p.max.nanoseconds ≤ Span.longest.nanoseconds) {k : Nat}
    (hcounted : min attempt.toNat 31 ≤ k) :
    (p.baseDelay attempt).nanoseconds ≤ min (p.initial.nanoseconds * 2 ^ k) p.max.nanoseconds := by
  rw [baseDelay_eq hmax]
  exact min_le_min_right _ (Nat.mul_le_mul_left _ (Nat.pow_le_pow_right two_pos hcounted))

/-- Every delay is the initial one doubled as often as there were attempts, thirty-one times at most, and at most the
maximum. -/
theorem doubles (hmax : p.max.nanoseconds ≤ Span.longest.nanoseconds) : p.Doubles where
  capped := baseDelay_eq hmax
  exact_iff _ := baseDelay_eq_exactDelay_iff hmax
  le_exact _ := baseDelay_le_of_le hmax (Nat.min_le_left ..)
  mono attempt later hle := by
    rw [baseDelay_eq hmax later]
    exact baseDelay_le_of_le hmax (min_le_min_right 31 hle)
  le_max := p.baseDelay_le

/-- One nanosecond, doubled for up to an hour. -/
def fromOne : RetryPolicy := ⟨40, ⟨1⟩, .ofSeconds 3600, .finite false 0 0⟩

theorem doubles_fromOne : fromOne.max.nanoseconds ≤ Span.longest.nanoseconds ∧ fromOne.Doubles :=
  ⟨by decide, doubles (by decide)⟩

/-- The thirty-second doubling is not made although the maximum is not reached. -/
theorem not_baseDelay_eq_exactDelay :
    ¬ ∀ (p : RetryPolicy) (attempt : UInt32), p.initial.nanoseconds ≤ Span.longest.nanoseconds →
      p.max.nanoseconds ≤ Span.longest.nanoseconds → p.baseDelay attempt = p.exactDelay attempt := by
  intro hexact
  have hdelay : fromOne.baseDelay 32 = ⟨2147483648⟩ := by decide
  have hproduct : fromOne.exactDelay 32 = ⟨4294967296⟩ := by decide
  have heq := hexact fromOne 32 (by decide) (by decide)
  rw [hdelay, hproduct] at heq
  exact absurd heq (by decide)

end AgentLoop.RetryPolicy
