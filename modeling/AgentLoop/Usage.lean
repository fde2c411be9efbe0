/-!
# Token usage

What a model call reports to have used.  Totals stop at the greatest word instead of wrapping.
-/

namespace AgentLoop

/-- The sum, or the greatest word where the sum does not fit. -/
def addCapped (a b : UInt32) : UInt32 := UInt32.ofNat (min (a.toNat + b.toNat) (UInt32.size - 1))

structure Usage where
  prompt : UInt32 := 0
  completion : UInt32 := 0
  total : UInt32 := 0
  deriving DecidableEq, Repr

namespace Usage

def accumulate (u v : Usage) : Usage :=
  ⟨addCapped u.prompt v.prompt, addCapped u.completion v.completion, addCapped u.total v.total⟩

end Usage

theorem toNat_addCapped (a b : UInt32) : (addCapped a b).toNat = min (a.toNat + b.toNat) (UInt32.size - 1) := by
  unfold addCapped
  rw [UInt32.toNat_ofNat']
  exact Nat.mod_eq_of_lt (Nat.lt_of_le_of_lt (Nat.min_le_right _ _) (by decide))

end AgentLoop
