/-!
# The ledger of a run

Counts the tool calls that the model requested, refused ones included, and names the tools that were executed, in
the order of their first use.  The count is exact; what a counter of 32 bits would have of it is the same number as
long as that is below `2 ^ 32`.
-/

namespace AgentLoop

structure Ledger where
  maxCalls : Nat
  calls : Nat := 0
  used : List String := []
  deriving DecidableEq, Repr

namespace Ledger

def record (l : Ledger) (n : Nat := 1) : Ledger := { l with calls := l.calls + n }

/-- Once the limit is reached the model is offered no more tools. -/
def limitReached (l : Ledger) : Bool := l.maxCalls ≤ l.calls

/-- The count as a counter of 32 bits has it, which starts over when it overflows. -/
def counter (l : Ledger) : UInt32 := .ofNat l.calls

def markUsed (l : Ledger) (tool : String) : Ledger :=
  if l.used.contains tool then l else { l with used := l.used ++ [tool] }

def markAll (l : Ledger) (tools : List String) : Ledger := tools.foldl markUsed l

/-- The number of a call that is counted after others. -/
theorem toNat_counter_add {l : Ledger} {n : Nat} (h : l.calls + n < UInt32.size) :
    (l.counter + .ofNat n).toNat = l.calls + n := by
  rw [counter, ← UInt32.ofNat_add]
  exact UInt32.toNat_ofNat_of_lt h

theorem toNat_counter {l : Ledger} (h : l.calls < UInt32.size) : l.counter.toNat = l.calls := UInt32.toNat_ofNat_of_lt h

theorem mem_used_markUsed (l : Ledger) (tool other : String) :
    other ∈ (l.markUsed tool).used ↔ other ∈ l.used ∨ other = tool := by
  unfold markUsed
  split
  · rename_i h
    have h : tool ∈ l.used := by simpa using h
    exact ⟨Or.inl, fun ho => ho.elim id fun he => he ▸ h⟩
  · simp

theorem nodup_used_markUsed {l : Ledger} (h : l.used.Nodup) (tool : String) : (l.markUsed tool).used.Nodup := by
  unfold markUsed
  split
  · exact h
  · rename_i hc
    have hc : tool ∉ l.used := by simpa using hc
    refine List.nodup_append.2 ⟨h, by simp, ?_⟩
    intro a ha b hb
    rcases List.mem_singleton.1 hb with rfl
    exact fun he => hc (he ▸ ha)

end Ledger

end AgentLoop
