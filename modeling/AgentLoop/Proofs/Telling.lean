import AgentLoop.Proofs.Steps

/-!
# Telling the hooks of a result

Once its result is fixed, an invocation has nothing left to do but to tell the hooks.  `Told` says that of a stage.
Whatever the hooks do, and however long they take, only one that breaks down when it is told breaks the invocation.
-/

namespace AgentLoop

open Process

namespace HookChain

/-- One of the hooks breaks down when it is told of this result. -/
def Balks (hooks : List Hook) (context : HookContext) (result : ExecutionResult) : Prop :=
  ∃ h ∈ hooks, ∃ answer message, h.afterComplete = some answer ∧ (answer context result).ending = .faults message

private theorem breaksOnly_forM {S : Signature} {cause : List (Exchange S) → String → Prop} {f : Hook → Process S Unit}
    {hooks : List Hook} {t : List (Exchange S)} (h : ∀ hook ∈ hooks, ∀ u, BreaksOnly cause u (f hook)) :
    BreaksOnly cause t (hooks.forM f) := by
  induction hooks generalizing t with
  | nil => trivial
  | cons hook rest ih =>
    have hrest : ∀ other ∈ rest, ∀ u, BreaksOnly cause u (f other) :=
      fun other hother => h other (List.mem_cons_of_mem _ hother)
    exact (h hook (List.mem_cons_self ..) t).bind fun u _ => ih hrest

private theorem breaksOnly_afterComplete (hooks : List Hook) (context : HookContext) (result : ExecutionResult) :
    BreaksOnly (fun _ _ => Balks hooks context result) [] (afterComplete RunProcess.note hooks context result) := by
  refine breaksOnly_forM fun h hh u => ?_
  split
  · trivial
  · -- taking notes never breaks down, so it is the hook itself
    rename_i answer hanswer
    have htold (v : RunTrace) : BreaksOnly (fun _ _ => Balks hooks context result) v (react (answer context result)) :=
      breaksOnly_react fun message he => ⟨h, hh, answer, message, hanswer, he⟩
    exact fun _ => (htold _).bind fun v _ _ => trivial

end HookChain

namespace Engine

variable {e : Engine} {command : Command} {report : Report} {stage : Stage}

/-! ### What is left of the telling -/

/-- What is left to do once the result is fixed is left of telling the hooks, and only a hook breaks it. -/
structure Told (e : Engine) (command : Command) (stage : Stage) : Prop where
  closing {report : Report} {limit : Nat} {p : Pending Unit} (h : stage = .closing report limit (some p)) :
    ∃ t, Leads (e.afterComplete command report.result) t p.rest
  broken {message : String} {ended : Nat} {report : Report} (h : stage = .broken message ended (some report)) :
    HookChain.Balks e.hooks (hookContext command) report.result

/-- Before the result is fixed there is nothing to tell. -/
theorem told_of_report? (h : stage.report? = none) : e.Told command stage := by
  constructor
  · rintro report limit p rfl
    cases h
  · rintro message ended report rfl
    cases h

theorem told_of_leads_fault {trace : RunTrace} {message : String} {ended : Nat}
    (h : Leads (e.afterComplete command report.result) trace (.fault message)) :
    e.Told command (.broken message ended (some report)) := by
  refine ⟨(nomatch ·), fun hs => ?_⟩
  cases hs
  exact (HookChain.breaksOnly_afterComplete e.hooks (hookContext command) _).of_leads h

end Engine

end AgentLoop
