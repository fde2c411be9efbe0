import AgentLoop.Proofs.SideBySide

/-!
# What a call passes before it is executed

A call has to be within the limit, its arguments have to be readable, the hooks have to let it through one after the
other, and there has to be a tool of its name; only then is a body entered, with the arguments of the call or those
that a hook has put in their place.  A call that is refused leaves behind only the consultations of the hooks that were
asked, and a failed result under its own id.
-/

namespace AgentLoop

open Process

/-! ### Hooks -/

namespace Hook

variable (h : Hook) (context : HookContext) (nth : Nat) (call : ToolCall)

/-- What comes of consulting a hook on a call.  One that takes no part there lets every call proceed. -/
def verdict : Ending (Except HookError Verdict) :=
  match h.beforeToolCall with
  | none => .returns (.ok .proceed)
  | some answer => (answer context nth call).ending

/-- The hook lets the call proceed as it is. -/
def Clears : Prop := h.verdict context nth call = .returns (.ok .proceed)

/-- What consulting the hook leaves behind. -/
def consultation? : Option Beat := h.beforeToolCall.map fun _ => .entry (.beforeToolCall h.name context call)

/-- Consults the hook. -/
def consult : Task (Except HookError Verdict) :=
  match h.beforeToolCall with
  | none => pure (.ok .proceed)
  | some answer => do
    Task.note (.beforeToolCall h.name context call)
    Process.react (answer context nth call)

/-- An answer that turns a call of a tool down, with what the model is told. -/
inductive TurnsDown (tool : String) : Except HookError Verdict → String → Prop where
  | rejects (reason : String) : TurnsDown tool (.ok (.reject reason)) (ToolError.permissionDenied tool reason).message
  | holds (reason : String) :
    TurnsDown tool (.ok (.pending reason)) (ToolError.permissionDenied tool ("pending approval: " ++ reason)).message
  | fails (failure : HookError) : TurnsDown tool (.error failure) (Workshop.blockedText tool failure)

end Hook

/-- The beat is the consultation of a hook. -/
def Beat.isConsultation : Beat → Bool
  | .entry (.beforeToolCall ..) => true
  | _ => false

namespace HookChain

variable {context : HookContext} {nth : Nat} {call : ToolCall} {hooks asked : List Hook}
  {answer : Except HookError Verdict}

/-- What consulting these hooks leaves behind. -/
def consultations (context : HookContext) (call : ToolCall) (asked : List Hook) : List Beat :=
  asked.filterMap (·.consultation? context call)

/-- Of these hooks the first ones are consulted on a call, and this is what they come to: whoever is the first that does
not let it proceed has the last word, and if there is none it proceeds. -/
inductive Decides (context : HookContext) (nth : Nat) (call : ToolCall) :
    List Hook → List Hook → Except HookError Verdict → Prop where
  | all {hooks : List Hook} (h : ∀ g ∈ hooks, g.Clears context nth call) : Decides context nth call hooks hooks (.ok .proceed)
  | first {before after : List Hook} {h : Hook} {answer : Except HookError Verdict}
    (hb : ∀ g ∈ before, g.Clears context nth call) (hv : h.verdict context nth call = .returns answer)
    (hne : answer ≠ .ok .proceed) : Decides context nth call (before ++ h :: after) (before ++ [h]) answer

/-- The last of the hooks that are consulted never answers. -/
inductive Stalls (context : HookContext) (nth : Nat) (call : ToolCall) : List Hook → List Hook → Prop where
  | first {before after : List Hook} {h : Hook} (hb : ∀ g ∈ before, g.Clears context nth call)
    (hv : ∀ answer, h.verdict context nth call ≠ .returns answer) :
    Stalls context nth call (before ++ h :: after) (before ++ [h])

private theorem Decides.cons {h : Hook} (hc : h.Clears context nth call)
    (hd : Decides context nth call hooks asked answer) :
    Decides context nth call (h :: hooks) (h :: asked) answer := by
  have hclear {before : List Hook} (hb : ∀ g ∈ before, g.Clears context nth call) :
      ∀ g ∈ h :: before, g.Clears context nth call := by
    intro g hg
    rcases List.mem_cons.1 hg with rfl | hg
    · exact hc
    · exact hb g hg
  cases hd with
  | all hb => exact .all (hclear hb)
  | first hb hv hne => exact .first (hclear hb) hv hne

private theorem Decides.head {h : Hook} {rest : List Hook} (hv : h.verdict context nth call = .returns answer)
    (hne : answer ≠ .ok .proceed) : Decides context nth call (h :: rest) [h] answer := by
  have hfirst : Decides context nth call ([] ++ h :: rest) ([] ++ [h]) answer := .first (by simp) hv hne
  exact hfirst

private theorem Stalls.cons {h : Hook} (hc : h.Clears context nth call) (hs : Stalls context nth call hooks asked) :
    Stalls context nth call (h :: hooks) (h :: asked) := by
  cases hs with
  | @first before after g hb hv =>
    have hclear : ∀ g ∈ h :: before, g.Clears context nth call := by
      intro g hg
      rcases List.mem_cons.1 hg with rfl | hg
      · exact hc
      · exact hb g hg
    exact .first hclear hv

private theorem Stalls.head {h : Hook} {rest : List Hook}
    (hv : ∀ answer, h.verdict context nth call ≠ .returns answer) :
    Stalls context nth call (h :: rest) [h] := by
  have hfirst : Stalls context nth call ([] ++ h :: rest) ([] ++ [h]) := .first (by simp) hv
  exact hfirst

/-- The hooks come to something, or one of them never answers. -/
private theorem decides_or_stalls (context : HookContext) (nth : Nat) (call : ToolCall) (hooks : List Hook) :
    (∃ asked answer, Decides context nth call hooks asked answer) ∨ ∃ asked, Stalls context nth call hooks asked := by
  induction hooks with
  | nil => exact .inl ⟨[], _, .all (by simp)⟩
  | cons h hooks ih =>
    cases hv : h.verdict context nth call with
    | faults | hangs => exact .inr ⟨_, .head (by simp [hv])⟩
    | returns answer =>
      by_cases hc : h.Clears context nth call
      · rcases ih with ⟨asked, answer, hd⟩ | ⟨asked, hs⟩
        · exact .inl ⟨_, _, hd.cons hc⟩
        · exact .inr ⟨_, hs.cons hc⟩
      · have hne : answer ≠ .ok .proceed := by
          rintro rfl
          exact hc hv
        exact .inl ⟨_, _, .head hv hne⟩

theorem consultations_cons (h : Hook) (asked : List Hook) :
    consultations context call (h :: asked) = (h.consultation? context call).toList ++ consultations context call asked := by
  unfold consultations
  rw [List.filterMap_cons]
  cases h.consultation? context call <;> rfl

theorem isConsultation_of_mem {beat : Beat} (h : beat ∈ consultations context call asked) : beat.isConsultation = true := by
  obtain ⟨g, -, hg⟩ := List.mem_filterMap.1 h
  obtain ⟨answer, -, rfl⟩ := Option.map_eq_some_iff.1 hg
  rfl

/-! ### Consulting them -/

theorem beforeToolCall_cons (h : Hook) (rest : List Hook) (context : HookContext) (nth : Nat) (call : ToolCall) :
    beforeToolCall Task.note (h :: rest) context nth call = h.consult context nth call >>= fun
      | .ok .proceed => beforeToolCall Task.note rest context nth call
      | answer => pure answer := by
  unfold beforeToolCall Hook.consult
  cases hb : h.beforeToolCall with
  | none =>
    rw [List.filterMap_cons_none (by rw [hb]; rfl)]
    rfl
  | some answer =>
    rw [List.filterMap_cons_some (by rw [hb]; rfl)]
    rfl

/-- A hook that answers leaves its consultation behind. -/
private theorem leads_consult {h : Hook} {t : List (Exchange (.notes Beat))}
    (hl : Leads (h.consult context nth call) t (done answer)) :
    t = Crew.traceOf (h.consultation? context call).toList ∧ h.verdict context nth call = .returns answer := by
  unfold Hook.consult at hl
  unfold Hook.consultation? Hook.verdict
  cases hb : h.beforeToolCall with
  | none =>
    rw [hb] at hl
    cases hl
    exact ⟨rfl, rfl⟩
  | some reply =>
    rw [hb] at hl
    cases hl with
    | act hl =>
      cases hl with
      | wait hl =>
        cases he : (reply context nth call).ending with
        | returns value =>
          rw [he] at hl
          cases hl
          exact ⟨rfl, he⟩
        | faults message =>
          rw [he] at hl
          cases hl
        | hangs =>
          rw [he] at hl
          cases hl

private theorem consult_leads {h : Hook} (hv : h.verdict context nth call = .returns answer) :
    Leads (h.consult context nth call) (Crew.traceOf (h.consultation? context call).toList) (done answer) := by
  unfold Hook.verdict at hv
  unfold Hook.consult Hook.consultation?
  cases hb : h.beforeToolCall with
  | none =>
    rw [hb] at hv
    cases hv
    exact .here _
  | some reply =>
    rw [hb] at hv
    have hv : (reply context nth call).ending = .returns answer := hv
    refine .act (.wait ?_)
    rw [hv]
    exact .here _

/-- Hooks that have come to something have been consulted up to whoever decided. -/
private theorem leads_beforeToolCall {t : List (Exchange (.notes Beat))}
    (hl : Leads (beforeToolCall Task.note hooks context nth call) t (done answer)) :
    ∃ asked, Decides context nth call hooks asked answer ∧ t = Crew.traceOf (consultations context call asked) := by
  induction hooks generalizing t with
  | nil =>
    cases hl
    exact ⟨[], .all (by simp), rfl⟩
  | cons h rest ih =>
    rw [beforeToolCall_cons] at hl
    obtain ⟨first, u, v, rfl, hu, hv⟩ := leads_bind_done hl
    obtain ⟨rfl, hverdict⟩ := leads_consult hu
    have goes (hfirst : first = .ok .proceed) : ∃ asked, Decides context nth call (h :: rest) asked answer ∧
        Crew.traceOf (h.consultation? context call).toList ++ v =
          Crew.traceOf (consultations context call asked) := by
      subst hfirst
      obtain ⟨asked, hd, rfl⟩ := ih hv
      refine ⟨h :: asked, hd.cons hverdict, ?_⟩
      rw [consultations_cons, Crew.traceOf, Crew.traceOf, Crew.traceOf, List.map_append]
    have stops (hfirst : first ≠ .ok .proceed) (hrest : Leads (pure first) v (done answer)) :
        ∃ asked, Decides context nth call (h :: rest) asked answer ∧
          Crew.traceOf (h.consultation? context call).toList ++ v =
            Crew.traceOf (consultations context call asked) := by
      cases hrest
      have hnone : consultations context call [] = [] := rfl
      refine ⟨[h], .head hverdict hfirst, ?_⟩
      rw [consultations_cons, hnone, List.append_nil, List.append_nil]
    cases first with
    | error _ => exact stops (by simp) hv
    | ok verdict =>
      cases verdict with
      | proceed => exact goes rfl
      | _ => exact stops (by simp) hv

private theorem Decides.leads (hd : Decides context nth call hooks asked answer) :
    Leads (beforeToolCall Task.note hooks context nth call) (Crew.traceOf (consultations context call asked))
      (done answer) := by
  have clears {before rest : List Hook} {t : List (Exchange (.notes Beat))} (hb : ∀ g ∈ before, g.Clears context nth call)
      (hr : Leads (beforeToolCall Task.note rest context nth call) t (done answer)) :
      Leads (beforeToolCall Task.note (before ++ rest) context nth call)
        (Crew.traceOf (consultations context call before) ++ t) (done answer) := by
    induction before with
    | nil => exact hr
    | cons g before ih =>
      rw [List.cons_append, beforeToolCall_cons, consultations_cons, Crew.traceOf, List.map_append, List.append_assoc]
      exact (consult_leads (hb g (List.mem_cons_self ..))).bind_done (ih fun g' hg => hb g' (List.mem_cons_of_mem _ hg))
  cases hd with
  | all hb =>
    have hnone : Leads (beforeToolCall Task.note [] context nth call) [] (done (.ok .proceed)) := .here _
    simpa using clears hb hnone
  | @first before after h answer hb hv hne =>
    have hdecided : Leads (beforeToolCall Task.note (h :: after) context nth call)
        (Crew.traceOf (h.consultation? context call).toList) (done answer) := by
      rw [beforeToolCall_cons]
      rw [← List.append_nil (Crew.traceOf _)]
      refine (consult_leads hv).bind_done ?_
      cases answer with
      | error _ => exact .here _
      | ok verdict =>
        cases verdict with
        | proceed => exact absurd rfl hne
        | _ => exact .here _
    have hall := clears hb hdecided
    have hasked : consultations context call (before ++ [h]) =
        consultations context call before ++ (h.consultation? context call).toList := by
      unfold consultations
      rw [List.filterMap_append]
      cases hc : h.consultation? context call <;> simp [hc]
    rwa [hasked, Crew.traceOf, List.map_append]

/-- As long as hooks are consulted there is nothing but consultations. -/
private theorem consults_beforeToolCall (hooks : List Hook) (context : HookContext) (nth : Nat) (call : ToolCall)
    {t : List (Exchange (.notes Beat))} {rest : Task (Except HookError Verdict)}
    (hl : Leads (beforeToolCall Task.note hooks context nth call) t rest) : ∀ x ∈ t, x.1.isConsultation = true := by
  have hkeeps : Keeps (.ofAllows fun _ (beat : Beat) => beat.isConsultation = true) (fun _ _ => True) []
      (beforeToolCall Task.note hooks context nth call) := by
    refine keeps_firstVerdict (fun _ => True) (fun ask hask u _ => ?_) (fun _ _ _ => trivial) trivial
    obtain ⟨h, -, hask⟩ := List.mem_filterMap.1 hask
    obtain ⟨reply, -, rfl⟩ := Option.map_eq_some_iff.1 hask
    exact keeps_bind.2 ⟨rfl, fun _ _ => keeps_react.2 ⟨fun _ => trivial, fun _ _ => trivial⟩⟩
  intro x hx
  obtain ⟨u, v, rfl⟩ := List.append_of_mem hx
  exact hkeeps.allows_of_leads hl fun _ _ => trivial

end HookChain

/-! ### Calls -/

namespace Workshop

/-- Arguments as a call has them, and as they are read: blank ones as an empty object. -/
inductive Reads : String → Json → Prop where
  | blank {text : String} (h : Text.isBlankText text = true) : Reads text Json.emptyObject
  | valid {text : String} {json : Json} (h : Text.isBlankText text = false) (hj : Json.read text = some json) :
    Reads text json.canonical

private theorem readArguments_eq_some_iff {text : String} {given : Json} :
    readArguments text = some given ↔ Reads text given := by
  unfold readArguments
  constructor
  · intro h
    split at h
    · rename_i hb
      obtain rfl := Option.some.inj h
      exact .blank hb
    · rename_i hb
      obtain ⟨json, hj, rfl⟩ := Option.map_eq_some_iff.1 h
      exact .valid (Bool.not_eq_true _ ▸ hb) hj
  · rintro (hb | ⟨hb, hj⟩)
    · rw [if_pos hb]
    · rw [if_neg (by simp [hb]), hj]
      rfl

/-- A request with its arguments read. -/
def callOf (request : CallRequest) (given : Json) : ToolCall := ⟨request.id, request.name, given⟩

/-- Some hooks are asked and let a call through, with these arguments. -/
inductive Lets (w : Workshop) (nth : Nat) (call : ToolCall) : List Hook → Json → Prop where
  | unchanged {asked : List Hook} (h : HookChain.Decides w.context nth call w.hooks asked (.ok .proceed)) :
    Lets w nth call asked call.arguments
  | modified {asked : List Hook} {replacement : Json}
    (h : HookChain.Decides w.context nth call w.hooks asked (.ok (.modify replacement))) : Lets w nth call asked replacement

/-- The request passes all gates: its arguments are read, these hooks are asked, and a body is to be entered with these
arguments. -/
structure Admits (w : Workshop) (maxCalls nth : Nat) (request : CallRequest) (given : Json) (asked : List Hook)
    (arguments : Json) : Prop where
  counted : nth ≤ maxCalls
  reads : Reads request.arguments given
  lets : w.Lets nth (callOf request given) asked arguments
  known : ∃ tool, w.tools.get? request.name = some tool

/-- The request does not pass: this is left behind, and this is what the model is told. -/
inductive Refuses (w : Workshop) (maxCalls nth : Nat) (request : CallRequest) : List Beat → String → Prop where
  | limit (h : maxCalls < nth) : Refuses w maxCalls nth request [] (limitText maxCalls request.name)
  | malformed (hn : nth ≤ maxCalls) (hr : ∀ given, ¬ Reads request.arguments given) :
    Refuses w maxCalls nth request [] (w.malformed request).message
  | hook {given : Json} {asked : List Hook} {answer : Except HookError Verdict} {output : String} (hn : nth ≤ maxCalls)
    (hr : Reads request.arguments given)
    (hd : HookChain.Decides w.context nth (callOf request given) w.hooks asked answer)
    (ht : Hook.TurnsDown request.name answer output) :
    Refuses w maxCalls nth request (HookChain.consultations w.context (callOf request given) asked) output
  | unknown {given arguments : Json} {asked : List Hook} (hn : nth ≤ maxCalls) (hr : Reads request.arguments given)
    (hl : w.Lets nth (callOf request given) asked arguments) (hu : w.tools.get? request.name = none) :
    Refuses w maxCalls nth request (HookChain.consultations w.context (callOf request given) asked)
      (ToolError.notFound request.name).message

variable {w : Workshop} {maxCalls nth : Nat} {request : CallRequest} {given arguments : Json} {asked : List Hook}
  {beats : List Beat} {output : String} {t : List (Exchange (.notes Beat))} {rest : Task ToolResult}

/-- Every request passes all gates, or is refused, or some hook never answers. -/
theorem admits_or_refuses (w : Workshop) (maxCalls nth : Nat) (request : CallRequest) :
    (∃ given asked arguments, w.Admits maxCalls nth request given asked arguments) ∨
      (∃ beats output, w.Refuses maxCalls nth request beats output) ∨
      ∃ given asked, Reads request.arguments given ∧
        HookChain.Stalls w.context nth (callOf request given) w.hooks asked := by
  by_cases hn : maxCalls < nth
  · exact .inr (.inl ⟨_, _, .limit hn⟩)
  · have hn := Nat.not_lt.1 hn
    by_cases hr : ∃ given, Reads request.arguments given
    · obtain ⟨given, hr⟩ := hr
      -- a request that the hooks let through may still ask for a tool that nobody knows
      have letThrough {asked : List Hook} {arguments : Json} (hl : w.Lets nth (callOf request given) asked arguments) :
          (∃ given asked arguments, w.Admits maxCalls nth request given asked arguments) ∨
            ∃ beats output, w.Refuses maxCalls nth request beats output := by
        cases hu : w.tools.get? request.name with
        | none => exact .inr ⟨_, _, .unknown hn hr hl hu⟩
        | some tool => exact .inl ⟨_, _, _, hn, hr, hl, tool, hu⟩
      rcases HookChain.decides_or_stalls w.context nth (callOf request given) w.hooks with
        ⟨asked, answer, hd⟩ | ⟨asked, hs⟩
      · match answer, hd with
        | .ok .proceed, hd => exact (letThrough (.unchanged hd)).imp_right .inl
        | .ok (.modify _), hd => exact (letThrough (.modified hd)).imp_right .inl
        | .ok (.reject reason), hd => exact .inr (.inl ⟨_, _, .hook hn hr hd (.rejects reason)⟩)
        | .ok (.pending reason), hd => exact .inr (.inl ⟨_, _, .hook hn hr hd (.holds reason)⟩)
        | .error failure, hd => exact .inr (.inl ⟨_, _, .hook hn hr hd (.fails failure)⟩)
      · exact .inr (.inr ⟨given, asked, hr, hs⟩)
    · exact .inr (.inl ⟨_, _, .malformed hn fun given h => hr ⟨given, h⟩⟩)

/-- What follows the word of the hooks on a request. -/
def ruledOn (w : Workshop) (nth : Nat) (request : CallRequest) (given : Json) :
    Except HookError Verdict → Task ToolResult
  | .ok .proceed => w.invoke nth (callOf request given)
  | .ok (.modify replacement) => w.invoke nth (callOf request replacement)
  | .ok (.reject reason) => pure ⟨request.id, false, (ToolError.permissionDenied request.name reason).message⟩
  | .ok (.pending reason) =>
    pure ⟨request.id, false, (ToolError.permissionDenied request.name ("pending approval: " ++ reason)).message⟩
  | .error e => pure ⟨request.id, false, blockedText request.name e⟩

theorem execute_of_reads (hn : nth ≤ maxCalls) (hr : Reads request.arguments given) :
    w.execute maxCalls nth request =
      HookChain.beforeToolCall Task.note w.hooks w.context nth (callOf request given) >>= w.ruledOn nth request given := by
  unfold execute
  dsimp only
  rw [if_neg (Nat.not_lt.2 hn), readArguments_eq_some_iff.2 hr]
  dsimp only
  refine congrArg (HookChain.beforeToolCall Task.note w.hooks w.context nth (callOf request given) >>= ·)
    (funext fun answer => ?_)
  match answer with
  | .error _ | .ok .proceed | .ok (.reject _) | .ok (.modify _) | .ok (.pending _) => rfl

private theorem execute_of_malformed (hn : nth ≤ maxCalls) (hr : ∀ given, ¬ Reads request.arguments given) :
    w.execute maxCalls nth request = .done ⟨request.id, false, (w.malformed request).message⟩ := by
  have hnone : readArguments request.arguments = none := by
    cases hread : readArguments request.arguments with
    | none => rfl
    | some given => exact absurd (readArguments_eq_some_iff.1 hread) (hr given)
  unfold execute
  dsimp only
  rw [if_neg (Nat.not_lt.2 hn), hnone]
  rfl

private theorem execute_of_lt (hn : maxCalls < nth) :
    w.execute maxCalls nth request = .done ⟨request.id, false, limitText maxCalls request.name⟩ := by
  unfold execute
  exact if_pos hn

/-- A request that is refused leaves its beats behind, and comes to a failed result under its own id. -/
theorem Refuses.leads (h : w.Refuses maxCalls nth request beats output) :
    Leads (w.execute maxCalls nth request) (Crew.traceOf beats) (done ⟨request.id, false, output⟩) := by
  cases h with
  | limit hn =>
    rw [execute_of_lt hn]
    exact .here _
  | malformed hn hr =>
    rw [execute_of_malformed hn hr]
    exact .here _
  | @hook given asked answer output hn hr hd ht =>
    have hruled : Leads (w.ruledOn nth request given answer) [] (done ⟨request.id, false, output⟩) := by
      cases ht <;> exact .here _
    rw [execute_of_reads hn hr]
    simpa using hd.leads.bind_done hruled
  | @unknown given arguments asked hn hr hl hu =>
    have hunknown (arguments : Json) : w.invoke nth (callOf request arguments) =
        .done ⟨request.id, false, (ToolError.notFound request.name).message⟩ := by
      have hu : w.tools.get? (callOf request arguments).name = none := hu
      unfold invoke
      rw [hu]
      rfl
    rw [execute_of_reads hn hr]
    cases hl with
    | unchanged hd =>
      have hruled : Leads (w.ruledOn nth request given (.ok .proceed)) []
          (done ⟨request.id, false, (ToolError.notFound request.name).message⟩) := by
        rw [ruledOn, hunknown]
        exact .here _
      simpa using hd.leads.bind_done hruled
    | modified hd =>
      have hruled : Leads (w.ruledOn nth request given (.ok (.modify arguments))) []
          (done ⟨request.id, false, (ToolError.notFound request.name).message⟩) := by
        rw [ruledOn, hunknown]
        exact .here _
      simpa using hd.leads.bind_done hruled

/-! ### Executions -/

/-- What the execution of a tool leaves behind after its body was entered. -/
def isAftermath (tool : String) : Beat → Bool
  | .used name => name == tool
  | .entry (.afterToolCall _ _ call _) => call.name == tool
  | .entry (.event (.toolExecuted name ..)) => name == tool
  | _ => false

/-- Nothing but the aftermath of a tool. -/
def aftermathContract (tool : String) : Contract (.notes Beat) := .ofAllows fun _ beat => isAftermath tool beat = true

private theorem aftermath_note {α : Type} {tool : String} {entry : Entry} {f : Unit → Task α}
    (he : isAftermath tool (.entry entry) = true)
    (hf : ∀ u, Keeps (aftermathContract tool) (fun _ _ => True) u (f ())) :
    Keeps (aftermathContract tool) (fun _ _ => True) t (Task.note entry >>= f) :=
  keeps_bind.2 ⟨he, fun _ _ => hf _⟩

/-- What follows once the body of a tool is entered. -/
def work (w : Workshop) (nth : Nat) (call : ToolCall) (tool : Tool) : Task ToolResult := do
  let outcome ← Process.react (tool.execute nth call.arguments)
  Task.markUsed call.name
  let result : ToolResult :=
    match outcome with
    | .ok output => ⟨call.id, true, output⟩
    | .error e => ⟨call.id, false, "Error: " ++ e.message⟩
  HookChain.afterToolCall Task.note w.hooks w.context nth call result
  if w.recordsEvents then Task.note (.event (.toolExecuted call.name result.success))
  return result

theorem invoke_of_known {call : ToolCall} {tool : Tool} (h : w.tools.get? call.name = some tool) :
    w.invoke nth call = .act (.entry (.entered call.name call.arguments)) fun _ => w.work nth call tool := by
  unfold invoke
  rw [h]
  rfl

private theorem aftermath_work (w : Workshop) (nth : Nat) (call : ToolCall) (tool : Tool) :
    Keeps (aftermathContract call.name) (fun _ _ => True) [] (w.work nth call tool) := by
  have hused : isAftermath call.name (.used call.name) = true := by simp [isAftermath]
  refine keeps_bind.2 (keeps_react.2 ⟨fun _ => trivial, fun outcome _ => ?_⟩)
  refine keeps_bind.2 ⟨hused, fun _ _ => keeps_bind.2 ?_⟩
  refine (HookChain.keeps_forM (fun _ => True) (fun h _ u _ => ?_) trivial).imp fun u _ _ => ?_
  · split
    · trivial
    · refine aftermath_note (by simp [isAftermath]) fun _ => ?_
      exact keeps_bind.2 (keeps_react.2 ⟨fun _ => trivial, fun _ _ => trivial⟩)
  · dsimp only
    split
    · exact aftermath_note (by simp [isAftermath]) fun _ => trivial
    · trivial

/-- Whoever enters a body does so first, with the arguments of the call, and nothing but the aftermath follows. -/
private theorem leads_invoke {call : ToolCall} (hl : Leads (w.invoke nth call) t rest) :
    t = [] ∨ ∃ after, t = ⟨.entry (.entered call.name call.arguments), ()⟩ :: after ∧
      (∃ tool, w.tools.get? call.name = some tool) ∧ ∀ x ∈ after, isAftermath call.name x.1 = true := by
  cases hknown : w.tools.get? call.name with
  | none =>
    unfold invoke at hl
    rw [hknown] at hl
    cases hl
    exact .inl rfl
  | some tool =>
    rw [invoke_of_known hknown] at hl
    cases hl with
    | here => exact .inl rfl
    | @act _ _ _ after _ hl =>
      refine .inr ⟨after, rfl, ⟨tool, rfl⟩, fun x hx => ?_⟩
      obtain ⟨u, v, rfl⟩ := List.append_of_mem hx
      exact (aftermath_work w nth call tool).allows_of_leads hl fun _ _ => trivial

/-- What a request has done so far is consulting hooks, unless it has passed all gates: then these hooks have been
consulted, a body has been entered with these arguments, and nothing but the aftermath has followed. -/
def Progressed (w : Workshop) (maxCalls nth : Nat) (request : CallRequest) (t : List (Exchange (.notes Beat))) : Prop :=
  (∀ x ∈ t, x.1.isConsultation = true) ∨ ∃ given asked arguments after,
    w.Admits maxCalls nth request given asked arguments ∧
    t = Crew.traceOf (HookChain.consultations w.context (callOf request given) asked) ++
      ⟨.entry (.entered request.name arguments), ()⟩ :: after ∧
    ∀ x ∈ after, isAftermath request.name x.1 = true

private theorem isConsultation_of_traceOf {x : Exchange (.notes Beat)} {context : HookContext} {call : ToolCall}
    {asked : List Hook} (hx : x ∈ Crew.traceOf (HookChain.consultations context call asked)) :
    x.1.isConsultation = true := by
  obtain ⟨beat, hbeat, rfl⟩ := List.mem_map.1 hx
  exact HookChain.isConsultation_of_mem hbeat

/-- A request that the hooks let through has passed all gates if there is a tool for it. -/
private theorem progressed_of_lets (hn : nth ≤ maxCalls) (hr : Reads request.arguments given)
    (hlets : w.Lets nth (callOf request given) asked arguments)
    (hl : Leads (w.invoke nth (callOf request arguments)) t rest) :
    w.Progressed maxCalls nth request
      (Crew.traceOf (HookChain.consultations w.context (callOf request given) asked) ++ t) := by
  rcases leads_invoke hl with rfl | ⟨after, rfl, hknown, hafter⟩
  · rw [List.append_nil]
    exact .inl fun x hx => isConsultation_of_traceOf hx
  · exact .inr ⟨given, asked, arguments, after, ⟨hn, hr, hlets, hknown⟩, rfl, hafter⟩

theorem leads_execute (hl : Leads (w.execute maxCalls nth request) t rest) : w.Progressed maxCalls nth request t := by
  by_cases hn : maxCalls < nth
  · rw [execute_of_lt hn] at hl
    cases hl
    exact .inl (by simp)
  · have hn := Nat.not_lt.1 hn
    by_cases hr : ∃ given, Reads request.arguments given
    · obtain ⟨given, hr⟩ := hr
      rw [execute_of_reads hn hr] at hl
      rcases leads_bind hl with ⟨p, -, hp⟩ | ⟨answer, u, v, rfl, hu, hv⟩
      · exact .inl (HookChain.consults_beforeToolCall w.hooks w.context nth _ hp)
      · obtain ⟨asked, hd, rfl⟩ := HookChain.leads_beforeToolCall hu
        match answer, hd, hv with
        | .ok .proceed, hd, hv => exact progressed_of_lets hn hr (.unchanged hd) hv
        | .ok (.modify _), hd, hv => exact progressed_of_lets hn hr (.modified hd) hv
        | .error _, _, hv | .ok (.reject _), _, hv | .ok (.pending _), _, hv =>
          cases hv
          rw [List.append_nil]
          exact .inl fun x hx => isConsultation_of_traceOf hx
    · rw [execute_of_malformed hn fun given h => hr ⟨given, h⟩] at hl
      cases hl
      exact .inl (by simp)

/-- A request that passes all gates does enter a body. -/
theorem Admits.leads (h : w.Admits maxCalls nth request given asked arguments) :
    ∃ rest, Leads (w.execute maxCalls nth request)
      (Crew.traceOf (HookChain.consultations w.context (callOf request given) asked ++
        [.entry (.entered request.name arguments)])) rest := by
  obtain ⟨tool, htool⟩ := h.known
  have hinvoke (arguments : Json) : ∃ rest, Leads (w.invoke nth (callOf request arguments))
      [⟨.entry (.entered request.name arguments), ()⟩] rest := by
    rw [invoke_of_known (show w.tools.get? (callOf request arguments).name = some tool from htool)]
    exact ⟨_, .act (.here _)⟩
  rw [execute_of_reads h.counted h.reads, Crew.traceOf, List.map_append]
  cases h.lets with
  | unchanged hd =>
    obtain ⟨rest, hrest⟩ := hinvoke given
    exact ⟨rest, hd.leads.bind_done hrest⟩
  | modified hd =>
    obtain ⟨rest, hrest⟩ := hinvoke arguments
    exact ⟨rest, hd.leads.bind_done hrest⟩

/-- The first hook that holds a call has the last word, and nobody else is asked. -/
example :
    let careful : Hook := { name := "careful", beforeToolCall := some fun _ _ _ => ⟨3, .returns (.ok (.pending "ask me"))⟩ }
    let lenient : Hook := { name := "lenient", beforeToolCall := some fun _ _ _ => .now (.ok .proceed) }
    let clock : Tool := { name := "clock", execute := fun _ _ => .now (.ok "12:00") }
    let w : Workshop := { tools := .ofTools [clock], hooks := [careful, lenient], context := ⟨"hi", []⟩ }
    (w.execute 1 1 ⟨"a", "clock", ""⟩).timeline =
      { beats := [(0, .entry (.beforeToolCall "careful" ⟨"hi", []⟩ ⟨"a", "clock", Json.emptyObject⟩))]
        length := 3
        ending := .returns ⟨"a", false, "Permission denied: clock: pending approval: ask me"⟩ } := by
  rfl

end Workshop

end AgentLoop
