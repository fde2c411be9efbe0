import AgentLoop.Engine
import AgentLoop.Proofs.Course

/-!
# The conversation of a command

Before the loop a command is admitted, its history is looked up, and context is retrieved.  The loop then goes on from
this history and the prompt that the hooks have settled on.  Nothing is saved before the loop has come to an answer,
and what is saved then is that prompt and that answer; nothing comes after it.
-/

namespace AgentLoop

open Process

/-- What hooks and events leave in the journal once the result is fixed. -/
def Entry.isClosing : Entry → Bool
  | .afterComplete .. | .afterCompleteEnd .. | .event (.executionCompleted ..) => true
  | _ => false

/-- Who is consulted about the admission of a command. -/
def Entry.isAdmission : Entry → Bool
  | .guardChecked .. | .beforeStart .. => true
  | _ => false

private theorem isClosing_of_isOfLoop {e : Entry} (h : e.isOfLoop = true) : e.isClosing = false := by
  unfold Entry.isClosing
  split <;> first | rfl | cases h

/-! ### The word of the hooks -/

namespace HookChain

/-- The verdict of the first hook that does not let a command proceed, if all of them come to a verdict. -/
def word (context : HookContext) : List Hook → Except HookError Verdict
  | [] => .ok .proceed
  | h :: rest =>
    match h.beforeStart with
    | none => word context rest
    | some answer =>
      match (answer context).ending with
      | .returns (.ok .proceed) => word context rest
      | .returns verdict => verdict
      | .faults _ | .hangs => .ok .proceed

private theorem keeps_beforeStart {S : Signature} {c : Contract S} {note : Entry → Process S Unit}
    (inv : List (Exchange S) → Prop)
    (hn : ∀ name context u, inv u → Keeps c (fun v _ => inv v) u (note (.beforeStart name context))) (hh : c.mayHang)
    (hooks : List Hook) (context : HookContext) {t : List (Exchange S)} (ht : inv t) :
    Keeps c (fun u r => inv u ∧ r = word context hooks) t (beforeStart note hooks context) := by
  induction hooks generalizing t with
  | nil => exact ⟨ht, rfl⟩
  | cons h rest ih =>
    unfold beforeStart word
    cases hb : h.beforeStart with
    | none =>
      rw [List.filterMap_cons_none (by rw [hb]; rfl)]
      exact ih ht
    | some answer =>
      rw [List.filterMap_cons_some (by rw [hb]; rfl)]
      refine keeps_bind.2 (keeps_bind.2 ((hn _ _ t ht).imp fun u _ hu => keeps_react.2 ⟨fun _ => hh, fun a ha => ?_⟩))
      simp only [ha]
      cases a with
      | error failure => exact ⟨hu, rfl⟩
      | ok verdict =>
        cases verdict with
        | proceed => exact ih hu
        | _ => exact ⟨hu, rfl⟩

end HookChain

namespace Engine

variable {e : Engine} {command : Command} {streams : Bool} {t : RunTrace}

/-- Only text from a hook can take the place of the prompt of a command. -/
def promptAfter (command : Command) : Except HookError Verdict → String
  | .ok (.modify (.string prompt)) => prompt
  | _ => command.prompt

/-- The prompt that goes to the model. -/
def promptOf (e : Engine) (command : Command) : String :=
  promptAfter command (HookChain.word (hookContext command) e.hooks)

/-- The history that the loop goes on from, after what happened before it: that of the command itself, or else what the
store came up with. -/
inductive HistoryAfter (e : Engine) (command : Command) : RunTrace → List Message → Prop where
  | own {t : RunTrace} (h : command.history ≠ []) : HistoryAfter e command t command.history
  | none {t : RunTrace} (h : command.history = []) (hk : e.keepsHistory = false) : HistoryAfter e command t []
  | loaded {t : RunTrace} {answer : Reaction (Except StoreError (List Message))}
    {loaded : Except StoreError (List Message)} (h : command.history = []) (hk : e.keepsHistory = true)
    (hl : ⟨.load command, answer⟩ ∈ t) (ha : answer.ending = .returns loaded) :
    HistoryAfter e command t (loaded.toOption.getD [])

/-- What goes into the loop after what happened before it. -/
structure LoopFrom (e : Engine) (command : Command) (t : RunTrace) (input : LoopInput) : Prop where
  user : input.user = .ofUser (e.promptOf command)
  tools : input.tools = command.tools
  history : HistoryAfter e command t input.history

/-- What a conversation may do: ask for what its loop may ask for, load the history, and nothing that closes a run. -/
def converseAllows (e : Engine) (command : Command) (streams : Bool) (t : RunTrace) : Effect → Prop
  | .ask request => ∃ before since input, t = before ++ since ∧ e.LoopFrom command before input ∧
      (e.loop command streams).runAllows input since (.ask request)
  | .note entry => entry.isClosing = false
  | .load other => other = command ∧ command.history = [] ∧ e.keepsHistory = true
  | .room | .put _ => True
  | .save .. => False

def converseContract (e : Engine) (command : Command) (streams : Bool) : Contract runEffects :=
  .ofAllows (e.converseAllows command streams)

/-- A conversation that comes to an answer begins with the prompt and ends with the answer. -/
def Answered (e : Engine) (command : Command) (r : Except RunError Outcome) : Prop :=
  ∀ outcome, r = .ok outcome → outcome.transcript.head? = some (.ofUser (e.promptOf command)) ∧
    outcome.transcript.getLast? = some (.ofAssistant outcome.answer)

private theorem keeps_note {entry : Entry} {post : RunTrace → Unit → Prop} (he : entry.isClosing = false)
    (hp : ∀ u, post u ()) : Keeps (e.converseContract command streams) post t (RunProcess.note entry) :=
  ⟨he, fun _ _ => hp _⟩

private theorem keeps_checkGuard :
    Keeps (e.converseContract command streams) (fun _ _ => True) t (e.checkGuard command) := by
  unfold checkGuard
  split
  · trivial
  · trivial
  · refine keeps_bind.2 (keeps_note rfl fun u => keeps_bind.2 (keeps_react.2 ⟨fun _ => trivial, fun answer _ => ?_⟩))
    split <;> trivial

private theorem keeps_admission : Keeps (e.converseContract command streams)
    (fun _ r => ∀ context, r = .ok context → context.prompt = e.promptOf command) t (e.admission command) := by
  refine keeps_bind.2 (keeps_checkGuard.imp fun u r _ => ?_)
  split
  · exact fun _ h => nomatch h
  · refine keeps_bind.2 ((HookChain.keeps_beforeStart (fun _ => True) (fun _ _ _ _ => keeps_note rfl fun _ => trivial)
      trivial e.hooks (hookContext command) trivial).imp fun v r hr => ?_)
    obtain ⟨-, hr⟩ := hr
    unfold promptOf
    rw [← hr]
    cases r with
    | error failure => exact fun _ h => nomatch h
    | ok verdict =>
      cases verdict with
      | proceed =>
        rintro context ⟨⟩
        rfl
      | modify replacement => cases replacement <;> (rintro context ⟨⟩; rfl)
      | reject | pending => exact fun _ h => nomatch h

private theorem HistoryAfter.append {history : List Message} (h : HistoryAfter e command t history) (u : RunTrace) :
    HistoryAfter e command (t ++ u) history := by
  cases h with
  | own h => exact .own h
  | none h hk => exact .none h hk
  | loaded h hk hl ha => exact .loaded h hk (List.mem_append_left _ hl) ha

private theorem keeps_history : Keeps (e.converseContract command streams) (HistoryAfter e command) t
    (e.history command) := by
  unfold history
  split
  · exact .own (by simp_all)
  · rename_i hown
    have hown : command.history = [] := by simpa using hown
    split
    · exact hown ▸ .none hown (by simp_all)
    · rename_i hk
      have hk : e.keepsHistory = true := by simpa using hk
      refine keeps_bind.2 ⟨⟨rfl, hown, hk⟩, fun answer _ => keeps_bind.2 (keeps_react.2 ⟨fun _ => trivial, ?_⟩)⟩
      intro loaded ha
      have hloaded : HistoryAfter e command (t ++ [⟨.load command, answer⟩]) (loaded.toOption.getD []) :=
        .loaded hown hk (by simp) ha
      cases loaded with
      | ok messages => exact hloaded
      | error failure => exact hloaded

private theorem keeps_systemPrompt {system query : String} :
    Keeps (e.converseContract command streams) (fun _ _ => True) t (e.systemPrompt system query) := by
  unfold systemPrompt
  split
  · split
    · trivial
    · refine keeps_bind.2 (keeps_note rfl fun u => keeps_bind.2 (keeps_react.2 ⟨fun _ => trivial, fun answer _ => ?_⟩))
      split
      · split <;> trivial
      · trivial
  · trivial

/-- What the loop may do, a conversation may do that has come to it. -/
private theorem LoopFrom.allows {input : LoopInput} (h : e.LoopFrom command t input) (u : RunTrace) (f : Effect)
    (hf : (e.loop command streams).runAllows input u f) : e.converseAllows command streams (t ++ u) f := by
  cases f with
  | ask request => exact ⟨t, u, input, rfl, h, hf⟩
  | note entry => exact isClosing_of_isOfLoop hf.1
  | room | put => trivial
  | load | save => exact hf.elim

private theorem LoopFrom.answered {input : LoopInput} {u : RunTrace} {r : Except RunError Outcome}
    (h : e.LoopFrom command t input) (hr : (e.loop command streams).Returns input u r) : e.Answered command r := by
  rintro outcome rfl
  obtain ⟨rounds, since, request, -, -, -, hc⟩ := hr outcome rfl
  rw [hc.transcript, h.user]
  exact ⟨rfl, List.getLast?_concat⟩

/-- A conversation does only what it may, and comes only to answers to the prompt. -/
theorem keeps_converse (e : Engine) (command : Command) (streams : Bool) :
    Keeps (e.converseContract command streams) (fun _ r => e.Answered command r) [] (e.converse command streams) := by
  refine keeps_bind.2 (keeps_admission.imp fun t r hprompt => ?_)
  split
  · exact fun _ h => nomatch h
  · rename_i context
    refine keeps_bind.2 (keeps_history.imp fun u history hhistory => ?_)
    refine keeps_bind.2 (keeps_systemPrompt.withTrace.imp fun v system hv => ?_)
    obtain ⟨-, w, rfl, -⟩ := hv
    have hfrom : e.LoopFrom command (u ++ w)
        { system, history, user := .ofUser context.prompt, tools := command.tools, context } :=
      ⟨by rw [hprompt context rfl], rfl, hhistory.append w⟩
    exact ((e.loop command streams).keeps_run _ (.any _)).local (fun u f => hfrom.allows u f) (fun _ _ => id) id
      fun u r hr => hfrom.answered hr

/-! ### Before the loop -/

section

variable {c : Contract runEffects} (hh : c.mayHang)

include hh

section

variable (hn : ∀ u entry, entry.isAdmission = true → c.allows u (.note entry))

include hn

private theorem prelude_checkGuard : Keeps c (fun _ _ => True) t (e.checkGuard command) := by
  unfold checkGuard
  split
  · trivial
  · trivial
  · refine keeps_bind.2 ⟨hn _ _ rfl, fun _ _ => ?_⟩
    refine keeps_bind.2 (keeps_react.2 ⟨fun _ => hh, fun answer _ => ?_⟩)
    split <;> trivial

/-- Whoever may consult the guard and the hooks may have a command admitted. -/
theorem prelude_admission : Keeps c (fun _ _ => True) t (e.admission command) := by
  have hnote (name : String) (context : HookContext) (u : RunTrace) (_ : True) :
      Keeps c (fun _ _ => True) u (RunProcess.note (.beforeStart name context)) :=
    ⟨hn _ _ rfl, fun _ _ => trivial⟩
  refine keeps_bind.2 ((prelude_checkGuard hh hn).imp fun u r _ => ?_)
  split
  · trivial
  · refine keeps_bind.2 ((HookChain.keeps_beforeStart (fun _ => True) hnote hh e.hooks _ trivial).imp fun v r _ => ?_)
    split <;> trivial

end

theorem prelude_systemPrompt {system query : String} (hn : ∀ u, c.allows u (.note (.retrieved query))) :
    Keeps c (fun _ _ => True) t (e.systemPrompt system query) := by
  unfold systemPrompt
  split
  · split
    · trivial
    · refine keeps_bind.2 ⟨hn _, fun _ _ => ?_⟩
      refine keeps_bind.2 (keeps_react.2 ⟨fun _ => hh, fun answer _ => ?_⟩)
      split
      · split <;> trivial
      · trivial
  · trivial

/-- Whoever may look into the store may look up the history. -/
theorem prelude_history (hl : ∀ u command, c.allows u (.load command)) :
    Keeps c (fun _ _ => True) t (e.history command) := by
  unfold history
  split
  · trivial
  · split
    · trivial
    · refine keeps_bind.2 ⟨hl _ _, fun answer _ => keeps_bind.2 (keeps_react.2 ⟨fun _ => hh, fun loaded _ => ?_⟩)⟩
      cases loaded <;> trivial

end

/-! ### The end of a run -/

/-- What follows the conversation. -/
def settle (e : Engine) (command : Command) : Except RunError Outcome → RunProcess (Except RunError Outcome)
  | .error failure => pure (.error failure)
  | .ok outcome => do
    e.keep command outcome
    return .ok outcome

theorem run_eq (e : Engine) (command : Command) (streams : Bool) :
    e.run command streams = e.converse command streams >>= e.settle command := rfl

section

variable {c : Contract runEffects} (hh : c.mayHang) (hc : ∀ u command messages, c.allows u (.save command messages))

include hh hc

/-- Whoever may save may keep a turn. -/
theorem keeps_keep (e : Engine) (command : Command) (outcome : Outcome) {t : RunTrace} :
    Keeps c (fun _ _ => True) t (e.keep command outcome) := by
  unfold keep
  split
  · trivial
  · split
    · refine keeps_bind.2 ⟨hc _ _ _, fun answer _ => ?_⟩
      exact keeps_bind.2 (keeps_react.2 ⟨fun _ => hh, fun _ _ => trivial⟩)
    · trivial

/-- Nothing but saving may follow the conversation. -/
theorem keeps_settle (e : Engine) (command : Command) (r : Except RunError Outcome) {t : RunTrace} :
    Keeps c (fun _ _ => True) t (e.settle command r) := by
  cases r with
  | error => trivial
  | ok outcome => exact keeps_bind.2 ((keeps_keep hh hc e command outcome).imp fun _ _ _ => trivial)

end

/-- The messages that are kept of an answered command. -/
def turnOf (e : Engine) (command : Command) (answer : String) : List Message :=
  [.ofUser (e.promptOf command), .ofAssistant answer]

theorem settle_ok {outcome : Outcome} (h : e.Answered command (.ok outcome)) :
    e.settle command (.ok outcome) =
      if e.keepsHistory then
        .act (.save command (e.turnOf command outcome.answer)) fun answer => react answer >>= fun _ => .done (.ok outcome)
      else .done (.ok outcome) := by
  obtain ⟨hhead, hlast⟩ := h outcome rfl
  have hsettle : e.settle command (.ok outcome) = (e.keep command outcome).bind fun _ => .done (.ok outcome) := rfl
  rw [hsettle, keep, hhead, hlast]
  cases e.keepsHistory with
  | false => rfl
  | true => exact congrArg (Process.act _) (funext fun answer => LawfulMonad.bind_assoc (react answer) _ _)

/-! ### Telling the hooks -/

/-- Whoever is told about a result only closes the run. -/
def closeContract : Contract runEffects := .ofAllows fun _ effect => ∃ entry, effect = .note entry ∧ entry.isClosing

theorem keeps_afterComplete (e : Engine) (command : Command) (result : ExecutionResult) :
    Keeps closeContract (fun _ _ => True) [] (e.afterComplete command result) := by
  refine HookChain.keeps_forM (fun _ => True) ?_ trivial
  intro h _ u _
  split
  · trivial
  · refine keeps_bind.2 ⟨⟨_, rfl, rfl⟩, fun _ _ => keeps_bind.2 (keeps_react.2 ⟨fun _ => trivial, fun _ _ => ?_⟩)⟩
    exact ⟨⟨_, rfl, rfl⟩, fun _ _ => trivial⟩

end Engine

end AgentLoop
