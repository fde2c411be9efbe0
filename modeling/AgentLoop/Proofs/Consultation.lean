import AgentLoop.Proofs.Conversation
import AgentLoop.Proofs.Requests

/-!
# Who is asked before a run

The guard is asked first and then the hooks, each once the one before has answered.  A command is refused, admitted
with a prompt, or stalls at somebody who never answers; what is asked until then is known beforehand, and the run is
these questions, one after the other, and whatever the last answer leads to.  Once a command is admitted, everything
that looks at its prompt sees the one it was admitted with.
-/

namespace AgentLoop

open Process

/-! ### Questions -/

/-- Somebody is asked, as the journal has it, and the answer takes some time. -/
structure Question where
  entry : Entry
  ticks : Nat

namespace Question

variable {α β : Type}

/-- Asks one after the other, and goes on after the last answer. -/
def before (p : RunProcess α) : List Question → RunProcess α
  | [] => p
  | q :: rest => .act (S := runEffects) (.note q.entry) fun _ => .wait q.ticks (before p rest)

/-- What asking leaves behind. -/
def trace (asked : List Question) : RunTrace := asked.map fun q => ⟨.note q.entry, ()⟩

private theorem before_append (p : RunProcess α) (asked more : List Question) :
    before p (asked ++ more) = before (before p more) asked := by
  induction asked with
  | nil => rfl
  | cons q asked ih => simp only [List.cons_append, before, ih]

private theorem before_bind (p : RunProcess α) (f : α → RunProcess β) (asked : List Question) :
    before p asked >>= f = before (p >>= f) asked := by
  induction asked with
  | nil => rfl
  | cons q asked ih =>
    rw [before, before, ← ih]
    rfl

/-- Asking has either not come to its end, or everybody has been asked and something else goes on. -/
theorem leads_before {p r : RunProcess α} {asked : List Question} {t : RunTrace} (h : Leads (before p asked) t r) :
    (∃ posed, posed <+: asked ∧ t = trace posed ∧ ∀ ending : Ending α, r ≠ ending.rest) ∨
      ∃ rest, t = trace asked ++ rest ∧ Leads p rest r := by
  have act {e : Effect} {next : e.Answer → RunProcess α} (ending : Ending α) : .act (S := runEffects) e next ≠ ending.rest := by
    cases ending <;> exact fun h => nomatch h
  have wait {n : Nat} {next : RunProcess α} (ending : Ending α) : .wait n next ≠ ending.rest := by
    cases ending <;> exact fun h => nomatch h
  induction asked generalizing t with
  | nil => exact .inr ⟨t, rfl, h⟩
  | cons q asked ih =>
    cases h with
    | here => exact .inl ⟨[], List.nil_prefix, rfl, act⟩
    | act h =>
      cases h with
      | here => exact .inl ⟨[q], ⟨asked, rfl⟩, rfl, wait⟩
      | wait h =>
        obtain ⟨posed, hs, rfl, hr⟩ | ⟨rest, rfl, hl⟩ := ih h
        · exact .inl ⟨q :: posed, List.cons_prefix_cons.2 ⟨rfl, hs⟩, rfl, hr⟩
        · exact .inr ⟨rest, rfl, hl⟩

end Question

/-! ### Answers -/

namespace Hook

variable (h : Hook) (context : HookContext)

/-- What comes of asking a hook before the start.  One that takes no part there lets everything proceed. -/
def ruling : Ending (Except HookError Verdict) :=
  match h.beforeStart with
  | none => .returns (.ok .proceed)
  | some answer => (answer context).ending

def question? : Option Question := h.beforeStart.map fun answer => ⟨.beforeStart h.name context, (answer context).after⟩

def Lets : Prop := h.ruling context = .returns (.ok .proceed)

/-- An answer that refuses a command, with the reason and the category of the refusal. -/
inductive Refuses : Except HookError Verdict → String → String → Prop where
  | rejects (reason : String) : Refuses (.ok (.reject reason)) reason "hook"
  | pending (reason : String) : Refuses (.ok (.pending reason)) ("approval pending: " ++ reason) "approval"
  | fails (failure : HookError) : Refuses (.error failure) failure.message "hook"

end Hook

/-- An answer of the guard that refuses a command, with the reason and the category of the refusal. -/
inductive Guard.Refuses : Except GuardError GuardDecision → String → String → Prop where
  | rejects (reason category : String) : Refuses (.ok (.reject reason category)) reason category
  | fails (failure : GuardError) : Refuses (.error failure) failure.message "guard_unavailable"

namespace HookChain

variable {context : HookContext}

/-- The questions to some hooks. -/
def questions (context : HookContext) (hooks : List Hook) : List Question := hooks.filterMap (·.question? context)

private theorem beforeStart_cons (h : Hook) (rest : List Hook) :
    beforeStart RunProcess.note (h :: rest) context = Question.before ((h.ruling context).rest >>= fun
      | .ok .proceed => beforeStart RunProcess.note rest context
      | answer => pure answer) (h.question? context).toList := by
  unfold beforeStart Hook.ruling Hook.question?
  cases hb : h.beforeStart with
  | none =>
    rw [List.filterMap_cons_none (by rw [hb]; rfl)]
    rfl
  | some answer =>
    rw [List.filterMap_cons_some (by rw [hb]; rfl)]
    cases he : (answer context).ending <;> simp [firstVerdict, Process.react, he] <;> rfl

/-- Hooks that let a command proceed are asked, and then the others. -/
private theorem beforeStart_append {before : List Hook} (hb : ∀ h ∈ before, h.Lets context) (rest : List Hook) :
    beforeStart RunProcess.note (before ++ rest) context =
      Question.before (beforeStart RunProcess.note rest context) (questions context before) := by
  induction before with
  | nil => rfl
  | cons h before ih =>
    have hlets : h.ruling context = .returns (.ok .proceed) := hb h (List.mem_cons_self ..)
    rw [List.cons_append, beforeStart_cons, hlets, ih fun h' hm => hb h' (List.mem_cons_of_mem _ hm)]
    simp only [questions, List.filterMap_cons]
    cases h.question? context <;> rfl

end HookChain

namespace Engine

variable (e : Engine) (command : Command)

/-- What comes of asking the guard.  Without one everything is allowed. -/
def guardRuling : Ending (Except GuardError GuardDecision) :=
  match e.guard with
  | none | some .allowAll => .returns (.ok .allow)
  | some (.asking check) => (check command).ending

/-- The question to the guard, if there is one to ask. -/
def guardQuestions : List Question :=
  match e.guard with
  | none | some .allowAll => []
  | some (.asking check) => [⟨.guardChecked command.prompt, (check command).after⟩]

/-- The questions to the guard and to these hooks after it. -/
def questions (hooks : List Hook) : List Question :=
  e.guardQuestions command ++ HookChain.questions (hookContext command) hooks

/-- All these hooks are asked and let the command proceed. -/
structure Passes (hooks : List Hook) : Prop where
  guard : e.guardRuling command = .returns (.ok .allow)
  hooks : ∀ h ∈ hooks, h.Lets (hookContext command)

/-- The command is refused after these questions, with this reason and category. -/
inductive Refuses : List Question → String → String → Prop where
  | guard {answer : Except GuardError GuardDecision} {reason category : String}
    (hg : e.guardRuling command = .returns answer) (hr : Guard.Refuses answer reason category) :
    Refuses (e.guardQuestions command) reason category
  | hook {before after : List Hook} {h : Hook} {answer : Except HookError Verdict} {reason category : String}
    (hh : e.hooks = before ++ h :: after) (hp : e.Passes command before)
    (hs : h.ruling (hookContext command) = .returns answer) (hr : Hook.Refuses answer reason category) :
    Refuses (e.questions command (before ++ [h])) reason category

/-- The prompt with what a hook wants in its place. -/
def replaced (prompt : String) : Json → String
  | .string other => other
  | _ => prompt

/-- The command is admitted after these questions, and goes on with this prompt. -/
inductive Admits : List Question → String → Prop where
  | unchanged (hp : e.Passes command e.hooks) : Admits (e.questions command e.hooks) command.prompt
  | modified {before after : List Hook} {h : Hook} {replacement : Json} (hh : e.hooks = before ++ h :: after)
    (hp : e.Passes command before) (hs : h.ruling (hookContext command) = .returns (.ok (.modify replacement))) :
    Admits (e.questions command (before ++ [h])) (replaced command.prompt replacement)

/-- The last of these questions is never answered. -/
inductive Stalls : List Question → Prop where
  | guard (hg : ∀ answer, e.guardRuling command ≠ .returns answer) : Stalls (e.guardQuestions command)
  | hook {before after : List Hook} {h : Hook} (hh : e.hooks = before ++ h :: after) (hp : e.Passes command before)
    (hs : ∀ answer, h.ruling (hookContext command) ≠ .returns answer) : Stalls (e.questions command (before ++ [h]))

variable {e command} {streams : Bool} {asked : List Question} {prompt reason category : String}

/-- Every command is refused, admitted, or stalls. -/
theorem received (e : Engine) (command : Command) :
    (∃ asked reason category, e.Refuses command asked reason category) ∨
      (∃ asked prompt, e.Admits command asked prompt) ∨ ∃ asked, e.Stalls command asked := by
  cases hg : e.guardRuling command with
  | faults | hangs => exact .inr (.inr ⟨_, .guard (by simp [hg])⟩)
  | returns answer =>
    match answer, hg with
    | .error failure, hg => exact .inl ⟨_, _, _, .guard hg (.fails failure)⟩
    | .ok (.reject reason category), hg => exact .inl ⟨_, _, _, .guard hg (.rejects reason category)⟩
    | .ok .allow, hg =>
      -- the hooks are looked through for the first that does not let the command proceed
      suffices ∀ before rest, e.hooks = before ++ rest → e.Passes command before →
          (∃ asked reason category, e.Refuses command asked reason category) ∨
            (∃ asked prompt, e.Admits command asked prompt) ∨ ∃ asked, e.Stalls command asked from
        this [] e.hooks rfl ⟨hg, by simp⟩
      intro before rest hh hp
      induction rest generalizing before with
      | nil =>
        rw [List.append_nil] at hh
        exact .inr (.inl ⟨_, _, .unchanged (hh ▸ hp)⟩)
      | cons h rest ih =>
        cases hs : h.ruling (hookContext command) with
        | faults | hangs => exact .inr (.inr ⟨_, .hook hh hp (by simp [hs])⟩)
        | returns answer =>
          match answer, hs with
          | .error failure, hs => exact .inl ⟨_, _, _, .hook hh hp hs (.fails failure)⟩
          | .ok (.reject reason), hs => exact .inl ⟨_, _, _, .hook hh hp hs (.rejects reason)⟩
          | .ok (.pending reason), hs => exact .inl ⟨_, _, _, .hook hh hp hs (.pending reason)⟩
          | .ok (.modify replacement), hs => exact .inr (.inl ⟨_, _, .modified hh hp hs⟩)
          | .ok .proceed, hs =>
            refine ih (before ++ [h]) (by simp [hh]) ⟨hg, fun h' hm => ?_⟩
            rcases List.mem_append.1 hm with hm | hm
            · exact hp.hooks h' hm
            · exact List.mem_singleton.1 hm ▸ hs

/-! ### The run -/

/-- What the guard's answer leads to. -/
def decided : Except GuardError GuardDecision → Except RunError Unit
  | .ok .allow => .ok ()
  | .ok (.reject reason category) => .error (.rejected reason category)
  | .error failure => .error (.rejected failure.message "guard_unavailable")

private theorem checkGuard_eq (e : Engine) (command : Command) : e.checkGuard command =
    Question.before ((e.guardRuling command).rest >>= fun answer => pure (decided answer)) (e.guardQuestions command) := by
  unfold checkGuard guardRuling guardQuestions
  cases hg : e.guard with
  | none => rfl
  | some guard =>
    cases guard with
    | allowAll => rfl
    | asking check =>
      show RunProcess.note _ >>= _ = _
      cases he : (check command).ending with
      | returns answer => rcases answer with failure | decision | decision <;> simp [Process.react, he] <;> rfl
      | faults | hangs => simp [Process.react, he]; rfl

/-- What the verdict of the hooks leads to. -/
def ruled (context : HookContext) : Except HookError Verdict → Except RunError HookContext
  | .ok .proceed => .ok context
  | .ok (.modify (.string prompt)) => .ok { context with prompt }
  | .ok (.modify _) => .ok context
  | .ok (.reject reason) => .error (.rejected reason "hook")
  | .ok (.pending reason) => .error (.rejected ("approval pending: " ++ reason) "approval")
  | .error failure => .error (.rejected failure.message "hook")

private theorem admission_eq (e : Engine) (command : Command) : e.admission command = e.checkGuard command >>= fun
    | .error refusal => pure (.error refusal)
    | .ok () => HookChain.beforeStart RunProcess.note e.hooks (hookContext command) >>= fun answer =>
        pure (ruled (hookContext command) answer) := by
  refine congrArg (e.checkGuard command >>= ·) (funext fun decision => ?_)
  cases decision with
  | error => rfl
  | ok =>
    refine congrArg (HookChain.beforeStart RunProcess.note e.hooks (hookContext command) >>= ·) (funext fun answer => ?_)
    match answer with
    | .error _ | .ok .proceed | .ok (.reject _) | .ok (.pending _) => rfl
    | .ok (.modify replacement) => cases replacement <;> rfl

/-- Once these hooks have let the command proceed, the others are asked. -/
private theorem admission_of_passes {before rest : List Hook} (hh : e.hooks = before ++ rest)
    (hp : e.Passes command before) :
    e.admission command = Question.before
      (HookChain.beforeStart RunProcess.note rest (hookContext command) >>= fun answer =>
        pure (ruled (hookContext command) answer)) (e.questions command before) := by
  rw [admission_eq, checkGuard_eq, hp.guard, hh, HookChain.beforeStart_append hp.hooks, questions,
    Question.before_append, Question.before_bind,
    ← Question.before_bind (HookChain.beforeStart RunProcess.note rest (hookContext command))]
  rfl

/-- What the last hook that is asked makes of the command decides. -/
private theorem admission_of_ruling {before after : List Hook} {h : Hook} {ending : Ending (Except HookError Verdict)}
    (hh : e.hooks = before ++ h :: after) (hp : e.Passes command before) (hs : h.ruling (hookContext command) = ending)
    (hl : ending ≠ .returns (.ok .proceed)) :
    e.admission command = Question.before (ending.rest >>= fun answer => pure (ruled (hookContext command) answer))
      (e.questions command (before ++ [h])) := by
  have hlast : HookChain.beforeStart RunProcess.note (h :: after) (hookContext command) =
      Question.before ending.rest (h.question? (hookContext command)).toList := by
    rw [HookChain.beforeStart_cons, hs]
    match ending, hl with
    | .returns (.ok .proceed), hl => exact absurd rfl hl
    | .returns (.error _), _ | .returns (.ok (.reject _)), _ | .returns (.ok (.modify _)), _
    | .returns (.ok (.pending _)), _ | .faults _, _ | .hangs, _ => rfl
  have hquestions : e.questions command (before ++ [h]) =
      e.questions command before ++ (h.question? (hookContext command)).toList := by
    simp only [questions, HookChain.questions, List.filterMap_append, List.append_assoc, List.filterMap_cons,
      List.filterMap_nil]
    cases h.question? (hookContext command) <;> rfl
  rw [admission_of_passes hh hp, hlast, Question.before_bind, hquestions, Question.before_append]

/-- What comes after the admission of a command. -/
def proceed (e : Engine) (command : Command) (streams : Bool) (context : HookContext) :
    RunProcess (Except RunError Outcome) := do
  let history ← e.history command
  let system ← e.systemPrompt command.system context.prompt
  (e.loop command streams).run { system, history, user := .ofUser context.prompt, tools := command.tools, context }

private theorem converse_eq (e : Engine) (command : Command) (streams : Bool) :
    e.converse command streams = e.admission command >>= fun
      | .error refusal => pure (.error refusal)
      | .ok context => e.proceed command streams context := rfl

/-- A run whose command is refused only asks, and then returns the refusal. -/
theorem Refuses.run_eq (h : e.Refuses command asked reason category) (streams : Bool) :
    e.run command streams = Question.before (.done (.error (.rejected reason category))) asked := by
  have hrun (hadmission : e.admission command = Question.before (.done (.error (.rejected reason category))) asked) :
      e.run command streams = Question.before (.done (.error (.rejected reason category))) asked := by
    rw [Engine.run_eq, converse_eq, hadmission, Question.before_bind, Question.before_bind]
    rfl
  refine hrun ?_
  cases h with
  | guard hg hr =>
    rw [admission_eq, checkGuard_eq, hg, Question.before_bind]
    cases hr <;> rfl
  | hook hh hp hs hr =>
    rw [admission_of_ruling hh hp hs (by rintro ⟨⟩; cases hr)]
    cases hr <;> rfl

/-- A run whose command is admitted asks first, and then goes on with the prompt. -/
theorem Admits.run_eq (h : e.Admits command asked prompt) (streams : Bool) :
    e.run command streams =
      Question.before (e.proceed command streams ⟨prompt, command.metadata⟩ >>= e.settle command) asked := by
  have hrun (hadmission : e.admission command = Question.before (.done (.ok ⟨prompt, command.metadata⟩)) asked) :
      e.run command streams =
        Question.before (e.proceed command streams ⟨prompt, command.metadata⟩ >>= e.settle command) asked := by
    rw [Engine.run_eq, converse_eq, hadmission, Question.before_bind, Question.before_bind]
    rfl
  refine hrun ?_
  cases h with
  | unchanged hp =>
    have hall : e.hooks = e.hooks ++ [] := (List.append_nil _).symm
    rw [admission_of_passes hall hp]
    rfl
  | @modified before after h replacement hh hp hs =>
    rw [admission_of_ruling hh hp hs (by simp)]
    cases replacement <;> rfl

/-- A run whose command stalls only asks, and never comes to anything. -/
theorem Stalls.run_eq (h : e.Stalls command asked) (streams : Bool) :
    ∃ p, e.run command streams = Question.before p asked ∧ (p = .hang ∨ ∃ message, p = .fault message) := by
  have hrun (p : RunProcess (Except RunError HookContext)) (hadmission : e.admission command = Question.before p asked) :
      e.run command streams = Question.before ((p >>= fun
        | .error refusal => pure (.error refusal)
        | .ok context => e.proceed command streams context) >>= e.settle command) asked := by
    rw [Engine.run_eq, converse_eq, hadmission, Question.before_bind, Question.before_bind]
  cases h with
  | guard hg =>
    have hadmission := admission_eq e command
    rw [checkGuard_eq, Question.before_bind] at hadmission
    refine ⟨_, hrun _ hadmission, ?_⟩
    cases he : e.guardRuling command with
    | returns answer => exact absurd he (hg answer)
    | faults message => exact .inr ⟨message, rfl⟩
    | hangs => exact .inl rfl
  | @hook before after h hh hp hs =>
    refine ⟨_, hrun _ (admission_of_ruling hh hp rfl (hs _)), ?_⟩
    cases he : h.ruling (hookContext command) with
    | returns answer => exact absurd he (hs answer)
    | faults message => exact .inr ⟨message, rfl⟩
    | hangs => exact .inl rfl

/-! ### What sees the prompt -/

private theorem word_of_lets {context : HookContext} {before : List Hook} (hb : ∀ h ∈ before, h.Lets context)
    (rest : List Hook) : HookChain.word context (before ++ rest) = HookChain.word context rest := by
  induction before with
  | nil => rfl
  | cons h before ih =>
    have hlets : h.ruling context = .returns (.ok .proceed) := hb h (List.mem_cons_self ..)
    rw [List.cons_append, HookChain.word, ih fun h' hm => hb h' (List.mem_cons_of_mem _ hm)]
    unfold Hook.ruling at hlets
    cases hs : h.beforeStart with
    | none => rfl
    | some answer =>
      rw [hs] at hlets
      simp only [hlets]

/-- A command goes on with the prompt that it was admitted with. -/
theorem Admits.promptOf (h : e.Admits command asked prompt) : e.promptOf command = prompt := by
  cases h with
  | unchanged hp =>
    have hword := word_of_lets hp.hooks []
    rw [List.append_nil] at hword
    rw [Engine.promptOf, hword]
    rfl
  | @modified before after h replacement hh hp hs =>
    rw [Engine.promptOf, hh, word_of_lets hp.hooks, HookChain.word]
    unfold Hook.ruling at hs
    cases hb : h.beforeStart with
    | none => rw [hb] at hs; cases hs
    | some answer =>
      rw [hb] at hs
      simp only [hs]
      cases replacement <;> rfl

end Engine

/-- An entry of what follows the admission of a command, with this context wherever one is shown. -/
def Entry.Shows (context : HookContext) : Entry → Prop
  | .guardChecked _ | .beforeStart .. => False
  | .retrieved query => query = context.prompt
  | .beforeToolCall _ shown _ | .afterToolCall _ shown _ _ => shown = context
  | _ => True

namespace Workshop

variable {w : Workshop} {t : List (Exchange (.notes Beat))}

/-- Tool calls show the context of their workshop. -/
def showContract (context : HookContext) : Contract (.notes Beat) :=
  .ofAllows fun _ beat => ∀ entry, beat = .entry entry → entry.Shows context

private theorem shows_note {entry : Entry} {context : HookContext} (h : entry.Shows context) :
    Keeps (showContract context) (fun _ _ => True) t (Task.note entry) :=
  ⟨fun _ he => Beat.entry.inj he ▸ h, fun _ _ => trivial⟩

private theorem shows_reaction {α β : Type} {context : HookContext} {r : Reaction α} {f : α → Task β}
    (h : ∀ a, Keeps (showContract context) (fun _ _ => True) t (f a)) :
    Keeps (showContract context) (fun _ _ => True) t (Process.react r >>= f) :=
  keeps_bind.2 (keeps_react.2 ⟨fun _ => trivial, fun a _ => h a⟩)

private theorem shows_invoke (nth : Nat) (call : ToolCall) :
    Keeps (showContract w.context) (fun _ _ => True) t (w.invoke nth call) := by
  unfold invoke
  split
  · trivial
  · refine keeps_bind.2 ((shows_note (by trivial)).imp fun _ _ _ => shows_reaction fun outcome => ?_)
    refine keeps_bind.2 ⟨fun _ h => (nomatch h), fun _ _ => keeps_bind.2 ?_⟩
    refine (HookChain.keeps_forM (fun _ => True) (fun h _ u _ => ?_) trivial).imp fun u _ _ => ?_
    · split
      · trivial
      · exact keeps_bind.2 ((shows_note (by rfl)).imp fun _ _ _ => shows_reaction fun _ => trivial)
    · dsimp only
      split
      · exact keeps_bind.2 ((shows_note (by trivial)).imp fun _ _ _ => trivial)
      · trivial

private theorem shows_execute (w : Workshop) (maxCalls nth : Nat) (request : CallRequest) :
    Keeps (showContract w.context) (fun _ _ => True) [] (w.execute maxCalls nth request) := by
  unfold execute
  dsimp only
  split
  · trivial
  · split
    · trivial
    · refine keeps_bind.2 (HookChain.keeps_firstVerdict (fun _ => True) (fun ask hask u _ => ?_)
        (fun u answer _ => ?_) trivial)
      · obtain ⟨h, -, hask⟩ := List.mem_filterMap.1 hask
        obtain ⟨answer, -, rfl⟩ := Option.map_eq_some_iff.1 hask
        exact keeps_bind.2 ((shows_note (by rfl)).imp fun _ _ _ => keeps_react.2 ⟨fun _ => trivial, fun _ _ => trivial⟩)
      · split <;> first | exact shows_invoke nth _ | trivial

private theorem shows_round {ledger : Ledger} {requests : List CallRequest} {beat : Nat × Beat}
    (h : beat ∈ (w.round ledger requests).beats) {entry : Entry} (he : beat.2 = .entry entry) :
    entry.Shows w.context := by
  obtain ⟨all, hperm, hpre⟩ := Timeline.beats_together (w.timelines ledger requests)
  obtain ⟨t, ht, hb⟩ := List.mem_flatMap.1 (hperm.mem_iff.1 (hpre.mem h))
  obtain ⟨nth, request, rfl⟩ := mem_timelines ht
  obtain ⟨u, v, huv⟩ := List.append_of_mem hb
  have hleads : Leads _ (notesOf (w.execute ledger.maxCalls nth request).timeline.beats) _ := leads_timelineFrom _ 0
  rw [huv, notesOf, List.map_append, List.map_cons] at hleads
  exact (shows_execute w _ nth request).allows_of_leads hleads (fun _ _ => trivial) entry he

end Workshop

/-- Entries that are left after the admission of a command show this context. -/
def showContract (context : HookContext) : Contract runEffects :=
  .ofAllows fun _ effect => ∀ entry, effect = .note entry → entry.Shows context

namespace Loop

variable {l : Loop} {input : LoopInput} {t : RunTrace}

private theorem shows_replay {context : HookContext} {now : Nat} {beats : List (Nat × Beat)}
    (h : ∀ beat ∈ beats, ∀ entry, beat.2 = .entry entry → entry.Shows context) :
    Keeps (showContract context) (fun _ _ => True) t (replay playBeat now beats) := by
  induction beats generalizing t now with
  | nil => trivial
  | cons first rest ih =>
    obtain ⟨time, beat⟩ := first
    have hrest : ∀ beat ∈ rest, ∀ entry, beat.2 = .entry entry → entry.Shows context :=
      fun beat hb => h beat (List.mem_cons_of_mem _ hb)
    refine keeps_wait.2 (keeps_bind.2 ?_)
    cases beat with
    | used tool => exact ih hrest
    | entry entry => exact ⟨fun _ he => Effect.note.inj he ▸ h _ (List.mem_cons_self ..) entry rfl, fun _ _ => ih hrest⟩

private theorem shows_playRound {ledger : Ledger} {calls : List CallRequest} :
    Keeps (showContract input.context) (fun _ _ => True) t (l.playRound input ledger calls) := by
  refine keeps_bind.2 (keeps_pass.2 (keeps_bind.2 ?_))
  have hround : ∀ beat ∈ ((l.workshop input).round ledger calls).beats, ∀ entry, beat.2 = .entry entry →
      entry.Shows input.context := fun beat hb entry he => Workshop.shows_round (w := l.workshop input) hb he
  refine (shows_replay hround).imp fun _ _ _ => ?_
  refine keeps_bind.2 (keeps_sleep.2 ?_)
  split
  · trivial
  · exact keeps_bind.2 (keeps_pass.2 trivial)
  · exact keeps_bind.2 (keeps_pass.2 trivial)

/-- The hooks around tool calls see the context of the run. -/
private theorem shows_turns (k : Nat) (s : State) :
    Keeps (showContract input.context) (fun _ _ => True) t (l.turns input k s) := by
  induction k using Nat.strongRecOn generalizing t s with
  | ind k ih =>
    rw [turns_eq]
    dsimp only
    have hturn {request : Request} :
        Keeps (l.turnContract (.any (l.workshop input)) request) (fun _ _ => True) [] (l.takeTurn request) := keeps_takeTurn
    refine keeps_bind.2 (hturn.local (fun u f hf entry he => ?_) (fun _ _ => id) id fun u reply _ => ?_)
    · subst he
      cases entry with
      | event => trivial
      | _ => exact hf.elim
    · cases reply with
      | error => trivial
      | ok turn =>
        refine keeps_bind.2 (keeps_record (fun _ he => Effect.note.inj he ▸ trivial) fun v _ _ => ?_)
        split
        · rename_i hcalls
          have hk : k ≠ 0 := by
            rintro rfl
            simp at hcalls
          refine keeps_bind.2 (shows_playRound.imp fun w reply _ => ?_)
          split
          · trivial
          · exact ih (k - 1) (by omega) _
        · trivial

private theorem shows_run (l : Loop) {context : HookContext} (h : input.context = context) :
    Keeps (showContract context) (fun _ _ => True) t (l.run input) := h ▸ shows_turns _ _

end Loop

namespace Engine

variable {e : Engine} {command : Command} {streams : Bool} {context : HookContext} {t : RunTrace}

/-- Whoever looks at the prompt of an admitted command sees the one it goes on with. -/
theorem shows_proceed (e : Engine) (command : Command) (streams : Bool) (context : HookContext) :
    Keeps (showContract context) (fun _ _ => True) [] (e.proceed command streams context) := by
  have hload (u : RunTrace) (other : Command) : (showContract context).allows u (.load other) := fun _ he => nomatch he
  have hretrieve (u : RunTrace) : (showContract context).allows u (.note (.retrieved context.prompt)) :=
    fun _ he => Effect.note.inj he ▸ rfl
  refine keeps_bind.2 ((prelude_history trivial hload).imp fun u history _ => ?_)
  refine keeps_bind.2 ((prelude_systemPrompt trivial hretrieve).imp fun v system _ => ?_)
  exact Loop.shows_run _ rfl

end Engine

end AgentLoop
