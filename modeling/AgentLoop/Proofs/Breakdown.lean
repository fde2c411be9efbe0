import AgentLoop.Proofs.Account
import AgentLoop.Proofs.Delays
import AgentLoop.Proofs.Replies
import AgentLoop.Service.Scenario

/-!
# What breaks an engine

A run breaks down only when somebody it has called does: the guard, a hook before the start, the store, the retriever,
or the provider.  `Process.BreaksOnly` says that of a process, part by part.  A tool that breaks down is an error of
its round, and a retry has a delay whatever the settings are.  So no setting breaks an engine once it is built, and it
can be built as long as its pool can hold its permits.
-/

namespace AgentLoop

open Process

namespace HookChain

variable {S : Signature} {cause : List (Exchange S) → String → Prop} {t : List (Exchange S)}

private theorem breaksOnly_firstVerdict {asks : List (Process S (Except HookError Verdict))}
    (h : ∀ ask ∈ asks, ∀ u, BreaksOnly cause u ask) : BreaksOnly cause t (firstVerdict asks) := by
  induction asks generalizing t with
  | nil => trivial
  | cons ask rest ih =>
    refine (h ask (List.mem_cons_self ..) t).bind fun u answer => ?_
    split
    · exact ih fun other hother => h other (List.mem_cons_of_mem _ hother)
    · trivial

end HookChain

namespace Loop

variable {l : Loop} {input : LoopInput} {request : Request} {cause : RunTrace → String → Prop} {t : RunTrace}

/-! ### The loop -/

private theorem breaksOnly_record (e : Event) : BreaksOnly cause t (l.record e) := by
  unfold record
  split
  · exact fun _ => trivial
  · trivial

private theorem breaksOnly_deliver (delta : String) : BreaksOnly cause t (deliver delta) := by
  intro room
  cases room with
  | gone => trivial
  | free | after => exact fun _ => trivial

/-- Whatever a stream brings, reading it does not break down. -/
private theorem breaksOnly_collect (spent due : Nat) (model : String) (past : List Chunk)
    (items : List (Nat × StreamItem)) :
    BreaksOnly cause t (collect spent due (Turn.said model past) items) := by
  induction items generalizing spent due past t with
  | nil => trivial
  | cons first rest ih =>
    obtain ⟨gap, item⟩ := first
    cases item with
    | silence | failure => trivial
    | chunk chunk =>
      have hdelivered : BreaksOnly cause t (if (chunk.content.getD "").isEmpty then pure (true, 0)
          else deliver (chunk.content.getD "")) := by
        split
        · trivial
        · exact breaksOnly_deliver _
      rw [collect_chunk]
      refine hdelivered.bind fun u (delivered, waited) => ?_
      dsimp only
      split
      · trivial
      · split
        · trivial
        · exact ih ..

private theorem breaksOnly_replay (beats : List (Nat × Beat)) (now : Nat) :
    BreaksOnly cause t (replay playBeat now beats) := by
  induction beats generalizing now t with
  | nil => trivial
  | cons first rest ih =>
    obtain ⟨time, beat⟩ := first
    cases beat with
    | used => exact ih time
    | entry => exact fun _ => ih time

/-- What a tool task that breaks down does to a round is an error. -/
private theorem breaksOnly_playRound (ledger : Ledger) (calls : List CallRequest) :
    BreaksOnly cause t (l.playRound input ledger calls) := by
  refine BreaksOnly.bind (p := pass) (by trivial) fun u _ => (breaksOnly_replay _ _).bind fun v _ => ?_
  refine BreaksOnly.bind (p := sleep _) (by trivial) fun w _ => ?_
  split <;> trivial

private theorem breaksOnly_judged {again : ProviderError → RunProcess (Except RunError Reply)}
    (h : ∀ e, BreaksOnly cause t (again e)) (r : Except ProviderError Reply) : BreaksOnly cause t (judged again r) := by
  rcases judged_cases again r with ⟨_, -, hj⟩ | ⟨_, _, -, hj⟩ | ⟨e, -, hj⟩
  · exact hj ▸ trivial
  · exact hj ▸ trivial
  · exact hj ▸ h e

section

variable (hask : ∀ u request answer message, answer.ending = .faults message →
    cause (u ++ [⟨.ask request, answer⟩]) message)
  (hdelay : ∀ attempt draw, ∃ delay, l.policy.jitteredDelay? attempt draw = some delay)

include hask

private theorem breaksOnly_attempt : BreaksOnly cause t (attempt request) :=
  fun answer => breaksOnly_react fun message he => hask t request answer message he

include hdelay

/-- As long as there is a delay before every retry, attempts break down only if the provider does. -/
private theorem breaksOnly_attemptsFrom (made left : Nat) :
    BreaksOnly cause t (Retry.attemptsFrom l.policy l.draw l.record (fun _ => attempt request) made left) := by
  induction left generalizing made t with
  | zero =>
    rw [attemptsFrom_eq]
    exact (breaksOnly_attempt hask).bind fun u => breaksOnly_judged fun e => trivial
  | succ left ih =>
    rw [attemptsFrom_eq]
    refine (breaksOnly_attempt hask).bind fun u => breaksOnly_judged fun e => ?_
    obtain ⟨delay, hd⟩ := hdelay (.ofNat made) (l.draw made)
    have hslept {v : RunTrace} : BreaksOnly cause v (sleep (S := runEffects) delay.ticks) := trivial
    rw [again, retry, hd]
    exact (breaksOnly_record _).bind fun v _ => hslept.bind fun w _ => ih (made + 1)

private theorem breaksOnly_takeTurn : BreaksOnly cause t (l.takeTurn request) := by
  refine BreaksOnly.bind (breaksOnly_attemptsFrom hask hdelay 0 (l.policy.attempts - 1)) fun u r => ?_
  split
  · trivial
  · split
    · exact breaksOnly_collect 0 0 request.model [] _
    · trivial
  · exact breaksOnly_collect 0 0 request.model [] _

/-- A run breaks down only if the provider does. -/
private theorem breaksOnly_turns (k : Nat) (s : State) : BreaksOnly cause t (l.turns input k s) := by
  induction k using Nat.strongRecOn generalizing t s with
  | ind k ih =>
    rw [turns_eq]
    dsimp only
    refine (breaksOnly_takeTurn hask hdelay).bind fun u r => ?_
    split
    · trivial
    · refine (breaksOnly_record _).bind fun v _ => ?_
      split
      · rename_i hcalls
        have hk : k ≠ 0 := by
          rintro rfl
          simp at hcalls
        refine (breaksOnly_playRound ..).bind fun w r => ?_
        split
        · trivial
        · exact ih (k - 1) (by omega) _
      · trivial

end

end Loop

namespace Engine

variable {e : Engine} {command : Command} {streams : Bool} {t : RunTrace} {message : String}

/-! ### The engine -/

/-- Somebody whom a run has called has broken down with this message. -/
inductive Undone (e : Engine) (command : Command) (t : RunTrace) (message : String) : Prop where
  | guard {check : Command → Reaction (Except GuardError GuardDecision)} (hg : e.guard = some (.asking check))
    (hx : ⟨.note (.guardChecked command.prompt), ()⟩ ∈ t) (he : (check command).ending = .faults message)
  | hook {h : Hook} {answer : HookContext → Reaction (Except HookError Verdict)} (hh : h ∈ e.hooks)
    (hb : h.beforeStart = some answer) (hx : ⟨.note (.beforeStart h.name (hookContext command)), ()⟩ ∈ t)
    (he : (answer (hookContext command)).ending = .faults message)
  | load {answer : Reaction (Except StoreError (List Message))} (hx : ⟨.load command, answer⟩ ∈ t)
    (he : answer.ending = .faults message)
  | save {messages : List Message} {answer : Reaction (Except StoreError Unit)}
    (hx : ⟨.save command messages, answer⟩ ∈ t) (he : answer.ending = .faults message)
  | retriever {retrieve : String → Reaction (Except RetrievalError String)} {query : String}
    (hr : e.retriever = some retrieve) (hx : ⟨.note (.retrieved query), ()⟩ ∈ t)
    (he : (retrieve query).ending = .faults message)
  | provider {request : Request} {answer : Reaction (Except ProviderError Reply)} (hx : ⟨.ask request, answer⟩ ∈ t)
    (he : answer.ending = .faults message)

private theorem breaksOnly_checkGuard : BreaksOnly (e.Undone command) t (e.checkGuard command) := by
  unfold checkGuard
  split
  · trivial
  · trivial
  · rename_i check hg
    refine fun _ => (breaksOnly_react fun message he => .guard hg (by simp) he).bind fun u answer => ?_
    split <;> trivial

private theorem breaksOnly_admission : BreaksOnly (e.Undone command) t (e.admission command) := by
  refine breaksOnly_checkGuard.bind fun u r => ?_
  split
  · trivial
  · refine (HookChain.breaksOnly_firstVerdict fun ask hask v => ?_).bind fun v verdict => ?_
    · obtain ⟨h, hh, hsome⟩ := List.mem_filterMap.1 hask
      obtain ⟨answer, hb, rfl⟩ := Option.map_eq_some_iff.1 hsome
      exact fun _ => breaksOnly_react fun message he => .hook hh hb (by simp) he
    · split <;> trivial

private theorem breaksOnly_history : BreaksOnly (e.Undone command) t (e.history command) := by
  unfold history
  split
  · trivial
  · split
    · trivial
    · refine fun answer => (breaksOnly_react fun message he => .load (by simp) he).bind fun u loaded => ?_
      cases loaded <;> trivial

private theorem breaksOnly_systemPrompt (system query : String) :
    BreaksOnly (e.Undone command) t (e.systemPrompt system query) := by
  unfold systemPrompt
  split
  · rename_i retrieve hr
    split
    · trivial
    · refine fun _ => (breaksOnly_react fun message he => .retriever hr (by simp) he).bind fun u answer => ?_
      split
      · split <;> trivial
      · trivial
  · trivial

private theorem breaksOnly_keep (outcome : Outcome) : BreaksOnly (e.Undone command) t (e.keep command outcome) := by
  unfold keep
  split
  · trivial
  · split
    · refine fun answer => (breaksOnly_react fun message he => ?_).bind fun u _ => trivial
      exact .save (List.mem_append_right _ (List.mem_singleton.2 rfl)) he
    · trivial

private theorem breaksOnly_settle (r : Except RunError Outcome) :
    BreaksOnly (e.Undone command) t (e.settle command r) := by
  cases r with
  | error => trivial
  | ok outcome => exact (breaksOnly_keep outcome).bind fun u _ => trivial

private theorem breaksOnly_run (e : Engine) (command : Command) (streams : Bool) :
    BreaksOnly (e.Undone command) [] (e.run command streams) := by
  have hask (u : RunTrace) (request : Request) (answer : Reaction (Except ProviderError Reply)) (message : String)
      (he : answer.ending = .faults message) : e.Undone command (u ++ [⟨.ask request, answer⟩]) message := by
    have hx : ⟨.ask request, answer⟩ ∈ u ++ [⟨.ask request, answer⟩] := by simp
    exact .provider hx he
  have hconverse : BreaksOnly (e.Undone command) [] (e.converse command streams) := by
    refine breaksOnly_admission.bind fun u r => ?_
    split
    · trivial
    · refine breaksOnly_history.bind fun v history => (breaksOnly_systemPrompt ..).bind fun w system => ?_
      exact Loop.breaksOnly_turns hask e.config.retry.exists_delay ..
  exact hconverse.bind fun u r => breaksOnly_settle r

/-- A run breaks down only if somebody does whom it has called, whatever the settings are. -/
private theorem undone_of_leads (h : Leads (e.run command streams) t (.fault message)) : e.Undone command t message :=
  (e.breaksOnly_run command streams).of_leads h

/-! ### Whatever the settings are -/

variable {s₀ s : Service} {course : List (Nat × RunTrace)} {place : Nat} {inv₀ : Invocation}

/-- How an invocation ends that has had these effects: with a result, unless somebody whom it has called has broken
down, or a hook when it was told of the result. -/
inductive Ends (e : Engine) (command : Command) (t : RunTrace) : Stage → Prop where
  | finished {report : Report} {ended : Nat} : Ends e command t (.finished report ended)
  | undone {message : String} {ended : Nat} (h : e.Undone command t message) :
    Ends e command t (.broken message ended none)
  | balked {message : String} {ended : Nat} {report : Report}
    (h : HookChain.Balks e.hooks (hookContext command) report.result) :
    Ends e command t (.broken message ended (some report))

/-- In the end every invocation has a result, unless somebody whom it has called has broken down. -/
theorem ends_of_advance (hi : s₀.invocations[place]? = some inv₀) (hd : inv₀.stage = .dormant)
    (h : Course e s₀ course s) : ∃ more inv, Course e s₀ (course ++ more) (e.advance always s) ∧
      (e.advance always s).invocations[place]? = some inv ∧
      e.Ends inv₀.command (traceOf (course ++ more) place) inv.stage := by
  obtain ⟨more, inv, hcourse, hinv, hover⟩ := over_of_advance hi hd h
  refine ⟨more, inv, hcourse, hinv, ?_⟩
  generalize inv.stage = stage at hover ⊢
  cases hover with
  | finished => exact .finished
  | faulted hl => exact .undone (undone_of_leads hl)
  | balked hb => exact .balked hb

private theorem deadline_le (e : Engine) :
    e.deadline.nanoseconds ≤ (Span.ofSeconds Config.maxTimeoutSeconds.toNat).nanoseconds :=
  Nat.min_le_right ..

/-- No setting breaks the engine. -/
structure Robust (e : Engine) : Prop where
  /-- It can be built. -/
  opens (store : Store) : ∃ s, e.open? store = some s
  /-- A run has a deadline within a day, -/
  deadline : e.deadline.nanoseconds ≤ (Span.ofSeconds Config.maxTimeoutSeconds.toNat).nanoseconds
  /-- random words spread a delay by a fraction of it, -/
  jitter : 0 ≤ e.config.retry.policy.effectiveJitter ∧ e.config.retry.policy.effectiveJitter ≤ 1
  /-- the product in seconds is a number that is neither negative nor too large, -/
  product (attempt : UInt32) (draw : UInt64) : ∃ m n, FloatFormat.double.roundRat
    (e.config.retry.policy.spread draw * RetryPolicy.inSeconds (e.config.retry.policy.baseDelay attempt)) =
      .finite false m n ∧ (m : Rat) * 2 ^ n ≤ 2 ^ 58
  /-- so that there is a delay before every retry, -/
  delay (attempt : UInt32) (draw : UInt64) :
    ∃ delay, e.config.retry.policy.jitteredDelay? attempt draw = some delay
  /-- and in the end every invocation has a result, unless somebody whom it has called has broken down. -/
  ends {s₀ s : Service} {course : List (Nat × RunTrace)} {place : Nat} {inv₀ : Invocation}
    (hi : s₀.invocations[place]? = some inv₀) (hd : inv₀.stage = .dormant) (h : Course e s₀ course s) :
    ∃ more inv, Course e s₀ (course ++ more) (e.advance always s) ∧
      (e.advance always s).invocations[place]? = some inv ∧
      e.Ends inv₀.command (traceOf (course ++ more) place) inv.stage

private theorem open?_isSome_iff (e : Engine) (store : Store) :
    (∃ s, e.open? store = some s) ↔ max e.config.maxConcurrent.toNat 1 ≤ 2 ^ 61 - 1 := by
  have hpermits : e.isBuildable = decide (max e.config.maxConcurrent.toNat 1 ≤ 2 ^ 61 - 1) := rfl
  rw [open?, hpermits]
  split_ifs with h
  · simpa using h
  · simpa using h

/-- No setting breaks an engine but the number of runs at a time, and that only if there are more than a pool can
hold. -/
theorem robust_iff (e : Engine) : e.Robust ↔ max e.config.maxConcurrent.toNat 1 ≤ 2 ^ 61 - 1 := by
  constructor
  · intro h
    exact (e.open?_isSome_iff { kind := .forgetful }).1 (h.opens _)
  · intro h
    constructor
    case opens => exact fun store => (e.open?_isSome_iff store).2 h
    case deadline => exact e.deadline_le
    case jitter => exact ⟨RetryPolicy.effectiveJitter_nonneg _, RetryPolicy.effectiveJitter_le_one _⟩
    case product => exact e.config.retry.spread_delay
    case delay => exact e.config.retry.exists_delay
    case ends => exact ends_of_advance

/-- An engine whose settings are all in range, with more permits than a pool can hold. -/
def crowded : Engine where
  provider := { reply := fun _ _ => .now (.ok (.whole ⟨.ofAssistant "hello", none, "m"⟩)) }
  config := { maxConcurrent := 2305843009213693952 }

theorem not_robust_crowded : crowded.config.fault? = none ∧ ¬ crowded.Robust := by
  refine ⟨by decide +kernel, fun h => ?_⟩
  obtain ⟨s, hs⟩ := h.opens { kind := .forgetful }
  cases hs

end Engine

end AgentLoop
