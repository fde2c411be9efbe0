import AgentLoop.Proofs.Account
import AgentLoop.Proofs.Consultation

/-!
# Admission fails closed

A command that is refused has no effect but the questions up to the refusal, and comes back as a refusal.  Whoever
sends anything to the model was allowed in by everybody before, and whatever is sent or shown after that has the prompt
it was let in with.
-/

namespace AgentLoop

open Process

namespace Window

/-- Trimming does not lose the last user message. -/
private theorem trim_user (w : Window) (system : String) {older newer : List Message} {user : Message}
    (hu : user.role = .user) (hr : ∀ m ∈ newer, m.role ≠ .user) :
    ∃ kept kept', (w.trim system (older ++ user :: newer)).messages = kept ++ user :: kept' ∧ kept' <:+ newer := by
  obtain ⟨before, others, hsplit, -, hothers⟩ :=
    List.map_eq_append_iff.1 (Item.map_message_ofMessages (older ++ user :: newer))
  obtain ⟨current, after, rfl, hcurrent, hafter⟩ := List.map_eq_cons_iff.1 hothers
  have hrole : ∀ i ∈ after, i.message.role ≠ .user := fun i hi => hr _ (hafter ▸ List.mem_map_of_mem hi)
  obtain ⟨us, vs, -, hvs, hkeep, -⟩ := keep_append (w.budget system) before (hcurrent ▸ hu) hrole
  refine ⟨us.flatten.map (·.message), vs.flatten.map (·.message), ?_, ?_⟩
  · simp only [trim, Trimmed.messages, hsplit, hkeep, List.map_append, List.map_cons, hcurrent]
  · exact hafter ▸ (MessageUnit.flatten_suffix hvs).map _

end Window

namespace Loop

/-- The user's message of a run is the last one in each of its requests. -/
private theorem InTurn.user {l : Loop} {input : LoopInput} {t since : RunTrace} {rounds : List ToolRound}
    {request : Request}
    (h : l.InTurn input t rounds since request) (hu : input.user.role = .user) :
    ∃ older newer, request.messages = older ++ input.user :: newer ∧ ∀ m ∈ newer, m.role ≠ .user := by
  obtain ⟨arrived, k, s, -, hs, rfl, -⟩ := h
  have hrole : ∀ m ∈ ToolRound.conversation rounds, m.role ≠ .user := fun _ => ToolRound.role_ne_user
  obtain ⟨older, newer, hm, hn⟩ : ∃ older newer, (l.window.trim input.system
      (input.history ++ input.user :: ToolRound.conversation rounds)).messages = older ++ input.user :: newer ∧
        newer <:+ ToolRound.conversation rounds := l.window.trim_user input.system hu hrole
  refine ⟨older, newer, ?_, fun m hm' => hrole m (hn.mem hm')⟩
  rw [request, hs.messages, hm]

end Loop

namespace Question

/-- Asking sends nothing to the model. -/
private theorem not_mem_trace {asked : List Question} {request : Request}
    {answer : Reaction (Except ProviderError Reply)} :
    ⟨.ask request, answer⟩ ∉ trace asked := by
  intro h
  obtain ⟨q, -, hq⟩ := List.mem_map.1 h
  cases hq

end Question

namespace Engine

variable {e : Engine} {s₀ s : Service} {course : List (Nat × RunTrace)} {place : Nat} {inv₀ inv : Invocation}
  {command : Command} {streams : Bool} {asked : List Question} {prompt reason category : String} {t : RunTrace}

/-! ### Refusals -/

/-- A refused command has some of its questions asked, and all of them before it comes back. -/
private theorem Refuses.trace (h : e.Refuses command asked reason category)
    {rest : RunProcess (Except RunError Outcome)}
    (hl : Leads (e.run command streams) t rest) :
    ∃ posed, posed <+: asked ∧ t = Question.trace posed ∧ ∀ ending : Ending (Except RunError Outcome),
      rest = ending.rest → posed = asked ∧ ending = .returns (.error (.rejected reason category)) := by
  rw [h.run_eq] at hl
  obtain ⟨posed, hs, ht, hr⟩ | ⟨more, rfl, hmore⟩ := Question.leads_before hl
  · exact ⟨posed, hs, ht, fun ending he => absurd he (hr ending)⟩
  · cases hmore
    refine ⟨asked, List.prefix_refl _, List.append_nil _, fun ending he => ⟨rfl, ?_⟩⟩
    cases ending <;> cases he
    rfl

/-- What is known in a course of an invocation whose command is refused. -/
structure TurnedAway (e : Engine) (s₀ : Service) (course : List (Nat × RunTrace)) (place : Nat) (inv₀ : Invocation)
    (asked : List Question) (reason category : String) (s : Service) : Prop where
  /-- Its run is the questions up to the refusal, -/
  run : e.run inv₀.command inv₀.streams = Question.before (.done (.error (.rejected reason category))) asked
  /-- so it does nothing but ask them, -/
  asks : ∃ posed, posed <+: asked ∧ traceOf course place = Question.trace posed
  /-- nothing goes into its feed but the mark of its failure, -/
  feed {inv : Invocation} (hi : s.invocations[place]? = some inv) :
    ∃ marks, inv₀.feed.Grown marks inv.feed ∧ Marked inv marks
  /-- and its result is the refusal, unless it is cut before that. -/
  result {inv : Invocation} {report : Report} (hi : s.invocations[place]? = some inv)
    (hr : inv.stage.report? = some report) :
    (traceOf course place = Question.trace asked ∧ ∃ now, Moment e s₀ course place now ∧
      report.result = .failure .rejected ("Rejected (" ++ category ++ "): " ++ reason) (spent now inv₀)) ∨
    CutShort e s₀ course place inv₀ report
  /-- In the end there is a result. -/
  comes : ∃ inv report, (e.advance always s).invocations[place]? = some inv ∧ inv.stage.report? = some report

private theorem Refuses.turnedAway (hr : e.Refuses inv₀.command asked reason category)
    (hi : s₀.invocations[place]? = some inv₀) (hd : inv₀.stage = .dormant) (h : Course e s₀ course s) :
    e.TurnedAway s₀ course place inv₀ asked reason category s := by
  obtain ⟨inv, hinv, ha⟩ := account_course hi hd h
  obtain ⟨rest, hl⟩ := ha.reached.leads
  obtain ⟨asks, hprefix, htrace, -⟩ := hr.trace hl
  refine ⟨hr.run_eq _, ⟨asks, hprefix, htrace⟩, fun {other} ho => ?_, fun {other report} ho hreport => ?_, ?_⟩
  · obtain rfl := Option.some.inj (hinv.symm.trans ho)
    have hnone : RunTrace.deltas (traceOf course place) = [] := by
      rw [htrace, RunTrace.deltas, Question.trace, List.filterMap_map]
      exact List.filterMap_eq_nil_iff.2 fun _ _ => rfl
    simpa [hnone] using ha.feed
  · obtain rfl := Option.some.inj (hinv.symm.trans ho)
    cases ha.reached.attained_of_report? hreport with
    | @returned now r hm hl =>
      obtain ⟨all, -, ht, hend⟩ := hr.trace hl
      obtain ⟨rfl, hreturns⟩ := hend (.returns r) rfl
      obtain rfl : r = .error (.rejected reason category) := by simpa using hreturns
      exact .inl ⟨ht, now, hm, rfl⟩
    | cut _ hc => exact .inr hc
  · obtain ⟨more, inv', -, hinv', hover⟩ := over_of_advance hi hd h
    refine ⟨inv', ?_⟩
    generalize inv'.stage = stage at hover
    cases hover with
    | finished | balked => exact ⟨_, hinv', rfl⟩
    | faulted hfault =>
      obtain ⟨all, -, -, hend⟩ := hr.trace hfault
      have hreturns := (hend (.faults _) rfl).2
      cases hreturns

/-! ### Attempts -/

/-- What is known in a trace of a request that was sent after some of it: with these questions everybody has let the
command in before, and it has gone on with this prompt. -/
structure LetIn (e : Engine) (command : Command) (streams : Bool) (trace earlier : RunTrace) (request : Request)
    (asked : List Question) (prompt : String) : Prop where
  admits : e.Admits command asked prompt
  /-- The run has waited for the last answer. -/
  run : e.run command streams =
    Question.before (e.proceed command streams ⟨prompt, command.metadata⟩ >>= e.settle command) asked
  asked : Question.trace asked <+: earlier
  /-- The prompt is the last message of the user, -/
  user : ∃ older newer, request.messages = older ++ .ofUser prompt :: newer ∧ ∀ m ∈ newer, m.role ≠ .user
  /-- the query of the retrieval, -/
  query {query : String} (h : ⟨.note (.retrieved query), ()⟩ ∈ trace) : query = prompt
  /-- and what the hooks around tool calls see. -/
  before {hook : String} {context : HookContext} {call : ToolCall}
    (h : ⟨.note (.beforeToolCall hook context call), ()⟩ ∈ trace) : context = ⟨prompt, command.metadata⟩
  after {hook : String} {context : HookContext} {call : ToolCall} {result : ToolResult}
    (h : ⟨.note (.afterToolCall hook context call result), ()⟩ ∈ trace) : context = ⟨prompt, command.metadata⟩

/-- What is asked of the model, a conversation may ask. -/
def askContract (e : Engine) (command : Command) (streams : Bool) : Contract runEffects :=
  .ofAllows fun t effect => ∀ request, effect = .ask request → e.converseAllows command streams t (.ask request)

private theorem keeps_run_asks (e : Engine) (command : Command) (streams : Bool) :
    Keeps (e.askContract command streams) (fun _ _ => True) [] (e.run command streams) := by
  rw [run_eq]
  refine keeps_bind.2 ((e.keeps_converse command streams).mono (fun _ _ ha _ he => he ▸ ha) (fun _ _ => id) id
    fun _ r _ => ?_)
  exact keeps_settle trivial (fun _ _ _ _ he => nomatch he) e command r

/-- What sees the prompt of an admitted command up to its end. -/
private theorem shows_admitted (e : Engine) (command : Command) (streams : Bool) (context : HookContext) :
    Keeps (showContract context) (fun _ _ => True) [] (e.proceed command streams context >>= e.settle command) := by
  refine keeps_bind.2 ((e.shows_proceed command streams context).imp fun _ r _ => ?_)
  exact keeps_settle trivial (fun _ _ _ _ he => nomatch he) e command r

/-- Only an admitted command comes to ask for anything, and only when all its questions are answered. -/
private theorem admits_of_asked {rest : RunProcess (Except RunError Outcome)} {request : Request}
    {answer : Reaction (Except ProviderError Reply)} (hl : Leads (e.run command streams) t rest)
    (hx : ⟨.ask request, answer⟩ ∈ t) :
    ∃ asked prompt more, e.Admits command asked prompt ∧ t = Question.trace asked ++ more ∧
      Leads (e.proceed command streams ⟨prompt, command.metadata⟩ >>= e.settle command) more rest := by
  obtain ⟨asked, reason, category, hr⟩ | ⟨asked, prompt, ha⟩ | ⟨asked, hs⟩ := received e command
  · obtain ⟨posed, -, rfl, -⟩ := hr.trace hl
    exact absurd hx Question.not_mem_trace
  · rw [ha.run_eq] at hl
    obtain ⟨posed, -, rfl, -⟩ | ⟨more, ht, hmore⟩ := Question.leads_before hl
    · exact absurd hx Question.not_mem_trace
    · exact ⟨asked, prompt, more, ha, ht, hmore⟩
  · obtain ⟨p, hrun, hp⟩ := hs.run_eq streams
    rw [hrun] at hl
    obtain ⟨posed, -, rfl, -⟩ | ⟨more, rfl, hmore⟩ := Question.leads_before hl
    · exact absurd hx Question.not_mem_trace
    · obtain rfl | ⟨message, rfl⟩ := hp
      all_goals
        cases hmore
        rw [List.append_nil] at hx
        exact absurd hx Question.not_mem_trace

/-- Before a run, only the guard and the hooks are asked. -/
private theorem Admits.isQuestion (h : e.Admits command asked prompt) : ∀ q ∈ asked,
    (∃ prompt, q.entry = .guardChecked prompt) ∨ ∃ hook context, q.entry = .beforeStart hook context := by
  have questions (hooks : List Hook) : ∀ q ∈ e.questions command hooks,
      (∃ prompt, q.entry = .guardChecked prompt) ∨ ∃ hook context, q.entry = .beforeStart hook context := by
    intro q hq
    rcases List.mem_append.1 hq with hq | hq
    · unfold guardQuestions at hq
      split at hq
      · cases hq
      · cases hq
      · exact .inl ⟨command.prompt, by rw [List.mem_singleton.1 hq]⟩
    · obtain ⟨h, -, hh⟩ := List.mem_filterMap.1 hq
      obtain ⟨answer, -, rfl⟩ := Option.map_eq_some_iff.1 hh
      exact .inr ⟨_, _, rfl⟩
  cases h with
  | unchanged => exact questions _
  | modified => exact questions _

private theorem letIn_of_leads {rest : RunProcess (Except RunError Outcome)} {earlier later : RunTrace}
    {request : Request}
    {answer : Reaction (Except ProviderError Reply)}
    (hl : Leads (e.run command streams) (earlier ++ ⟨.ask request, answer⟩ :: later) rest) :
    ∃ asked prompt, e.LetIn command streams (earlier ++ ⟨.ask request, answer⟩ :: later) earlier request asked prompt := by
  obtain ⟨asked, prompt, more, ha, ht, hmore⟩ := admits_of_asked hl (List.mem_append_right _ (List.mem_cons_self ..))
  obtain ⟨before, since, input, -, hfrom, rounds, since', hturn, -⟩ :=
    (e.keeps_run_asks command streams).allows_of_leads hl (fun _ _ => trivial) request rfl
  have huser : input.user = .ofUser prompt := by rw [hfrom.user, ha.promptOf]
  -- the questions end before the first request
  have hasked : Question.trace asked <+: earlier := by
    obtain ⟨u, hu, hrest⟩ | ⟨u, hu, -⟩ := List.append_eq_append_iff.1 ht
    · cases u with
      | nil => exact ⟨[], by rw [hu, List.append_nil, List.append_nil]⟩
      | cons x u =>
        obtain ⟨rfl, -⟩ := List.cons.inj hrest
        exact absurd (hu ▸ List.mem_append_right _ (List.mem_cons_self ..)) Question.not_mem_trace
    · exact ⟨u, hu.symm⟩
  have hshows {entry : Entry} (hx : ⟨.note entry, ()⟩ ∈ earlier ++ ⟨.ask request, answer⟩ :: later) :
      ((∃ prompt, entry = .guardChecked prompt) ∨ ∃ hook context, entry = .beforeStart hook context) ∨
        entry.Shows ⟨prompt, command.metadata⟩ := by
    rw [ht] at hx
    rcases List.mem_append.1 hx with hx | hx
    · obtain ⟨q, hq, he⟩ := List.mem_map.1 hx
      cases he
      exact .inl (ha.isQuestion q hq)
    · obtain ⟨u, v, rfl⟩ := List.append_of_mem hx
      exact .inr ((e.shows_admitted command streams _).allows_of_leads hmore (fun _ _ => trivial) entry rfl)
  refine ⟨asked, prompt, ha, ha.run_eq streams, hasked, ?_, fun hx => ?_, fun hx => ?_, fun hx => ?_⟩
  · rw [← huser]
    exact hturn.user (by rw [huser]; rfl)
  all_goals
    obtain (⟨_, h⟩ | ⟨_, _, h⟩) | h := hshows hx
    · cases h
    · cases h
    · exact h

/-! ### Every invocation -/

/-- What is known in a course of the admission of an invocation. -/
structure Guarded (e : Engine) (s₀ : Service) (course : List (Nat × RunTrace)) (place : Nat) (inv₀ : Invocation)
    (s : Service) : Prop where
  refused {asked : List Question} {reason category : String} (hr : e.Refuses inv₀.command asked reason category) :
    e.TurnedAway s₀ course place inv₀ asked reason category s
  attempted {earlier later : RunTrace} {request : Request} {answer : Reaction (Except ProviderError Reply)}
    (ht : traceOf course place = earlier ++ ⟨.ask request, answer⟩ :: later) :
    ∃ asked prompt, e.LetIn inv₀.command inv₀.streams (traceOf course place) earlier request asked prompt

/-- Whatever else happens to a service, an invocation that begins in it is refused without any effect if the guard or
the first hook with a word of its own refuses it, and otherwise sends nothing to the model before everybody has let it
in. -/
theorem course_guarded (hi : s₀.invocations[place]? = some inv₀) (hd : inv₀.stage = .dormant)
    (h : Course e s₀ course s) : e.Guarded s₀ course place inv₀ s := by
  refine ⟨fun hr => hr.turnedAway hi hd h, fun ht => ?_⟩
  obtain ⟨inv, -, ha⟩ := account_course hi hd h
  obtain ⟨rest, hl⟩ := ha.reached.leads
  rw [ht] at hl ⊢
  exact letIn_of_leads hl

/-- An engine whose second hook refuses everything, in words that sound like something else. -/
def bouncer : Engine where
  provider := { reply := fun _ _ => .now (.ok (.whole ⟨.ofAssistant "hello", none, "m"⟩)) }
  config := { defaultTemperature := .finite false 0 0 }
  guard := some (.asking fun _ => .now (.ok .allow))
  hooks :=
    [{ name := "open", beforeStart := some fun _ => .now (.ok .proceed) },
     { name := "strict", beforeStart := some fun _ => .now (.ok (.reject "the tool timed out")) },
     { name := "late", beforeStart := some fun _ => .now (.ok .proceed) }]

def caller : Invocation where
  command := { prompt := "hi" }
  token := 0
  start := 0
  deadline := 1000

def lobby : Service where
  free := 1
  invocations := [caller]

private theorem refuses_bouncer : bouncer.Refuses caller.command
    [⟨.guardChecked "hi", 0⟩, ⟨.beforeStart "open" ⟨"hi", []⟩, 0⟩, ⟨.beforeStart "strict" ⟨"hi", []⟩, 0⟩]
    "the tool timed out" "hook" := by
  have hh : bouncer.hooks = [bouncer.hooks[0]] ++ bouncer.hooks[1] :: [bouncer.hooks[2]] := rfl
  have hp : bouncer.Passes caller.command [bouncer.hooks[0]] := ⟨rfl, fun h hm => List.mem_singleton.1 hm ▸ rfl⟩
  exact .hook hh hp rfl (.rejects _)

theorem course_guarded_bouncer : (∃ asked, bouncer.Refuses caller.command asked "the tool timed out" "hook") ∧
    lobby.invocations[0]? = some caller ∧ caller.stage = .dormant ∧
    ∃ course s inv report, Course bouncer lobby course s ∧ s.invocations[0]? = some inv ∧
      inv.stage.report? = some report ∧ report.result.code = some .rejected ∧
      Guarded bouncer lobby course 0 caller s := by
  have hcode : ((bouncer.stepAt? lobby ⟨0, 0, 0⟩).bind fun s => s.invocations[0]?.bind fun inv =>
      inv.stage.report?.bind (·.result.code)) = some .rejected := by decide +kernel
  obtain ⟨s, hstep, hs⟩ := Option.bind_eq_some_iff.1 hcode
  obtain ⟨inv, hinv, hs⟩ := Option.bind_eq_some_iff.1 hs
  obtain ⟨report, hreport, hcode⟩ := Option.bind_eq_some_iff.1 hs
  have h := Course.opened.stepped hstep
  exact ⟨⟨_, refuses_bouncer⟩, rfl, rfl, _, s, inv, report, h, hinv, hreport, hcode, course_guarded rfl rfl h⟩

end Engine

end AgentLoop
