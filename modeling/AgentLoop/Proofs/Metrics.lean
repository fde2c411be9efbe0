import AgentLoop.Proofs.Chronicle
import AgentLoop.Proofs.Reading
import AgentLoop.Proofs.Records

/-!
# The metrics of an invocation

What an invocation records agrees with the result that it returns.  The last event tells how it ended, and it is the
only one that does.  A failure counts nothing.  A success counts what was noted on the way: one note for each reply of
the model and so for each of its messages in the transcript, the tokens and the usage of all replies as far as a word
can hold their sums, and every tool call that the transcript has.
-/

namespace AgentLoop

open Process RunTrace ToolRound

/-- An event that tells how an invocation ended. -/
def Event.isCompletion : Event → Bool
  | .executionCompleted .. => true
  | _ => false

/-! ### Sums that stop at the greatest word -/

/-- The greatest word. -/
abbrev maxWord : Nat := UInt32.size - 1

private theorem toNat_le_maxWord (n : UInt32) : n.toNat ≤ maxWord := by
  have hlt := n.toNat_lt
  unfold maxWord UInt32.size
  omega

namespace Usage

/-- One of the numbers of usage. -/
structure Part (f : Usage → UInt32) : Prop where
  zero : f {} = 0
  accumulate (u v : Usage) : f (u.accumulate v) = addCapped (f u) (f v)

private theorem part_prompt : Part (·.prompt) := ⟨rfl, fun _ _ => rfl⟩

private theorem part_completion : Part (·.completion) := ⟨rfl, fun _ _ => rfl⟩

private theorem part_total : Part (·.total) := ⟨rfl, fun _ _ => rfl⟩

private theorem toNat_foldl {f : Usage → UInt32} (hf : Part f) (us : List Usage) (u : Usage) :
    (f (us.foldl accumulate u)).toNat = min ((f u).toNat + Tokens.total (us.map fun v => (f v).toNat)) maxWord := by
  induction us generalizing u with
  | nil =>
    have hle := toNat_le_maxWord (f u)
    simp only [List.foldl_nil, List.map_nil, Tokens.total]
    omega
  | cons v us ih =>
    have hsum : (f (u.accumulate v)).toNat = min ((f u).toNat + (f v).toNat) maxWord := by
      rw [hf.accumulate, toNat_addCapped]
    rw [List.foldl_cons, ih, hsum, List.map_cons, Tokens.total]
    -- what was cut off once stays cut off
    omega

end Usage

namespace Reply

/-- A number of the usage that a reply reports, if it reports any. -/
def reported (f : Usage → UInt32) (reply : Reply) : Nat := (reply.usage.map fun u => (f u).toNat).getD 0

/-- The tokens of a reply by its own account. -/
def tokens (reply : Reply) : UInt32 := (reply.usage.map (·.total)).getD 0

private theorem toNat_tokens (reply : Reply) : reply.tokens.toNat = reply.reported (·.total) := by
  unfold tokens reported
  cases reply.usage <;> rfl

end Reply

namespace TurnTaken

/-- The usage of some turns is the sum of what their replies report, as far as a word can hold it. -/
private theorem toNat_usage {f : Usage → UInt32} (hf : Usage.Part f) (turns : List TurnTaken) :
    (f (usage turns)).toNat = min (Tokens.total (turns.map fun turn => turn.reply.reported f)) maxWord := by
  have hsum : Tokens.total ((turns.filterMap (·.reply.usage)).map fun v => (f v).toNat) =
      Tokens.total (turns.map fun turn => turn.reply.reported f) := by
    induction turns with
    | nil => rfl
    | cons turn turns ih =>
      cases hu : turn.reply.usage with
      | none => simpa [hu, Tokens.total, Reply.reported] using ih
      | some u => simpa [hu, Tokens.total, Reply.reported] using ih
  have hzero : (f {}).toNat = 0 := by
    rw [hf.zero]
    rfl
  rw [usage, Usage.toNat_foldl hf, hsum, hzero, Nat.zero_add]

end TurnTaken

/-! ### The messages of the model -/

namespace Message

/-- How many messages are the model's. -/
def spoken (ms : List Message) : Nat := ms.countP fun m => m.role == .assistant

/-- How many tool calls the messages of the model ask for. -/
def called (ms : List Message) : Nat := Tokens.total ((ms.filter fun m => m.role == .assistant).map (·.calls.length))

private theorem spoken_append (ms ns : List Message) :
    spoken (ms ++ ns) = spoken ms + spoken ns := List.countP_append ..

private theorem called_append (ms ns : List Message) : called (ms ++ ns) = called ms + called ns := by
  simp [called, Tokens.total_append]

end Message

namespace ToolRound

/-- A round has one message of the model, with all its calls. -/
private theorem spoken_messages (r : ToolRound) :
    Message.spoken r.messages = 1 ∧ Message.called r.messages = r.calls.length := by
  have hresults : ∀ m ∈ r.results.map fun result => Message.ofResult result.callId result.output,
      (m.role == .assistant) = false := by
    intro m hm
    obtain ⟨result, -, rfl⟩ := List.mem_map.1 hm
    rfl
  have hcount : (r.results.map fun result => Message.ofResult result.callId result.output).countP
      (fun m => m.role == .assistant) = 0 := by
    rw [List.countP_eq_zero]
    intro m hm
    simp [hresults m hm]
  have hfilter : (r.results.map fun result => Message.ofResult result.callId result.output).filter
      (fun m => m.role == .assistant) = [] := by
    rw [List.filter_eq_nil_iff]
    intro m hm
    simp [hresults m hm]
  have hfirst : ((Message.ofCalls r.text r.calls).role == .assistant) = true := rfl
  constructor
  · rw [messages, Message.spoken, List.countP_cons, hcount, hfirst]
    rfl
  · rw [messages, Message.called, List.filter_cons, hfilter, hfirst]
    rfl

private theorem spoken_conversation (rounds : List ToolRound) :
    Message.spoken (conversation rounds) = rounds.length ∧ Message.called (conversation rounds) = requested rounds := by
  induction rounds with
  | nil => exact ⟨rfl, rfl⟩
  | cons r rounds ih =>
    have hcons : conversation (r :: rounds) = r.messages ++ conversation rounds := rfl
    have hcounted : requested (r :: rounds) = r.calls.length + requested rounds := rfl
    obtain ⟨hspoken, hcalled⟩ := r.spoken_messages
    constructor
    · rw [hcons, Message.spoken_append, hspoken, ih.1, List.length_cons]
      omega
    · rw [hcons, Message.called_append, hcalled, ih.2, hcounted]

end ToolRound

namespace Loop

variable {l : Loop} {input : LoopInput} {t : RunTrace} {outcome : Outcome} {turns : List TurnTaken}
  {rounds : List ToolRound}

/-- The transcript has one message of the model for each turn, and all the calls that were counted. -/
private theorem Chronicle.spoken (h : l.Chronicle input t outcome turns rounds) (hu : input.user.role = .user) :
    Message.spoken outcome.transcript = turns.length ∧ Message.called outcome.transcript = outcome.toolCalls := by
  have huser : Message.spoken [input.user] = 0 ∧ Message.called [input.user] = 0 := by
    simp [Message.spoken, Message.called, hu, Tokens.total]
  have hanswer : Message.spoken [.ofAssistant outcome.answer] = 1 ∧ Message.called [.ofAssistant outcome.answer] = 0 :=
    ⟨rfl, rfl⟩
  have htranscript : outcome.transcript =
      [input.user] ++ conversation rounds ++ [.ofAssistant outcome.answer] := h.transcript
  obtain ⟨hspoken, hcalled⟩ := spoken_conversation rounds
  constructor
  · rw [htranscript, Message.spoken_append, Message.spoken_append, huser.1, hspoken, hanswer.1, h.length]
    omega
  · rw [htranscript, Message.called_append, Message.called_append, huser.2, hcalled, hanswer.2, h.toolCalls]
    omega

end Loop

/-! ### Runs of an engine -/

namespace Engine

variable {e : Engine} {s₀ s : Service} {course : List (Nat × RunTrace)} {records : List (Nat × Journal)} {place : Nat}
  {inv₀ inv : Invocation} {command : Command} {streams : Bool} {t : RunTrace} {outcome : Outcome} {report : Report}

private theorem heeds_of_aside {α : Type} {p q : RunProcess α} {u : RunTrace} {post : RunTrace → α → Prop}
    (h : Keeps asideContract post u p) (hl : Leads p t q) : Heeds t [] [] [] := by
  refine heeds_beside fun x hx => ?_
  obtain ⟨v, w, rfl⟩ := List.append_of_mem hx
  obtain ⟨hask, hevent⟩ := h.allows_of_leads hl fun _ _ => trivial
  obtain ⟨f, answer⟩ := x
  cases f with
  | ask => cases hask
  | note entry =>
    cases entry with
    | event event => exact absurd rfl (hevent event)
    | _ => rfl
  | _ => rfl

private theorem aside_admission (u : RunTrace) (entry : Entry) (he : entry.isAdmission = true) :
    asideContract.allows u (.note entry) := by
  refine ⟨rfl, fun event h => ?_⟩
  cases h
  cases he

/-- A run that succeeds is the chronicle of its loop; the model is not heard of before or after. -/
private theorem chronicle_of_run (hl : Leads (e.run command streams) t (done (.ok outcome))) :
    ∃ input u turns rounds, input.user.role = .user ∧ (e.loop command streams).Chronicle input u outcome turns rounds ∧
      Heeds t (TurnTaken.sent turns) (turns.map (·.reply)) ((e.loop command streams).notes turns) := by
  rw [run_eq] at hl
  obtain ⟨r, t, after, rfl, hconverse, hsettle⟩ := leads_bind_done hl
  have hkeeps : Keeps asideContract (fun _ _ => True) [] (e.settle command r) :=
    keeps_settle (c := asideContract) trivial (fun _ _ _ => ⟨rfl, fun _ h => nomatch h⟩) e command r
  have hafter := heeds_of_aside hkeeps hsettle
  cases r with
  | error failure => cases hsettle
  | ok outcome' =>
    have houtcome : outcome' = outcome := by
      obtain ⟨_, _, _, -, -, hdone⟩ := leads_bind_done hsettle
      cases hdone
      rfl
    subst houtcome
    obtain ⟨r, t, u, rfl, hadmission, hu⟩ := leads_bind_done hconverse
    have hadmitted := heeds_of_aside (prelude_admission (c := asideContract) (t := []) trivial aside_admission) hadmission
    cases r with
    | error refusal => cases hu
    | ok context =>
      obtain ⟨history, u, v, rfl, hhistory, hv⟩ := leads_bind_done hu
      obtain ⟨system, v, w, rfl, hsystem, hw⟩ := leads_bind_done hv
      have hlooked := heeds_of_aside
        (prelude_history (c := asideContract) (t := []) trivial fun _ _ => ⟨rfl, fun _ h => nomatch h⟩) hhistory
      have hretrieved := heeds_of_aside
        (prelude_systemPrompt (c := asideContract) (t := []) trivial fun _ => ⟨rfl, fun _ h => nomatch h⟩) hsystem
      obtain ⟨turns, rounds, hchronicle⟩ := Loop.chronicle_run hw
      refine ⟨_, w, turns, rounds, rfl, hchronicle, ?_⟩
      have hall := (hadmitted.append (hlooked.append (hretrieved.append hchronicle.heeds))).append hafter
      simpa using hall

/-- No run says of itself that it is over. -/
private theorem Spoken.not_isCompletion (h : e.Spoken command streams t) :
    ∀ event ∈ RunTrace.events t, event.isCompletion = false := by
  intro event hevent
  obtain ⟨x, hx, he⟩ := List.mem_filterMap.1 hevent
  rw [Exchange.event?_eq] at he
  obtain ⟨entry, hentry, hrecords⟩ := Option.bind_eq_some_iff.1 he
  have hopen := h.isClosing hx entry hentry
  cases entry with
  | event other =>
    obtain rfl := Option.some.inj hrecords
    cases other with
    | executionCompleted => cases hopen
    | _ => rfl
  | _ => cases hrecords

/-- A result that is not a success has nothing in it but its error. -/
private theorem Attained.failed (h : Attained e s₀ course place inv report) (hs : report.result.success = false) :
    ∃ code message duration, report = ⟨.failure code message duration, 0⟩ := by
  have failed (error : RunError) (duration : Span) :
      ∃ code message, failure error duration = .failure code message duration := by
    unfold failure
    split
    · exact ⟨_, _, rfl⟩
    · exact ⟨_, _, rfl⟩
  cases h with
  | @returned now r _ _ =>
    cases r with
    | ok outcome => cases hs
    | error error =>
      obtain ⟨code, message, he⟩ := failed error (spent now inv)
      exact ⟨code, message, _, by rw [reportOf, he]⟩
  | cut _ hc =>
    cases hc with
    | @cancelled now =>
      obtain ⟨code, message, he⟩ := failed .cancelled (spent now inv)
      exact ⟨code, message, _, by rw [reportOf, he]⟩
    | timedOut => exact ⟨_, _, _, rfl⟩

/-- A success is what its run has returned. -/
private theorem Attained.returns (h : Attained e s₀ course place inv report) (hs : report.result.success = true) :
    ∃ now outcome, report = reportOf now inv (.ok outcome) ∧
      Leads (e.run inv.command inv.streams) (traceOf course place) (done (.ok outcome)) := by
  cases h with
  | @returned now r _ hl =>
    cases r with
    | ok outcome => exact ⟨now, outcome, rfl, hl⟩
    | error error => cases (success_failure ..).symm.trans hs
  | cut _ hc => cases hc.success_eq_false.symm.trans hs

/-- What a successful result counts is what was noted on the way and what the replies of the model reported. -/
structure Reconciled (t : RunTrace) (report : Report) : Prop where
  /-- Every reply was noted once, with its tokens, and nothing else was. -/
  generated : RunTrace.generated t = (replies t).map (·.tokens)
  /-- Each note belongs to one message of the model. -/
  spoken : (RunTrace.generated t).length = Message.spoken report.result.messages
  tokens : report.result.usage.total.toNat = min (Tokens.total ((RunTrace.generated t).map (·.toNat))) maxWord
  prompt : report.result.usage.prompt.toNat = min (Tokens.total ((replies t).map (·.reported (·.prompt)))) maxWord
  completion : report.result.usage.completion.toNat =
    min (Tokens.total ((replies t).map (·.reported (·.completion)))) maxWord
  total : report.result.usage.total.toNat = min (Tokens.total ((replies t).map (·.reported (·.total)))) maxWord
  toolCalls : report.toolCalls = Message.called report.result.messages
  /-- This is the number that is recorded in 32 bits if there are few enough calls. -/
  fits (h : Message.called report.result.messages < UInt32.size) :
    (UInt32.ofNat report.toolCalls).toNat = Message.called report.result.messages

private theorem reconciled_of_run (hr : e.recordsEvents = true)
    (hl : Leads (e.run command streams) t (done (.ok outcome)))
    {duration : Span} : Reconciled t ⟨success outcome duration, outcome.toolCalls⟩ := by
  obtain ⟨input, u, turns, rounds, huser, hchronicle, hheeds⟩ := chronicle_of_run hl
  obtain ⟨hspoken, hcalled⟩ := hchronicle.spoken huser
  have hgenerated : generated t = turns.map (·.tokens) := by
    rw [hheeds.generated, Loop.notes]
    exact if_pos hr
  have hreported {f : Usage → UInt32} (hf : Usage.Part f) :
      (f outcome.usage).toNat = min (Tokens.total ((replies t).map (·.reported f))) maxWord := by
    rw [hchronicle.usage, TurnTaken.toNat_usage hf, hheeds.replies, List.map_map]
    rfl
  constructor
  case generated =>
    rw [hgenerated, hheeds.replies, List.map_map]
    rfl
  case spoken =>
    rw [hgenerated, List.length_map]
    exact hspoken.symm
  case tokens =>
    have htokens : (RunTrace.generated t).map (·.toNat) = (replies t).map (·.reported (·.total)) := by
      rw [hgenerated, hheeds.replies, List.map_map, List.map_map]
      exact List.map_congr_left fun turn _ => turn.reply.toNat_tokens
    rw [htokens]
    exact hreported Usage.part_total
  case prompt => exact hreported Usage.part_prompt
  case completion => exact hreported Usage.part_completion
  case total => exact hreported Usage.part_total
  case toolCalls => exact hcalled.symm
  case fits =>
    intro h
    have hfits : outcome.toolCalls < UInt32.size := hcalled ▸ h
    exact (UInt32.toNat_ofNat_of_lt hfits).trans hcalled.symm

/-- What an invocation records in a course of an engine with metrics, and what that has to do with its result. -/
structure Metered (e : Engine) (s₀ : Service) (course : List (Nat × RunTrace)) (records : List (Nat × Journal))
    (place : Nat) (inv₀ : Invocation) (s : Service) : Prop where
  /-- Everything in the journal is written in somebody's step. -/
  journal : s.world.journal = s₀.world.journal ++ records.flatMap (·.2)
  /-- The run itself never records that it is over. -/
  running : ∀ event ∈ RunTrace.events (traceOf course place), event.isCompletion = false
  /-- Before all hooks have been told, or have had their time, there are only the events of the run. -/
  before {inv : Invocation} (hi : s.invocations[place]? = some inv)
    (hm : ∀ report ended due, inv.stage ≠ .marking report ended due)
    (hf : ∀ report ended, inv.stage ≠ .finished report ended) :
    Journal.events (recordOf records place) = RunTrace.events (traceOf course place)
  /-- Once it is over one more event has been recorded, the last one, which tells the result that is returned. -/
  finished {inv : Invocation} {report : Report} {ended : Nat} (hi : s.invocations[place]? = some inv)
    (hf : inv.stage = .finished report ended) :
    Journal.events (recordOf records place) = RunTrace.events (traceOf course place) ++
      [.executionCompleted report.result.success report.result.code (.ofNat report.toolCalls) report.result.usage.total
        (.ofNat report.result.duration.milliseconds)]
  succeeded {inv : Invocation} {report : Report} (hi : s.invocations[place]? = some inv)
    (hr : inv.stage.report? = some report) (hs : report.result.success = true) :
    Reconciled (traceOf course place) report
  /-- A failure has an error and nothing else, and no calls are counted for it. -/
  failed {inv : Invocation} {report : Report} (hi : s.invocations[place]? = some inv)
    (hr : inv.stage.report? = some report) (hs : report.result.success = false) :
    ∃ code message duration, report = ⟨.failure code message duration, 0⟩
  /-- In the end it is over, unless somebody it has called has broken down. -/
  ends : ∃ more others inv, Recorded e s₀ (course ++ more) (records ++ others) (e.advance always s) ∧
    (e.advance always s).invocations[place]? = some inv ∧ Over e s₀ (course ++ more) place inv₀ inv.stage

/-- Whatever else happens to a service, what an invocation that begins in it records agrees with its result: of all its
events exactly one, the last, says how it ended, and the others account for what a success counts. -/
theorem course_metered (hm : e.recordsEvents = true) (hi : s₀.invocations[place]? = some inv₀)
    (hd : inv₀.stage = .dormant) (h : Recorded e s₀ course records s) :
    e.Metered s₀ course records place inv₀ s := by
  obtain ⟨inv, hinv, haccount⟩ := account_course hi hd h.toCourse
  obtain ⟨inv', hinv', hevents⟩ := h.events hi hd
  obtain rfl : inv = inv' := Option.some.inj (hinv.symm.trans hinv')
  have only {other : Invocation} (ho : s.invocations[place]? = some other) : inv = other :=
    Option.some.inj (hinv.symm.trans ho)
  constructor
  case journal => exact h.journal
  case running =>
    obtain ⟨rest, hl⟩ := haccount.reached.leads
    exact (spoken_of_leads hl).not_isCompletion
  case before =>
    intro other ho hmarking hfinished
    obtain rfl := only ho
    have hlast : e.lastEvents inv.stage = [] := by
      cases hstage : inv.stage with
      | marking report ended due => exact absurd hstage (hmarking report ended due)
      | finished report ended => exact absurd hstage (hfinished report ended)
      | _ => rfl
    rw [hevents, hlast, List.append_nil]
  case finished =>
    intro other report ended ho hstage
    obtain rfl := only ho
    have hlast : e.lastEvents inv.stage = [completed report.result report.toolCalls] := by
      rw [hstage, lastEvents, completion, if_pos hm]
    rw [hevents, hlast]
    rfl
  case succeeded =>
    intro other report ho hreport hs
    obtain rfl := only ho
    obtain ⟨now, outcome, rfl, hl⟩ := (haccount.reached.attained_of_report? hreport).returns hs
    exact reconciled_of_run hm hl
  case failed =>
    intro other report ho hreport hs
    obtain rfl := only ho
    exact (haccount.reached.attained_of_report? hreport).failed hs
  case ends =>
    obtain ⟨more, others, hrecorded⟩ := recorded_advance always h
    obtain ⟨last, hlast, hover⟩ := over_of_course hi hd hrecorded.toCourse
    exact ⟨more, others, last, hrecorded, hlast, hover⟩

/-- An engine whose model says what its greeting has cost. -/
def billed : Engine where
  provider := { reply := fun _ _ => .now (.ok (.whole ⟨.ofAssistant "hello", some ⟨3, 2, 5⟩, "m"⟩)) }
  config := { defaultTemperature := .finite false 0 0 }

def billedService : Service where
  invocations := [{ command := { prompt := "hi" }, token := 0, start := 0, deadline := 1000 }]
  free := 1

theorem course_metered_billed : billed.recordsEvents = true ∧ ∃ inv₀ course records s,
    billedService.invocations[0]? = some inv₀ ∧ inv₀.stage = .dormant ∧
      Recorded billed billedService course records s ∧
      Journal.events (recordOf records 0) =
        [.responseGenerated "m" 5, .executionCompleted true none 0 5 0] ∧
      billed.Metered billedService course records 0 inv₀ s := by
  have hs : (billed.stepAt? billedService ⟨0, 0, 0⟩).isSome = true := by decide +kernel
  obtain ⟨s, hstep⟩ := Option.isSome_iff_exists.1 hs
  have h : Recorded billed billedService _ _ s := Recorded.opened.stepped hstep
  refine ⟨rfl, _, _, _, s, rfl, rfl, h, ?_, course_metered rfl rfl rfl h⟩
  have hs : s = (billed.stepAt? billedService ⟨0, 0, 0⟩).getD billedService := by rw [hstep, Option.getD_some]
  rw [hs]
  decide +kernel

end Engine

end AgentLoop
