import AgentLoop.Proofs.Consumption

/-!
# What the reader of a stream gets

Whoever reads a stream to its end gets what the run has handed out, and after it the mark of the failure if the
invocation has failed.  What the run hands out is what the streams of the model say as far as they are consumed, turn
after turn.  An answer is what the last of them said.  An error that arrives on one of them is the end of the run: what
was said before it stays with the reader, and the model is not asked again.
-/

namespace AgentLoop

open Process

namespace Feed

/-- A reader who stays gets everything that is put into an empty feed. -/
private theorem Grown.taken {f g : Feed} {more : List String} (h : f.Grown more g) (hd : f.deltas = [])
    (hr : f.readAt = [])
    (ht : f.consumer.take = none) : g.taken.map (·.1) = more := by
  have hdeltas : g.deltas = more := by rw [h.deltas, hd, List.nil_append]
  have hlength : g.readAt.length = more.length := by rw [h.readAt, hr, List.length_nil, Nat.zero_add]
  unfold Feed.taken
  rw [h.take, ht]
  dsimp only
  rw [List.map_fst_zip (Nat.le_of_eq (by rw [hdeltas, hlength])), hdeltas]

end Feed

namespace Invocation

/-- A streamed invocation that has not begun, with a reader who stays to the end. -/
structure Followed (inv : Invocation) : Prop where
  dormant : inv.stage = .dormant
  streams : inv.streams = true
  deltas : inv.feed.deltas = []
  readAt : inv.feed.readAt = []
  stays : inv.feed.consumer.take = none

/-- The mark of a failure, once all is over. -/
def marks (inv : Invocation) : List String :=
  match inv.stage with
  | .finished report _ => (report.result.error.map fun error => errorMarker error.code error.message).toList
  | _ => []

end Invocation

private theorem Marked.eq_marks {inv : Invocation} {marks : List String} (h : Marked inv marks)
    (hs : inv.streams = true)
    (ht : inv.feed.consumer.take = none) : marks = inv.marks := by
  unfold Invocation.marks
  cases h with
  | marked h he =>
    rw [h]
    dsimp only
    rw [he]
    rfl
  | unmarked h =>
    split
    · rename_i report ended hstage
      cases he : report.result.error with
      | none => rfl
      | some error => exact absurd ht (h report ended error hstage hs he)
    · rfl

namespace Engine

open RunTrace StreamItem

variable {e : Engine} {s₀ s : Service} {course : List (Nat × RunTrace)} {place : Nat} {inv₀ inv : Invocation}
  {command : Command} {report : Report}

/-- A result is a success or has an error. -/
private theorem Attained.success_eq (h : Attained e s₀ course place inv report) :
    report.result.success = report.result.error.isNone := by
  have failed (error : RunError) (duration : Span) :
      (failure error duration).success = (failure error duration).error.isNone := by
    unfold failure
    split <;> rfl
  cases h with
  | @returned now r _ _ =>
    cases r with
    | ok => rfl
    | error error => exact failed ..
  | cut _ hc =>
    cases hc with
    | cancelled => exact failed ..
    | timedOut => rfl

/-- After a stream that has not come to its proper end the model is not asked again. -/
private theorem asked_eq_zero_of_leads {rest : RunProcess (Except RunError Outcome)} {earlier later : RunTrace}
    {x : Exchange runEffects} {items : List (Nat × StreamItem)}
    (hl : Leads (e.run command true) (earlier ++ x :: later) rest) (ha : Attended (earlier ++ x :: later))
    (hx : x.items? = some items) (hf : fate items ≠ .complete) : asked later = 0 := by
  refine List.countP_eq_zero.2 fun ⟨f, answer⟩ hy hask => ?_
  cases f with
  | ask request =>
    obtain ⟨mid, rest, rfl⟩ := List.append_of_mem hy
    rw [← List.cons_append, ← List.append_assoc] at hl ha
    -- it is only asked when all streams before have come to their ends
    have hsettled : Settled ([] ++ (earlier ++ x :: mid)) :=
      ((e.listens_run command).keeps.allows_of_leads hl
        (answered_of_attended fun room hr => ha room (List.mem_append_left _ hr))).1
    exact hf (hsettled.complete items (List.mem_filterMap.2 ⟨x, by simp, hx⟩))
  | _ => cases hask

/-- A run that comes to an end after a stream that failed ends with its error, and all that was said before is handed
out. -/
private theorem HeardOut.interrupted {t : RunTrace} {r : Except RunError Outcome} {items : List (Nat × StreamItem)}
    {error : ProviderError} (h : e.HeardOut command t r) (hl : (opened t).getLast? = some items)
    (hf : fate items = .fails error) : r = .error (.provider error) ∧ Consuming t items (heard items) := by
  have unsettled (hs : Settled t) : False := by
    have := hs.complete items (List.mem_of_getLast? hl)
    rw [hf] at this
    cases this
  have hears := h.hears
  cases r with
  | ok outcome =>
    obtain ⟨ha⟩ := hears
    exact (unsettled ha.settled).elim
  | error failure =>
    cases hears with
    | fails hs => exact (unsettled hs).elim
    | interrupted hc hf' =>
      obtain rfl := Option.some.inj (hc.getLast?.symm.trans hl)
      cases hf'.symm.trans hf
      exact ⟨rfl, hc⟩

/-- What is known in a course of a streamed invocation with a reader who stays to the end. -/
structure ReadOut (e : Engine) (s₀ : Service) (course : List (Nat × RunTrace)) (place : Nat) (inv₀ : Invocation)
    (s : Service) : Prop where
  /-- The reader gets what the run hands out, and then the mark if it is over with a failure. -/
  taken {inv : Invocation} (hi : s.invocations[place]? = some inv) :
    inv.feed.taken.map (·.1) = deltas (traceOf course place) ++ inv.marks
  /-- A result is a failure exactly if it has the error of which the mark tells. -/
  success_eq {inv : Invocation} {report : Report} (hi : s.invocations[place]? = some inv)
    (hr : inv.stage.report? = some report) : report.result.success = report.result.error.isNone
  /-- What the run hands out is what the streams say, each as far as it is consumed. -/
  heard : Heard (traceOf course place)
  /-- Wherever the run is at rest, it has handed out all that it has read, or waits for the room to do so. -/
  awaits {rest : RunProcess (Except RunError Outcome)}
    (hl : Leads (e.run inv₀.command inv₀.streams) (traceOf course place) rest) (hr : rest.AtRest) :
    Awaits (traceOf course place) rest
  /-- After a stream that has not come to its proper end the model is not asked again. -/
  last {earlier later : RunTrace} {x : Exchange runEffects} {items : List (Nat × StreamItem)}
    (ht : traceOf course place = earlier ++ x :: later) (hx : x.items? = some items) (hf : fate items ≠ .complete) :
    asked later = 0
  /-- Unless it is cut short, an invocation comes to the result of its run, -/
  result {inv : Invocation} {report : Report} (hi : s.invocations[place]? = some inv)
    (hr : inv.stage.report? = some report) :
    (∃ now r, Moment e s₀ course place now ∧ report = reportOf now inv₀ r ∧
      Hears (traceOf course place) (r.map (·.answer))) ∨ CutShort e s₀ course place inv₀ report
  /-- which is the error of the last stream if that has failed. -/
  interrupted {inv : Invocation} {report : Report} (hi : s.invocations[place]? = some inv)
    (hr : inv.stage.report? = some report) {items : List (Nat × StreamItem)} {error : ProviderError}
    (hl : (opened (traceOf course place)).getLast? = some items) (hf : fate items = .fails error) :
    (∃ now, Moment e s₀ course place now ∧ report = reportOf now inv₀ (.error (.provider error)) ∧
      Consuming (traceOf course place) items (StreamItem.heard items)) ∨ CutShort e s₀ course place inv₀ report
  /-- What the last stream says is the answer of a success, which is kept if anything is. -/
  answer {inv : Invocation} {report : Report} (hi : s.invocations[place]? = some inv)
    (hr : inv.stage.report? = some report) (hs : report.result.success = true) :
    ∃ text, report.result.content = some text ∧ Answers (traceOf course place) text ∧ (e.keepsHistory = true →
      ∃ answer, ⟨.save inv₀.command (e.turnOf inv₀.command text), answer⟩ ∈ traceOf course place)
  /-- In the end it is over, unless its run has broken down, or a hook when it was told of the result. -/
  ends : ∃ more inv, Course e s₀ (course ++ more) (e.advance always s) ∧
    (e.advance always s).invocations[place]? = some inv ∧ Over e s₀ (course ++ more) place inv₀ inv.stage

theorem CutShort.success_eq_false (h : CutShort e s₀ course place inv report) : report.result.success = false := by
  cases h with
  | cancelled => exact success_failure ..
  | timedOut => rfl

/-- Whatever else happens to a service, whoever reads a stream that begins in it to the end gets what the model says, as
far as it is listened to, and exactly one mark in the end if the invocation has failed. -/
theorem course_readOut (hi : s₀.invocations[place]? = some inv₀) (hf : inv₀.Followed) (h : Course e s₀ course s) :
    e.ReadOut s₀ course place inv₀ s := by
  obtain ⟨inv, hinv, ha⟩ := account_course hi hf.dormant h
  obtain ⟨rest, hl⟩ := ha.reached.leads
  have hattended := ha.attended hf.stays
  rw [hf.streams] at hl
  have only {other : Invocation} (ho : s.invocations[place]? = some other) : inv = other :=
    Option.some.inj (hinv.symm.trans ho)
  -- a result comes from what the run has returned, or from the cut
  have hout {other : Invocation} {report : Report} (ho : s.invocations[place]? = some other)
      (hr : other.stage.report? = some report) :
      (∃ now r, Moment e s₀ course place now ∧ report = reportOf now inv₀ r ∧
        e.HeardOut inv₀.command (traceOf course place) r) ∨ CutShort e s₀ course place inv₀ report := by
    obtain rfl := only ho
    cases ha.reached.attained_of_report? hr with
    | returned hm hl =>
      rw [hf.streams] at hl
      exact .inl ⟨_, _, hm, rfl, heardOut_of_leads hl hattended⟩
    | cut _ hc => exact .inr hc
  constructor
  case taken =>
    intro other ho
    obtain rfl := only ho
    obtain ⟨marks, hg, hm⟩ := ha.feed
    rw [hg.taken hf.deltas hf.readAt hf.stays,
      hm.eq_marks (ha.kin.streams.trans hf.streams) (hg.take.trans hf.stays)]
  case success_eq =>
    intro other report ho hr
    obtain rfl := only ho
    exact (ha.reached.attained_of_report? hr).success_eq
  case heard => exact heard_of_leads hl hattended
  case awaits =>
    intro rest hl hr
    rw [hf.streams] at hl
    exact awaits_of_leads hl hattended hr
  case last =>
    intro earlier later x items ht hx hfate
    rw [ht] at hl hattended
    exact asked_eq_zero_of_leads hl hattended hx hfate
  case result =>
    intro other report ho hr
    exact (hout ho hr).imp_left fun ⟨now, r, hm, he, hh⟩ => ⟨now, r, hm, he, hh.hears⟩
  case interrupted =>
    intro other report ho hr items error hlast hfate
    refine (hout ho hr).imp_left fun ⟨now, r, hm, he, hh⟩ => ?_
    obtain ⟨rfl, hc⟩ := hh.interrupted hlast hfate
    exact ⟨now, hm, he, hc⟩
  case answer =>
    intro other report ho hr hs
    obtain ⟨now, r, -, rfl, hh⟩ | hc := hout ho hr
    · cases r with
      | error failure => cases (success_failure ..).symm.trans hs
      | ok outcome =>
        obtain ⟨hears, hkept⟩ := hh
        obtain ⟨htext⟩ := hears
        exact ⟨outcome.answer, rfl, htext, hkept rfl⟩
    · cases hc.success_eq_false.symm.trans hs
  case ends => exact over_of_advance hi hf.dormant h

/-- An engine whose model breaks off in the middle of a word. -/
def stammerer : Engine where
  provider.reply _ _ := .now (.ok (.stream
    [(0, .chunk { content := some "he" }), (0, .chunk {}), (0, .failure (.rateLimited 5)),
      (0, .chunk { content := some "llo", done := true })]))
  config := { defaultTemperature := .finite false 0 0 }

def follower : Invocation where
  command := { prompt := "hi" }
  streams := true
  token := 0
  start := 0
  deadline := 1000
  feed := { capacity := some 1 }

def platform : Service where
  free := 1
  invocations := [follower]

theorem course_readOut_stammerer : platform.invocations[0]? = some follower ∧ follower.Followed ∧
    ∃ course s inv, Course stammerer platform course s ∧ s.invocations[0]? = some inv ∧
      inv.feed.taken.map (·.1) = ["he", "[ERROR RATE_LIMITED] Provider error: Rate limited by provider, retry after 5s"] ∧
      ReadOut stammerer platform course 0 follower s := by
  have htaken : ((stammerer.stepAt? platform ⟨0, 0, 0⟩).bind fun s => (stammerer.stepAt? s ⟨0, 1, 0⟩).bind fun s =>
      s.invocations[0]?.map fun inv => inv.feed.taken.map (·.1)) =
        some ["he", "[ERROR RATE_LIMITED] Provider error: Rate limited by provider, retry after 5s"] := by decide +kernel
  obtain ⟨s, hs, htaken⟩ := Option.bind_eq_some_iff.1 htaken
  obtain ⟨t, ht, htaken⟩ := Option.bind_eq_some_iff.1 htaken
  obtain ⟨inv, hinv, htaken⟩ := Option.map_eq_some_iff.1 htaken
  have h := (Course.opened.stepped hs).stepped ht
  have hf : follower.Followed := ⟨rfl, rfl, rfl, rfl, rfl⟩
  exact ⟨rfl, hf, _, t, inv, h, hinv, htaken, course_readOut rfl hf h⟩

end Engine

end AgentLoop
