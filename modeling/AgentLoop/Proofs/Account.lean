import AgentLoop.Proofs.Memory
import AgentLoop.Proofs.Onward
import AgentLoop.Proofs.Telling

/-!
# The account of an invocation

Whatever else happens to a service, what becomes of an invocation is told by what it has done itself.  `Becomes` lists
what a step may make of it.  Along a course, `Account` says what its stage has to do with its run, how it has come to
its result, and that its feed holds what the run has put there and nothing else, except for the mark that ends a failed
stream.  In the end it is over, unless somebody it has called has broken down.
-/

namespace AgentLoop

open Process

/-! ### Feeds -/

namespace Feed

/-- `g` is `f` with these deltas put into it. -/
structure Grown (f : Feed) (more : List String) (g : Feed) : Prop where
  capacity : g.capacity = f.capacity
  consumer : g.consumer = f.consumer
  start : g.start = f.start
  deltas : g.deltas = f.deltas ++ more
  readAt : g.readAt.length = f.readAt.length + more.length

theorem Grown.refl (f : Feed) : f.Grown [] f := ⟨rfl, rfl, rfl, (List.append_nil _).symm, rfl⟩

theorem Grown.trans {f g h : Feed} {more others : List String} (hf : f.Grown more g) (hg : g.Grown others h) :
    f.Grown (more ++ others) h where
  capacity := hg.capacity.trans hf.capacity
  consumer := hg.consumer.trans hf.consumer
  start := hg.start.trans hf.start
  deltas := by rw [hg.deltas, hf.deltas, List.append_assoc]
  readAt := by rw [hg.readAt, hf.readAt, List.length_append, Nat.add_assoc]

theorem grown_put (f : Feed) (now : Nat) (delta : String) : f.Grown [delta] (f.put now delta) :=
  ⟨rfl, rfl, rfl, rfl, List.length_append⟩

theorem Grown.take {f g : Feed} {more : List String} (h : f.Grown more g) : g.consumer.take = f.consumer.take :=
  congrArg Consumer.take h.consumer

/-- A consumer that reads on is never gone. -/
theorem room_ne_gone {f : Feed} (h : f.consumer.take = none) (now : Nat) : f.room now ≠ .gone := by
  have hdrops : f.dropsAt = none := by simp [dropsAt, h]
  unfold room
  rw [hdrops, Option.any_none, if_neg Bool.false_ne_true]
  repeat' split
  all_goals exact fun h => nomatch h

end Feed

namespace RunTrace

/-- The deltas that were put into the feed. -/
def deltas (t : RunTrace) : List String :=
  t.filterMap fun x =>
    match x.1 with
    | .put delta => some delta
    | _ => none

theorem deltas_append (t u : RunTrace) : deltas (t ++ u) = deltas t ++ deltas u := List.filterMap_append ..

/-- Whenever there was to be another delta, the consumer was still there. -/
def Attended (t : RunTrace) : Prop := ∀ room, ⟨.room, room⟩ ∈ t → room ≠ .gone

end RunTrace

namespace Process

variable {α : Type} {partners : Partners} {limit : Option Nat}

private theorem grown_perform (partners : Partners) (e : Effect) (s : Scene) :
    s.feed.Grown (RunTrace.deltas [⟨e, (e.perform partners s).1⟩]) (e.perform partners s).2.feed := by
  cases e with
  | put delta => exact Feed.grown_put ..
  | _ => exact .refl _

/-- The feed grows by what the exchanges put there. -/
private theorem grown_play (partners : Partners) (limit : Option Nat) (p : RunProcess α) (s : Scene) :
    s.feed.Grown (RunTrace.deltas (p.exchanges partners limit s)) (p.play partners limit s).2.feed := by
  induction p generalizing s with
  | done | fault | hang => exact .refl _
  | act e next ih =>
    have h := (grown_perform partners e s).trans (ih (e.perform partners s).1 (e.perform partners s).2)
    rw [← RunTrace.deltas_append] at h
    exact h
  | wait n next ih =>
    unfold exchanges play
    split
    · exact ih _
    · dsimp only
      split
      · exact .refl _
      · exact ih (s.atTime (s.world.now + n))
  | yield next ih =>
    unfold exchanges play
    split
    · exact .refl _
    · exact ih _

private theorem attended_exchanges (p : RunProcess α) {s : Scene} (h : s.feed.consumer.take = none) :
    RunTrace.Attended (p.exchanges partners limit s) := by
  induction p generalizing s with
  | done | fault | hang => simp [exchanges, RunTrace.Attended]
  | act e next ih =>
    have hrest := ih (e.perform partners s).1 ((grown_perform partners e s).take.trans h)
    intro room hx
    rcases List.mem_cons.1 hx with hx | hx
    · cases hx
      exact Feed.room_ne_gone h _
    · exact hrest room hx
  | wait n next ih =>
    unfold exchanges
    split
    · exact ih h
    · split
      · simp [RunTrace.Attended]
      · exact ih (s := s.atTime _) h
  | yield next ih =>
    unfold exchanges
    split
    · simp [RunTrace.Attended]
    · exact ih h

end Process

/-! ### What a step makes of an invocation -/

/-- What stands at the end of a feed: the mark of a failure once all is over, or nothing, in a stream only if there was
no failure or its consumer would not have it. -/
inductive Marked (inv : Invocation) : List String → Prop where
  | marked {report : Report} {ended : Nat} {error : ExecutionError} (h : inv.stage = .finished report ended)
    (he : report.result.error = some error) : Marked inv [errorMarker error.code error.message]
  | unmarked (h : ∀ report ended error, inv.stage = .finished report ended → inv.streams = true →
      report.result.error = some error → inv.feed.consumer.take ≠ none) : Marked inv []

private theorem Marked.nil {inv : Invocation} {marks : List String} (h : Marked inv marks)
    (hf : ∀ report ended, inv.stage ≠ .finished report ended) : marks = [] := by
  cases h with
  | marked hs => exact absurd hs (hf _ _)
  | unmarked => rfl

private theorem marked_of_ne_finished {inv : Invocation} (h : ∀ report ended, inv.stage ≠ .finished report ended) :
    Marked inv [] :=
  .unmarked fun report ended _ hs => absurd hs (h report ended)

/-- What becomes of an invocation that closes with this result, as far as it has come with the telling. -/
inductive Closes (inv : Invocation) (report : Report) (telling : RunProcess Unit) : Invocation → Prop where
  | tells {limit : Nat} {p : Pending Unit} {u : RunTrace} (h : Leads telling u p.rest) :
    Closes inv report telling { inv with stage := .closing report limit (some p) }
  | hangs {limit : Nat} : Closes inv report telling { inv with stage := .closing report limit none }
  | breaks {message : String} {ended : Nat} {u : RunTrace} (h : Leads telling u (.fault message)) :
    Closes inv report telling { inv with stage := .broken message ended (some report) }
  | waits {ended due : Nat} : Closes inv report telling { inv with stage := .marking report ended due }
  | ends {ended : Nat} (h : inv.streams = true → ∀ error, report.result.error = some error →
      inv.feed.consumer.take ≠ none) : Closes inv report telling { inv with stage := .finished report ended }
  | marks {now ended : Nat} {error : ExecutionError} (h : report.result.error = some error) :
    Closes inv report telling
      { inv with feed := inv.feed.put now (errorMarker error.code error.message), stage := .finished report ended }

namespace Closes

variable {inv inv' : Invocation} {report : Report} {telling rest : RunProcess Unit}

theorem kin (h : Closes inv report telling inv') : inv.Kin inv' := by cases h <;> exact ⟨rfl, rfl, rfl, rfl, rfl⟩

private theorem report? (h : Closes inv report telling inv') : inv'.stage.report? = some report := by cases h <;> rfl

private theorem feed (h : Closes inv report telling inv') :
    ∃ marks, inv.feed.Grown marks inv'.feed ∧ Marked inv' marks := by
  cases h with
  | tells | hangs | breaks | waits => exact ⟨[], .refl _, marked_of_ne_finished fun _ _ h => nomatch h⟩
  | ends h =>
    refine ⟨[], .refl _, .unmarked fun _ _ error hs hstreams he => ?_⟩
    cases hs
    exact h hstreams error he
  | marks h => exact ⟨_, Feed.grown_put .., .marked rfl h⟩

/-- What is left of some telling is left of all of it. -/
private theorem of_leads (h : Closes inv report rest inv') {u : RunTrace} (hl : Leads telling u rest) :
    Closes inv report telling inv' := by
  cases h with
  | tells h => exact .tells (hl.trans h)
  | hangs => exact .hangs
  | breaks h => exact .breaks (hl.trans h)
  | waits => exact .waits
  | ends h => exact .ends h
  | marks h => exact .marks h

end Closes

namespace Engine

variable {e : Engine} {s t : Service} {place : Nat} {inv inv' : Invocation} {report : Report}

/-- An invocation that closes, or is over, with this result. -/
abbrev Closed (e : Engine) (inv : Invocation) (report : Report) (inv' : Invocation) : Prop :=
  Closes inv report (e.afterComplete inv.command report.result) inv'

private theorem Closed.told (h : e.Closed inv report inv') : e.Told inv.command inv'.stage := by
  cases h with
  | tells h => exact ⟨fun hs => (by cases hs; exact ⟨_, h⟩), (nomatch ·)⟩
  | breaks h => exact told_of_leads_fault h
  | hangs | waits | ends | marks => exact ⟨(nomatch ·), (nomatch ·)⟩

/-- Where an invocation stops that goes on with its run. -/
abbrev stopOf (e : Engine) (s : Service) (inv : Invocation) (rest : RunProcess (Except RunError Outcome)) :
    Stop (Except RunError Outcome) × Scene :=
  rest.play e.partners (some s.now) ⟨s.world, inv.feed⟩

/-- What becomes of an invocation in a step of its own. -/
inductive Becomes (e : Engine) (s : Service) (inv : Invocation) : Invocation → Prop where
  | pauses {rest rest' : RunProcess (Except RunError Outcome)} {due lap : Nat} (hg : e.goesOn? s inv = some rest)
    (hp : (e.stopOf s inv rest).1 = .paused due rest') :
    Becomes e s inv { inv with feed := (e.stopOf s inv rest).2.feed, stage := .running (some ⟨due, lap, rest'⟩) }
  | hangs {rest : RunProcess (Except RunError Outcome)} (hg : e.goesOn? s inv = some rest)
    (hp : (e.stopOf s inv rest).1 = .stuck) :
    Becomes e s inv { inv with feed := (e.stopOf s inv rest).2.feed, stage := .running none }
  | breaks {rest : RunProcess (Except RunError Outcome)} {message : String} {ended : Nat}
    (hg : e.goesOn? s inv = some rest) (hp : (e.stopOf s inv rest).1 = .broke message) :
    Becomes e s inv { inv with feed := (e.stopOf s inv rest).2.feed, stage := .broken message ended none }
  | returns {rest : RunProcess (Except RunError Outcome)} {r : Except RunError Outcome} {inv' : Invocation}
    (hg : e.goesOn? s inv = some rest) (hp : (e.stopOf s inv rest).1 = .finished r)
    (hc : e.Closed { inv with feed := (e.stopOf s inv rest).2.feed } (reportOf s inv r) inv') : Becomes e s inv inv'
  | overruns {rest : RunProcess (Except RunError Outcome)} {inv' : Invocation} (hg : e.goesOn? s inv = some rest)
    (hp : ∀ r, (e.stopOf s inv rest).1 ≠ .finished r) (hd : inv.deadline ≤ s.now)
    (hc : e.Closed { inv with feed := (e.stopOf s inv rest).2.feed } (e.timedOutReport s inv) inv') : Becomes e s inv inv'
  | cancelled {inv' : Invocation} (hg : e.goesOn? s inv = none) (hw : inv.stage.isWaiting)
    (ht : s.isCancelled inv.token) (hc : e.Closed inv (reportOf s inv (.error .cancelled)) inv') : Becomes e s inv inv'
  | timedOut {inv' : Invocation} (hg : e.goesOn? s inv = none) (hw : inv.stage.isWaiting) (hd : inv.deadline ≤ s.now)
    (hc : e.Closed inv (e.timedOutReport s inv) inv') : Becomes e s inv inv'
  | queues (hg : e.goesOn? s inv = none) (hd : inv.stage = .dormant) : Becomes e s inv { inv with stage := .queued }
  | tells {report : Report} {limit : Nat} {p : Pending Unit} {inv' : Invocation}
    (hs : inv.stage = .closing report limit (some p)) (hc : Closes inv report p.rest inv') : Becomes e s inv inv'
  | closes {report : Report} {inv' : Invocation} (hr : inv.stage.report? = some report)
    (hf : ∀ report ended, inv.stage ≠ .finished report ended) (hc : e.Closed inv report inv') : Becomes e s inv inv'

/-- A step of one invocation puts it back in its place, changed like this. -/
def Sets (place : Nat) (p : Invocation → Prop) (s t : Service) : Prop :=
  ∃ inv', t.invocations = s.invocations.set place inv' ∧ p inv'

private theorem Sets.mono {p q : Invocation → Prop} (h : Sets place p s t) (hpq : ∀ inv', p inv' → q inv') :
    Sets place q s t := by
  obtain ⟨inv', ht, hp⟩ := h
  exact ⟨inv', ht, hpq inv' hp⟩

section

variable {telling : RunProcess Unit}

private theorem sets_putMark {ended : Nat} :
    Sets place (Closes inv report telling) s (s.putMark place inv report ended) := by
  unfold Service.putMark
  split
  · rename_i herror
    exact ⟨_, rfl, .ends fun _ error he => by rw [herror] at he; cases he⟩
  · rename_i hgone _
    exact ⟨_, rfl, .ends fun _ _ _ htake => Feed.room_ne_gone htake _ hgone⟩
  · rename_i herror _
    exact ⟨_, rfl, .marks herror⟩

private theorem sets_finish : Sets place (Closes inv report telling) s (s.finish place inv report) := by
  unfold Service.finish
  split
  · exact ⟨_, rfl, .waits⟩
  · exact sets_putMark
  · rename_i hstreams
    exact ⟨_, rfl, .ends fun hs => by rw [hstreams] at hs; cases hs⟩

private theorem sets_complete : Sets place (Closes inv report telling) s (e.complete s place inv report) := by
  unfold complete
  exact sets_finish (s := { s with world := _ })

private theorem sets_close {limit : Nat} :
    Sets place (Closes inv report telling) s (e.close s place inv report limit telling) := by
  have hl := leads_play e.partners (some s.now) telling ⟨s.world, inv.feed⟩
  unfold close
  generalize telling.play e.partners (some s.now) ⟨s.world, inv.feed⟩ = result at hl
  obtain ⟨stop, scene⟩ := result
  have complete : Sets place (Closes inv report telling) s (e.complete { s with world := scene.world } place inv report) :=
    sets_complete (s := { s with world := scene.world })
  cases stop with
  | finished => exact complete
  | broke message => exact ⟨_, rfl, .breaks hl⟩
  | paused due rest =>
    dsimp only
    split
    · exact complete
    · exact ⟨_, rfl, .tells hl⟩
  | stuck =>
    dsimp only
    split
    · exact complete
    · exact ⟨_, rfl, .hangs⟩

private theorem sets_conclude : Sets place (e.Closed inv report) s (e.conclude s place inv report) := sets_close

end

private theorem reportOf_congr (h : t.now = s.now) (inv : Invocation) (r : Except RunError Outcome) :
    reportOf t inv r = reportOf s inv r := by
  cases r <;> simp only [reportOf, spent, h]

private theorem timedOutReport_congr (h : t.now = s.now) (inv : Invocation) :
    e.timedOutReport t inv = e.timedOutReport s inv := by
  simp only [timedOutReport, spent, h]

private theorem becomes_of_resume {s₁ : Service} {rest : RunProcess (Except RunError Outcome)}
    (hg : e.goesOn? s inv = some rest)
    (ha : Aside s s₁) (hi : s₁.invocations = s.invocations) :
    ∃ s₂, Beside s s₂ ∧ Sets place (Becomes e s inv) s₂ (e.resume s₁ place inv rest) := by
  obtain ⟨stop, scene, hstop⟩ : ∃ stop scene, e.stopOf s inv rest = (stop, scene) := ⟨_, _, rfl⟩
  have hstop₁ : (e.stopOf s inv rest).1 = stop := congrArg Prod.fst hstop
  have hfeed : (e.stopOf s inv rest).2 = scene := congrArg Prod.snd hstop
  have hnow : scene.world.now = s.now := hfeed ▸ now_play rest rfl
  have hr := resumed_resume e s₁ place inv rest
  rw [Service.now, ha.world] at hr
  change Resumed e s₁ place inv rest (e.stopOf s inv rest).1 (e.stopOf s inv rest).2 _ at hr
  rw [hstop] at hr
  -- the permit is kept, or goes to somebody else
  have kept : Beside s { s₁ with world := scene.world } :=
    ⟨ha.lap, ha.cancellations, fun h => .inl (hi ▸ h), by rw [← hi]⟩
  have released : Beside s { s₁ with world := scene.world }.release := ha.release hi hnow
  subst hfeed
  have hclock : Service.now { s₁ with world := (e.stopOf s inv rest).2.world } = s.now := hnow
  generalize e.resume s₁ place inv rest = t at hr
  cases hr with
  | concludes =>
    refine ⟨_, released, sets_conclude.mono fun inv' hc => .returns hg hstop₁ ?_⟩
    rwa [reportOf_congr hclock] at hc
  | breaks => exact ⟨_, released, _, rfl, .breaks hg hstop₁⟩
  | timedOut hne hd =>
    refine ⟨_, released, sets_conclude.mono fun inv' hc => .overruns hg (hstop₁ ▸ hne) (hnow ▸ hd) ?_⟩
    rwa [timedOutReport_congr hclock] at hc
  | pauses => exact ⟨_, kept, _, rfl, .pauses hg hstop₁⟩
  | hangs => exact ⟨_, kept, _, rfl, .hangs hg hstop₁⟩

/-- A step puts the invocation that takes it back in its place, and has no more to do with the others than that one of
them may get a permit. -/
theorem becomes_of_step (h : Step e s place inv t) : ∃ s₁, Beside s s₁ ∧ Sets place (Becomes e s inv) s₁ t := by
  cases h with
  | runs hg ha hi => exact becomes_of_resume hg ha hi
  | cancelled hg hw ha _ hc => exact ⟨_, ha.toBeside, sets_conclude.mono fun _ => .cancelled hg hw hc⟩
  | timedOut hg hw ha _ _ hd => exact ⟨_, ha.toBeside, sets_conclude.mono fun _ => .timedOut hg hw hd⟩
  | queues hg hd ha _ _ => exact ⟨_, ha.toBeside, _, rfl, .queues hg hd⟩
  | closes hstage => exact ⟨s, (Aside.refl s).toBeside, sets_close.mono fun _ => .tells hstage⟩
  | completes hstage =>
    exact ⟨s, (Aside.refl s).toBeside, sets_complete.mono fun _ => .closes (by rw [hstage]; rfl) (by simp [hstage])⟩
  | marks hstage =>
    exact ⟨s, (Aside.refl s).toBeside, sets_putMark.mono fun _ => .closes (by rw [hstage]; rfl) (by simp [hstage])⟩

/-! ### Along a course -/

variable {s₀ : Service} {course more : List (Nat × RunTrace)} {inv₀ : Invocation}

/-- A step of a course that an invocation is about to take, its consumer having been heard. -/
def Moment (e : Engine) (s₀ : Service) (course : List (Nat × RunTrace)) (place : Nat) (now : Service) : Prop :=
  ∃ earlier s slot inv, earlier <+: course ∧ Course e s₀ earlier s ∧ slot.place = place ∧
    s.invocations[place]? = some inv ∧ now = (s.atSlot slot).noteDrop inv

/-- The result of an invocation that is cut: its token is cancelled, or its deadline is over. -/
inductive CutShort (e : Engine) (s₀ : Service) (course : List (Nat × RunTrace)) (place : Nat) (inv : Invocation) :
    Report → Prop where
  | cancelled {now : Service} (hm : Moment e s₀ course place now) (hc : now.isCancelled inv.token) :
    CutShort e s₀ course place inv (reportOf now inv (.error .cancelled))
  | timedOut {now : Service} (hm : Moment e s₀ course place now) (hd : inv.deadline ≤ now.now) :
    CutShort e s₀ course place inv (e.timedOutReport now inv)

/-- How an invocation comes to its result: by what its run returns, or by a cut on the way. -/
inductive Attained (e : Engine) (s₀ : Service) (course : List (Nat × RunTrace)) (place : Nat) (inv : Invocation) :
    Report → Prop where
  | returned {now : Service} {r : Except RunError Outcome} (hm : Moment e s₀ course place now)
    (hl : Leads (e.run inv.command inv.streams) (traceOf course place) (.done r)) :
    Attained e s₀ course place inv (reportOf now inv r)
  | cut {report : Report} {rest : RunProcess (Except RunError Outcome)}
    (hl : Leads (e.run inv.command inv.streams) (traceOf course place) rest)
    (hc : CutShort e s₀ course place inv report) : Attained e s₀ course place inv report

/-- What the stage of an invocation says about its run. -/
inductive Reached (e : Engine) (s₀ : Service) (course : List (Nat × RunTrace)) (place : Nat) (inv : Invocation) :
    Stage → Prop where
  | fresh {stage : Stage} (h : isFresh stage) (ht : traceOf course place = []) : Reached e s₀ course place inv stage
  | pends {p : Pending (Except RunError Outcome)}
    (hl : Leads (e.run inv.command inv.streams) (traceOf course place) p.rest) :
    Reached e s₀ course place inv (.running (some p))
  | hangs (hl : Leads (e.run inv.command inv.streams) (traceOf course place) .hang) :
    Reached e s₀ course place inv (.running none)
  | breaks {message : String} {ended : Nat}
    (hl : Leads (e.run inv.command inv.streams) (traceOf course place) (.fault message)) :
    Reached e s₀ course place inv (.broken message ended none)
  | attained {stage : Stage} {report : Report} (h : stage.report? = some report)
    (ha : Attained e s₀ course place inv report) : Reached e s₀ course place inv stage

/-- What is known of an invocation in a course. -/
structure Account (e : Engine) (s₀ : Service) (course : List (Nat × RunTrace)) (place : Nat) (inv₀ inv : Invocation) :
    Prop where
  kin : inv₀.Kin inv
  reached : Reached e s₀ course place inv₀ inv.stage
  feed : ∃ marks, inv₀.feed.Grown (RunTrace.deltas (traceOf course place) ++ marks) inv.feed ∧ Marked inv marks
  told : e.Told inv₀.command inv.stage
  attended (h : inv₀.feed.consumer.take = none) : RunTrace.Attended (traceOf course place)

/-- Whatever stage it is in, a run leads where its trace says. -/
theorem Reached.leads {stage : Stage} (h : Reached e s₀ course place inv stage) :
    ∃ rest, Leads (e.run inv.command inv.streams) (traceOf course place) rest := by
  cases h with
  | fresh _ ht => exact ⟨e.run inv.command inv.streams, by rw [ht]; exact .here _⟩
  | pends hl | hangs hl | breaks hl => exact ⟨_, hl⟩
  | attained _ ha =>
    cases ha with
    | returned _ hl | cut hl => exact ⟨_, hl⟩

private theorem isWaiting_of_isFresh {stage : Stage} (h : isFresh stage) : stage.isWaiting := by
  cases stage <;> first | rfl | cases h

private theorem Reached.trace_of_isFresh {stage : Stage} (h : Reached e s₀ course place inv stage)
    (hf : isFresh stage) :
    traceOf course place = [] := by
  cases h with
  | fresh _ ht => exact ht
  | pends | hangs | breaks => cases hf
  | attained hr =>
    rw [report?_of_isWaiting (isWaiting_of_isFresh hf)] at hr
    cases hr

private theorem Reached.leads_of_running {p : Pending (Except RunError Outcome)}
    (h : Reached e s₀ course place inv (.running (some p))) :
    Leads (e.run inv.command inv.streams) (traceOf course place) p.rest := by
  cases h with
  | fresh hf => cases hf
  | pends hl => exact hl
  | attained hr => cases hr

theorem Reached.attained_of_report? {stage : Stage} (h : Reached e s₀ course place inv stage)
    (hr : stage.report? = some report) : Attained e s₀ course place inv report := by
  cases h with
  | fresh hf =>
    rw [report?_of_isWaiting (isWaiting_of_isFresh hf)] at hr
    cases hr
  | pends | hangs | breaks => cases hr
  | attained hr' ha => exact Option.some.inj (hr'.symm.trans hr) ▸ ha

private theorem Moment.mono {now : Service} (h : Moment e s₀ course place now) (hc : course <+: more) :
    Moment e s₀ more place now := by
  obtain ⟨earlier, s, slot, inv, hp, hs⟩ := h
  exact ⟨earlier, s, slot, inv, hp.trans hc, hs⟩

private theorem CutShort.mono (h : CutShort e s₀ course place inv report) (hc : course <+: more) :
    CutShort e s₀ more place inv report := by
  cases h with
  | cancelled hm ht => exact .cancelled (hm.mono hc) ht
  | timedOut hm hd => exact .timedOut (hm.mono hc) hd

private theorem Attained.mono (h : Attained e s₀ course place inv report) (hc : course <+: more)
    (ht : traceOf more place = traceOf course place) : Attained e s₀ more place inv report := by
  cases h with
  | returned hm hl => exact .returned (hm.mono hc) (ht ▸ hl)
  | cut hl h => exact .cut (ht ▸ hl) (h.mono hc)

private theorem Reached.mono {stage : Stage} (h : Reached e s₀ course place inv stage) (hc : course <+: more)
    (ht : traceOf more place = traceOf course place) : Reached e s₀ more place inv stage := by
  cases h with
  | fresh hf htrace => exact .fresh hf (ht.trans htrace)
  | pends hl => exact .pends (ht ▸ hl)
  | hangs hl => exact .hangs (ht ▸ hl)
  | breaks hl => exact .breaks (ht ▸ hl)
  | attained hr ha => exact .attained hr (ha.mono hc ht)

/-- As long as it does nothing itself, the account of an invocation stays the same. -/
private theorem Account.mono (h : Account e s₀ course place inv₀ inv) (hc : course <+: more)
    (ht : traceOf more place = traceOf course place) : Account e s₀ more place inv₀ inv :=
  ⟨h.kin, h.reached.mono hc ht, ht ▸ h.feed, h.told, ht ▸ h.attended⟩

/-- What an invocation goes on with is what its run has led to. -/
private theorem Account.goesOn {rest : RunProcess (Except RunError Outcome)} (h : Account e s₀ course place inv₀ inv)
    (hg : e.goesOn? s inv = some rest) :
    Leads (e.run inv₀.command inv₀.streams) (traceOf course place) rest ∧ inv.stage.isWaiting := by
  have hrun (hf : isFresh inv.stage) :
      Leads (e.run inv₀.command inv₀.streams) (traceOf course place) (e.run inv.command inv.streams) := by
    rw [h.reached.trace_of_isFresh hf, h.kin.command, h.kin.streams]
    exact .here _
  unfold goesOn? at hg
  split at hg
  · cases hg
  · split at hg
    · rename_i hstage
      split at hg
      · exact Option.some.inj hg ▸ ⟨hrun (by rw [hstage]; rfl), by rw [hstage]; rfl⟩
      · cases hg
    · rename_i hstage
      split at hg
      · exact Option.some.inj hg ▸ ⟨hrun (by rw [hstage]; rfl), by rw [hstage]; rfl⟩
      · cases hg
    · rename_i p hstage
      split at hg
      · exact Option.some.inj hg ▸ ⟨(hstage ▸ h.reached).leads_of_running, by rw [hstage]; rfl⟩
      · cases hg
    · cases hg

private theorem ne_finished_of_isWaiting {stage : Stage} (h : stage.isWaiting) (report : Report) (ended : Nat) :
    stage ≠ .finished report ended := by
  rintro rfl
  cases h

/-- The feed so far, as long as all is not over. -/
private theorem Account.grown (h : Account e s₀ course place inv₀ inv)
    (hf : ∀ report ended, inv.stage ≠ .finished report ended) :
    inv₀.feed.Grown (RunTrace.deltas (traceOf course place)) inv.feed := by
  obtain ⟨marks, hg, hm⟩ := h.feed
  rwa [hm.nil hf, List.append_nil] at hg

/-- What a run that goes on adds to the account. -/
private theorem Account.stopOf {rest : RunProcess (Except RunError Outcome)} (h : Account e s₀ course place inv₀ inv)
    (hg : e.goesOn? s inv = some rest) (ht : traceOf more place = traceOf course place ++ e.did s inv) :
    Leads (e.run inv₀.command inv₀.streams) (traceOf more place) (e.stopOf s inv rest).1.rest ∧
      inv₀.feed.Grown (RunTrace.deltas (traceOf more place)) (e.stopOf s inv rest).2.feed ∧
      (inv₀.feed.consumer.take = none → RunTrace.Attended (traceOf more place)) := by
  obtain ⟨hl, hw⟩ := h.goesOn hg
  have hfeed := h.grown (ne_finished_of_isWaiting hw)
  have hdid : e.did s inv = rest.exchanges e.partners (some s.now) ⟨s.world, inv.feed⟩ := by rw [did, hg]
  rw [ht, hdid, RunTrace.deltas_append]
  have hgrown := grown_play e.partners (some s.now) rest ⟨s.world, inv.feed⟩
  refine ⟨hl.trans (leads_play ..), hfeed.trans hgrown, fun htake room hx => ?_⟩
  rcases List.mem_append.1 hx with hx | hx
  · exact h.attended htake room hx
  · exact attended_exchanges rest (hfeed.take.trans htake) room hx

private theorem Closed.account {inv₁ : Invocation} (hc : e.Closed inv₁ report inv') (hk : inv₀.Kin inv₁)
    (hf : inv₀.feed.Grown (RunTrace.deltas (traceOf more place)) inv₁.feed)
    (ha : inv₀.feed.consumer.take = none → RunTrace.Attended (traceOf more place))
    (hr : Attained e s₀ more place inv₀ report) : Account e s₀ more place inv₀ inv' := by
  obtain ⟨marks, hg, hm⟩ := hc.feed
  exact ⟨hk.trans hc.kin, .attained hc.report? hr, ⟨marks, hf.trans hg, hm⟩, hk.command ▸ hc.told, ha⟩

private theorem reportOf_kin (h : inv₀.Kin inv) (s : Service) (r : Except RunError Outcome) :
    reportOf s inv r = reportOf s inv₀ r := by
  cases r <;> simp only [reportOf, spent, h.start]

private theorem timedOutReport_kin (h : inv₀.Kin inv) (s : Service) :
    e.timedOutReport s inv = e.timedOutReport s inv₀ := by
  simp only [timedOutReport, spent, h.start]

/-- The account of an invocation that has no result, so that its feed has no mark. -/
private theorem account_of_report? (hk : inv₀.Kin inv) (hs : inv.stage.report? = none)
    (hr : Reached e s₀ course place inv₀ inv.stage)
    (hf : inv₀.feed.Grown (RunTrace.deltas (traceOf course place)) inv.feed)
    (ha : inv₀.feed.consumer.take = none → RunTrace.Attended (traceOf course place)) :
    Account e s₀ course place inv₀ inv := by
  refine ⟨hk, hr, ⟨[], by rwa [List.append_nil], marked_of_ne_finished fun report ended he => ?_⟩, told_of_report? hs, ha⟩
  rw [he] at hs
  cases hs

/-- The account of an invocation after a step of its own. -/
private theorem Account.becomes (h : Account e s₀ course place inv₀ inv) (hm : Moment e s₀ more place s)
    (hc : course <+: more)
    (ht : traceOf more place = traceOf course place ++ e.did s inv) (hb : Becomes e s inv inv') :
    Account e s₀ more place inv₀ inv' := by
  -- without a run that goes on, nothing is done
  have still (hg : e.goesOn? s inv = none) : traceOf more place = traceOf course place := by
    rw [ht, did_of_none hg, List.append_nil]
  have cut {report : Report} (hg : e.goesOn? s inv = none) (hw : inv.stage.isWaiting)
      (hcl : e.Closed inv report inv') (hr : CutShort e s₀ more place inv₀ report) : Account e s₀ more place inv₀ inv' := by
    obtain ⟨rest, hl⟩ := h.reached.leads
    have hfeed := h.grown (ne_finished_of_isWaiting hw)
    rw [← still hg] at hl hfeed
    exact Closed.account hcl h.kin hfeed (still hg ▸ h.attended) (.cut hl hr)
  have closes {report : Report} (hr : inv.stage.report? = some report)
      (hf : ∀ report ended, inv.stage ≠ .finished report ended) (hcl : e.Closed inv report inv') :
      Account e s₀ more place inv₀ inv' := by
    have hg : e.goesOn? s inv = none := by
      cases hg : e.goesOn? s inv with
      | none => rfl
      | some rest =>
        rw [report?_of_isWaiting (h.goesOn hg).2] at hr
        cases hr
    have hfeed := h.grown hf
    rw [← still hg] at hfeed
    exact Closed.account hcl h.kin hfeed (still hg ▸ h.attended)
      ((h.reached.attained_of_report? hr).mono hc (still hg))
  cases hb with
  | pauses hg hp =>
    obtain ⟨hl, hf, ha⟩ := h.stopOf hg ht
    rw [hp] at hl
    exact account_of_report? (h.kin.trans ⟨rfl, rfl, rfl, rfl, rfl⟩) rfl (.pends hl) hf ha
  | hangs hg hp =>
    obtain ⟨hl, hf, ha⟩ := h.stopOf hg ht
    rw [hp] at hl
    exact account_of_report? (h.kin.trans ⟨rfl, rfl, rfl, rfl, rfl⟩) rfl (.hangs hl) hf ha
  | breaks hg hp =>
    obtain ⟨hl, hf, ha⟩ := h.stopOf hg ht
    rw [hp] at hl
    exact account_of_report? (h.kin.trans ⟨rfl, rfl, rfl, rfl, rfl⟩) rfl (.breaks hl) hf ha
  | returns hg hp hcl =>
    obtain ⟨hl, hf, ha⟩ := h.stopOf hg ht
    rw [hp] at hl
    refine Closed.account hcl (h.kin.trans ⟨rfl, rfl, rfl, rfl, rfl⟩) hf ha ?_
    rw [reportOf_kin h.kin]
    exact .returned hm hl
  | overruns hg _ hd hcl =>
    obtain ⟨hl, hf, ha⟩ := h.stopOf hg ht
    refine Closed.account hcl (h.kin.trans ⟨rfl, rfl, rfl, rfl, rfl⟩) hf ha (.cut hl ?_)
    rw [timedOutReport_kin h.kin]
    exact .timedOut hm (h.kin.deadline ▸ hd)
  | cancelled hg hw hcancelled hcl =>
    rw [reportOf_kin h.kin] at hcl
    exact cut hg hw hcl (.cancelled hm (h.kin.token ▸ hcancelled))
  | timedOut hg hw hd hcl =>
    rw [timedOutReport_kin h.kin] at hcl
    exact cut hg hw hcl (.timedOut hm (h.kin.deadline ▸ hd))
  | queues hg hd =>
    have hfeed := h.grown (by simp [hd])
    have htrace := h.reached.trace_of_isFresh (by rw [hd]; rfl)
    rw [← still hg] at hfeed htrace
    exact account_of_report? (h.kin.trans ⟨rfl, rfl, rfl, rfl, rfl⟩) rfl (.fresh rfl htrace) hfeed
      (still hg ▸ h.attended)
  | tells hs hcl =>
    obtain ⟨u, hl⟩ := h.told.closing hs
    rw [← h.kin.command] at hl
    exact closes (by rw [hs]; rfl) (by simp [hs]) (hcl.of_leads hl)
  | closes hr hf hcl => exact closes hr hf hcl

private theorem account_dormant (hd : inv₀.stage = .dormant) : Account e s₀ [] place inv₀ inv₀ :=
  account_of_report? (.refl inv₀) (by rw [hd]; rfl) (.fresh (by rw [hd]; rfl) rfl) (.refl _) fun _ _ hx => by cases hx

/-- Whatever happens to a service, what becomes of an invocation that has not begun can be accounted for. -/
theorem account_course (hi : s₀.invocations[place]? = some inv₀) (hd : inv₀.stage = .dormant)
    (h : Course e s₀ course s) : ∃ inv, s.invocations[place]? = some inv ∧ Account e s₀ course place inv₀ inv := by
  induction h with
  | opened => exact ⟨inv₀, hi, account_dormant hd⟩
  | invoked _ _ ih =>
    obtain ⟨inv, hinv, ha⟩ := ih
    exact ⟨inv, (List.getElem?_append_left (List.getElem?_eq_some_iff.1 hinv).1).trans hinv, ha⟩
  | cancelled _ _ ih | clock _ _ _ ih => exact ih
  | @stepped course s t hcourse slot hs ih =>
    obtain ⟨inv, hinv, ha⟩ := ih
    obtain ⟨other, hother, hp⟩ := Option.bind_eq_some_iff.1 hs
    have hdid : e.didAt s slot = e.did ((s.atSlot slot).noteDrop other) other := by rw [didAt, hother]
    have hsame := (s.atSlot slot).invocations_noteDrop other
    obtain ⟨s₁, hb, inv', hset, hbecomes⟩ := becomes_of_step (step_of_poll? hp)
    have hat {j : Nat} {i : Invocation} (hj : s.invocations[j]? = some i) :
        ((s.atSlot slot).noteDrop other).invocations[j]? = some i := (congrArg (·[j]?) hsame).trans hj
    by_cases hplace : slot.place = place
    · subst hplace
      obtain rfl : inv = other := Option.some.inj (hinv.symm.trans hother)
      have hlt : slot.place < s₁.invocations.length := hb.length ▸ (List.getElem?_eq_some_iff.1 (hat hinv)).1
      refine ⟨inv', by rw [hset, List.getElem?_set_self hlt], ha.becomes (s := (s.atSlot slot).noteDrop inv) ?_
        (List.prefix_append ..) ?_ hbecomes⟩
      · exact ⟨course, s, slot, inv, List.prefix_append .., hcourse, rfl, hinv, rfl⟩
      · rw [traceOf_append, if_pos rfl, hdid]
    · have htrace : traceOf (course ++ [(slot.place, e.didAt s slot)]) place = traceOf course place := by
        rw [traceOf_append, if_neg hplace, List.append_nil]
      have hmono := ha.mono (List.prefix_append course [(slot.place, e.didAt s slot)]) htrace
      rw [hset, List.getElem?_set_ne hplace]
      rcases hb.others (hat hinv) with hsame | ⟨hq, lap, hgranted⟩
      · exact ⟨inv, hsame, hmono⟩
      · have hfresh := hmono.reached.trace_of_isFresh (by rw [hq]; rfl)
        exact ⟨_, hgranted, account_of_report? (hmono.kin.trans ⟨rfl, rfl, rfl, rfl, rfl⟩) rfl (.fresh rfl hfresh)
          (hmono.grown (by simp [hq])) hmono.attended⟩

/-! ### In the end -/

/-- A service that has run on until nothing is left to do has brought every invocation to an end. -/
theorem ended_of_advance (h : (e.advance always s).invocations[place]? = some inv) :
    (∃ report ended, inv.stage = .finished report ended) ∨ ∃ message ended fixed, inv.stage = .broken message ended fixed := by
  induction s using running_on e always with
  | stop s hstop =>
    rw [advance_of_stop hstop] at h
    cases hslot : s.slot? place inv with
    | some slot =>
      obtain ⟨first, hf⟩ := Service.exists_next? h hslot
      exact absurd (hstop first hf) (by simp [always])
    | none =>
      rw [Service.slot?_eq] at hslot
      split at hslot
      all_goals cases hslot
      · exact .inl ⟨_, _, ‹_›⟩
      · exact .inr ⟨_, _, _, ‹_›⟩
  | step s slot t hn hw hs ih =>
    rw [advance_of_step hn hw hs] at h
    exact ih h

/-- How an invocation has ended: all is over, or its run has broken down, or a hook when it was told of the result. -/
inductive Over (e : Engine) (s₀ : Service) (course : List (Nat × RunTrace)) (place : Nat) (inv₀ : Invocation) :
    Stage → Prop where
  | finished {report : Report} {ended : Nat} : Over e s₀ course place inv₀ (.finished report ended)
  | faulted {message : String} {ended : Nat}
    (h : Leads (e.run inv₀.command inv₀.streams) (traceOf course place) (.fault message)) :
    Over e s₀ course place inv₀ (.broken message ended none)
  | balked {message : String} {ended : Nat} {report : Report}
    (h : HookChain.Balks e.hooks (hookContext inv₀.command) report.result) :
    Over e s₀ course place inv₀ (.broken message ended (some report))

/-- Once nothing is left to do every invocation is over, unless somebody it has called has broken down. -/
theorem over_of_course (hi : s₀.invocations[place]? = some inv₀) (hd : inv₀.stage = .dormant)
    (h : Course e s₀ course (e.advance always s)) : ∃ inv,
      (e.advance always s).invocations[place]? = some inv ∧ Over e s₀ course place inv₀ inv.stage := by
  obtain ⟨inv, hinv, ha⟩ := account_course hi hd h
  refine ⟨inv, hinv, ?_⟩
  have hreached := ha.reached
  have htold := ha.told
  obtain ⟨report, ended, hs⟩ | ⟨message, ended, fixed, hs⟩ := ended_of_advance hinv
  · exact hs ▸ .finished
  · rw [hs] at hreached htold ⊢
    cases hreached with
    | fresh hf => cases hf
    | breaks hl => exact .faulted hl
    | attained hr =>
      cases fixed with
      | none => cases hr
      | some report => exact .balked (htold.broken rfl)

/-- In the end every invocation is over, unless somebody it has called has broken down. -/
theorem over_of_advance (hi : s₀.invocations[place]? = some inv₀) (hd : inv₀.stage = .dormant)
    (h : Course e s₀ course s) : ∃ more inv, Course e s₀ (course ++ more) (e.advance always s) ∧
      (e.advance always s).invocations[place]? = some inv ∧ Over e s₀ (course ++ more) place inv₀ inv.stage := by
  obtain ⟨more, hcourse⟩ := course_advance always h
  obtain ⟨inv, hinv, hover⟩ := over_of_course hi hd hcourse
  exact ⟨more, inv, hcourse, hinv, hover⟩

end Engine

end AgentLoop
