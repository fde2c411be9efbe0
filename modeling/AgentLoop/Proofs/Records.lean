import AgentLoop.Proofs.Replies

/-!
# What each invocation records

The journal is one for all invocations, but each of its entries is written in somebody's step.  `Recorded` is a course
that keeps the entries of each step apart, so that everything one invocation has written can be put together.  At any
time the events among it are those of its run, in their order; and once its hooks have been told, or have had their
time, one more follows, which says how it ended, and nothing comes after that.
-/

namespace AgentLoop

open Process RunTrace

/-- The event that an entry records. -/
def Entry.event? : Entry → Option Event
  | .event e => some e
  | _ => none

namespace Journal

/-- The events that are recorded. -/
def events (j : Journal) : List Event := j.filterMap fun (_, entry) => entry.event?

private theorem events_append (j k : Journal) : events (j ++ k) = events j ++ events k := List.filterMap_append ..

end Journal

theorem Exchange.event?_eq (x : Exchange runEffects) : x.event? = x.entry?.bind Entry.event? := by
  obtain ⟨e, answer⟩ := x
  cases e with
  | note entry => cases entry <;> rfl
  | _ => rfl

namespace Engine

variable {e : Engine} {s s₀ s₁ t : Service} {place : Nat} {inv inv₀ : Invocation} {report : Report}
  {noted more : List Event} {course : List (Nat × RunTrace)} {records : List (Nat × Journal)}

private theorem events_entriesOf (now : Nat) (did : RunTrace) :
    Journal.events (entriesOf now did) = RunTrace.events did := by
  rw [Journal.events, entriesOf, List.filterMap_map, List.filterMap_filterMap, RunTrace.events]
  exact congrArg (List.filterMap · did) (funext fun x => (Exchange.event?_eq x).symm)

/-! ### The last event -/

/-- What is recorded of a result. -/
def completion (e : Engine) (report : Report) : List Event :=
  if e.recordsEvents then [completed report.result report.toolCalls] else []

/-- What is recorded of the result by this stage. -/
def lastEvents (e : Engine) : Stage → List Event
  | .marking report .. | .finished report _ => e.completion report
  | _ => []

private theorem lastEvents_of_isWaiting {stage : Stage} (h : stage.isWaiting) : e.lastEvents stage = [] := by
  cases stage <;> first | rfl | cases h

/-- What a step writes has these events, and then what is recorded of the result by the stage it comes to. -/
def Logs (e : Engine) (place : Nat) (noted : List Event) (s t : Service) : Prop :=
  ∃ told inv', t.world.journal = s.world.journal ++ told ∧ t.invocations[place]? = some inv' ∧
    Journal.events told = noted ++ e.lastEvents inv'.stage

/-- What was written before belongs to it. -/
private theorem Logs.after (h : Logs e place more s₁ t) {told : Journal}
    (hj : s₁.world.journal = s.world.journal ++ told)
    (ht : Journal.events told = noted) : Logs e place (noted ++ more) s t := by
  obtain ⟨told', inv', hj', hinv, hevents⟩ := h
  refine ⟨told ++ told', inv', ?_, hinv, ?_⟩
  · rw [hj', hj, List.append_assoc]
  · rw [Journal.events_append, ht, hevents, List.append_assoc]

private theorem logs_put (hlt : place < s.invocations.length) {stage : Stage} (h : e.lastEvents stage = []) :
    Logs e place [] s (s.put place inv stage) := by
  refine ⟨[], _, (List.append_nil _).symm, List.getElem?_set_self hlt, ?_⟩
  rw [h]
  rfl

/-- Whoever ends does not write any more. -/
private theorem ends_putMark (e : Engine) (hlt : place < s.invocations.length) (inv : Invocation) (report : Report)
    (ended : Nat) :
    (s.putMark place inv report ended).world = s.world ∧
      ∃ inv', (s.putMark place inv report ended).invocations[place]? = some inv' ∧
        e.lastEvents inv'.stage = e.completion report := by
  unfold Service.putMark
  split
  · exact ⟨rfl, _, List.getElem?_set_self hlt, rfl⟩
  · exact ⟨rfl, _, List.getElem?_set_self hlt, rfl⟩
  · exact ⟨rfl, _, List.getElem?_set_self hlt, rfl⟩

private theorem ends_finish (e : Engine) (hlt : place < s.invocations.length) (inv : Invocation) (report : Report) :
    (s.finish place inv report).world = s.world ∧
      ∃ inv', (s.finish place inv report).invocations[place]? = some inv' ∧
        e.lastEvents inv'.stage = e.completion report := by
  unfold Service.finish
  split
  · exact ⟨rfl, _, List.getElem?_set_self hlt, rfl⟩
  · exact ends_putMark e hlt ..
  · exact ⟨rfl, _, List.getElem?_set_self hlt, rfl⟩

private theorem logs_complete (hlt : place < s.invocations.length) :
    Logs e place [] s (e.complete s place inv report) := by
  unfold complete
  dsimp only
  by_cases hr : e.recordsEvents = true
  · have hlt' : place < ({ s with world := { s.world with
        journal := s.world.journal ++ [(s.now, .event (completed report.result report.toolCalls))] } } :
          Service).invocations.length := hlt
    obtain ⟨hworld, inv', hinv, hlast⟩ := ends_finish e hlt' inv report
    rw [if_pos hr]
    refine ⟨[(s.now, .event (completed report.result report.toolCalls))], inv', ?_, hinv, ?_⟩
    · rw [hworld]
    · rw [hlast, completion, if_pos hr]
      rfl
  · obtain ⟨hworld, inv', hinv, hlast⟩ := ends_finish e hlt inv report
    rw [if_neg hr]
    refine ⟨[], inv', ?_, hinv, ?_⟩
    · rw [hworld, List.append_nil]
    · rw [hlast, completion, if_neg hr]
      rfl

/-! ### Telling -/

/-- No event is recorded on the way. -/
def Silent {α : Type} (p : RunProcess α) : Prop := ∀ (t : RunTrace) (q : RunProcess α), Leads p t q → RunTrace.events t = []

private theorem Silent.of_leads {α : Type} {p q : RunProcess α} {u : RunTrace} (h : Silent p) (hl : Leads p u q) :
    Silent q := by
  intro t r hr
  have hall := h _ _ (hl.trans hr)
  rw [events_append] at hall
  exact (List.append_eq_nil_iff.1 hall).2

/-- Only other entries than events may be noted, and nothing is asked. -/
def asideContract : Contract runEffects :=
  .ofAllows fun _ effect => effect.isAsk = false ∧ ∀ event, effect ≠ .note (.event event)

private theorem events_of_aside {α : Type} {p q : RunProcess α} {t u : RunTrace} {post : RunTrace → α → Prop}
    (h : Keeps asideContract post u p) (hl : Leads p t q) : RunTrace.events t = [] := by
  rw [RunTrace.events, List.filterMap_eq_nil_iff]
  intro x hx
  obtain ⟨v, w, rfl⟩ := List.append_of_mem hx
  obtain ⟨-, hevent⟩ := h.allows_of_leads hl fun _ _ => trivial
  obtain ⟨f, answer⟩ := x
  cases f with
  | note entry =>
    cases entry with
    | event event => exact absurd rfl (hevent event)
    | _ => rfl
  | _ => rfl

private theorem aside_afterComplete (e : Engine) (command : Command) (result : ExecutionResult) :
    Keeps asideContract (fun _ _ => True) [] (e.afterComplete command result) := by
  have hnote (entry : Entry) (u : RunTrace) (he : entry.event? = none) {post : RunTrace → Unit → Prop}
      (hp : ∀ u, post u ()) : Keeps asideContract post u (RunProcess.note entry) := by
    refine ⟨⟨rfl, fun event h => ?_⟩, fun _ _ => hp _⟩
    cases h
    cases he
  refine HookChain.keeps_forM (fun _ => True) ?_ trivial
  intro h _ u _
  split
  · trivial
  · refine keeps_bind.2 (hnote _ u rfl fun v => keeps_bind.2 (keeps_react.2 ⟨fun _ => trivial, fun _ _ => ?_⟩))
    exact hnote _ v rfl fun _ => trivial

private theorem silent_afterComplete (e : Engine) (command : Command) (result : ExecutionResult) :
    Silent (e.afterComplete command result) :=
  fun _ _ hl => events_of_aside (e.aside_afterComplete command result) hl

/-- Whoever goes on telling writes what is told. -/
private theorem logs_close (hlt : place < s.invocations.length) {limit : Nat} (rest : RunProcess Unit) :
    Logs e place (RunTrace.events (rest.exchanges e.partners (some s.now) ⟨s.world, inv.feed⟩)) s
      (e.close s place inv report limit rest) := by
  have hjournal : (rest.play e.partners (some s.now) ⟨s.world, inv.feed⟩).2.world.journal = s.world.journal ++
      entriesOf s.now (rest.exchanges e.partners (some s.now) ⟨s.world, inv.feed⟩) := journal_play_now rest rfl
  unfold close
  generalize rest.exchanges e.partners (some s.now) ⟨s.world, inv.feed⟩ = told at hjournal ⊢
  generalize rest.play e.partners (some s.now) ⟨s.world, inv.feed⟩ = result at hjournal ⊢
  obtain ⟨stop, scene⟩ := result
  have after {t : Service} (ht : Logs e place [] { s with world := scene.world } t) :
      Logs e place (RunTrace.events told) s t := by
    have hall := ht.after hjournal (events_entriesOf ..)
    rwa [List.append_nil] at hall
  have hlt' : place < ({ s with world := scene.world } : Service).invocations.length := hlt
  cases stop with
  | finished => exact after (logs_complete hlt')
  | broke message => exact after (logs_put hlt' rfl)
  | paused due rest' =>
    dsimp only
    split
    · exact after (logs_complete hlt')
    · exact after (logs_put hlt' rfl)
  | stuck =>
    dsimp only
    split
    · exact after (logs_complete hlt')
    · exact after (logs_put hlt' rfl)

private theorem logs_tell (hlt : place < s.invocations.length) {limit : Nat} {rest : RunProcess Unit}
    (h : Silent rest) :
    Logs e place [] s (e.close s place inv report limit rest) := by
  have hsilent : RunTrace.events (rest.exchanges e.partners (some s.now) ⟨s.world, inv.feed⟩) = [] :=
    h _ _ (leads_play ..)
  have hlogs : Logs e place (RunTrace.events (rest.exchanges e.partners (some s.now) ⟨s.world, inv.feed⟩)) s
      (e.close s place inv report limit rest) := logs_close hlt rest
  rwa [hsilent] at hlogs

private theorem logs_conclude (hlt : place < s.invocations.length) :
    Logs e place [] s (e.conclude s place inv report) :=
  logs_tell hlt (e.silent_afterComplete _ _)

/-! ### Running -/

/-- A run that goes on writes what is due from it. -/
private theorem logs_resume (hlt : place < s.invocations.length) (rest : RunProcess (Except RunError Outcome)) :
    Logs e place (RunTrace.events (rest.exchanges e.partners (some s.now) ⟨s.world, inv.feed⟩)) s
      (e.resume s place inv rest) := by
  have hjournal : (rest.play e.partners (some s.now) ⟨s.world, inv.feed⟩).2.world.journal = s.world.journal ++
      entriesOf s.now (rest.exchanges e.partners (some s.now) ⟨s.world, inv.feed⟩) := journal_play_now rest rfl
  have hr := resumed_resume e s place inv rest
  generalize rest.exchanges e.partners (some s.now) ⟨s.world, inv.feed⟩ = did at hjournal ⊢
  generalize rest.play e.partners (some s.now) ⟨s.world, inv.feed⟩ = result at hjournal hr
  generalize e.resume s place inv rest = t at hr ⊢
  obtain ⟨stop, scene⟩ := result
  dsimp only at hjournal hr
  have hrelease := aside_release { s with world := scene.world }
  have hkept : place < ({ s with world := scene.world } : Service).invocations.length := hlt
  have hreleased : place < { s with world := scene.world }.release.invocations.length := by rwa [hrelease.length]
  have released {t : Service} (ht : Logs e place [] { s with world := scene.world }.release t) :
      Logs e place (RunTrace.events did) s t := by
    have hj : { s with world := scene.world }.release.world.journal = s.world.journal ++ entriesOf s.now did :=
      (congrArg World.journal hrelease.world).trans hjournal
    have hall := ht.after hj (events_entriesOf ..)
    rwa [List.append_nil] at hall
  have kept {t : Service} (ht : Logs e place [] { s with world := scene.world } t) :
      Logs e place (RunTrace.events did) s t := by
    have hall := ht.after hjournal (events_entriesOf ..)
    rwa [List.append_nil] at hall
  cases hr with
  | concludes => exact released (logs_conclude hreleased)
  | breaks => exact released (logs_put hreleased rfl)
  | timedOut => exact released (logs_conclude hreleased)
  | pauses => exact kept (logs_put hkept rfl)
  | hangs => exact kept (logs_put hkept rfl)

/-- What is known of an invocation once it has taken a step. -/
structure StepLogs (e : Engine) (place : Nat) (inv : Invocation) (s t : Service) (told : Journal) : Prop where
  journal : t.world.journal = s.world.journal ++ told
  own : ∃ inv', t.invocations[place]? = some inv' ∧
    e.lastEvents inv.stage ++ Journal.events told = RunTrace.events (e.did s inv) ++ e.lastEvents inv'.stage

private theorem Logs.step {did : RunTrace} (h : Logs e place (RunTrace.events did) s₁ t) (hw : s₁.world = s.world)
    (hd : e.did s inv = did) (hl : e.lastEvents inv.stage = []) : ∃ told, StepLogs e place inv s t told := by
  obtain ⟨told, inv', hj, hinv, hevents⟩ := h
  refine ⟨told, by rw [hj, hw], inv', hinv, ?_⟩
  rw [hl, hd, List.nil_append]
  exact hevents

/-- Who does not wait any more does not go on. -/
private theorem goesOn?_of_not_isWaiting {stage : Stage} (hstage : inv.stage = stage) (hw : stage.isWaiting = false) :
    e.goesOn? s inv = none := by
  rw [goesOn?_of_stage hstage]
  split
  · rfl
  · split
    · cases hw
    · cases hw
    · cases hw
    · rfl

/-- Every step writes the events of what is done in it, and the last event when it comes to that. -/
private theorem logs_step (hi : s.invocations[place]? = some inv) (h : Step e s place inv t)
    (ht : ∀ report limit p, inv.stage = .closing report limit (some p) → Silent p.rest) :
    ∃ told, StepLogs e place inv s t told := by
  have hlt : place < s.invocations.length := (List.getElem?_eq_some_iff.1 hi).1
  -- a run that does not go on does nothing
  have still {s₁ : Service} (hg : e.goesOn? s inv = none) (hw : s₁.world = s.world)
      (hl : e.lastEvents inv.stage = []) (hlogs : Logs e place (RunTrace.events []) s₁ t) :
      ∃ told, StepLogs e place inv s t told :=
    hlogs.step hw (did_of_none hg) hl
  cases h with
  | @runs rest s₁ hg ha hinv =>
    have hwaiting : inv.stage.isWaiting := by
      cases hstage : inv.stage <;> first | rfl | (rw [goesOn?_of_not_isWaiting hstage rfl] at hg; cases hg)
    have hnow : s₁.now = s.now := congrArg World.now ha.world
    have hlogs : Logs e place (RunTrace.events (rest.exchanges e.partners (some s₁.now) ⟨s₁.world, inv.feed⟩)) s₁
        (e.resume s₁ place inv rest) := logs_resume (by rwa [hinv]) rest
    rw [hnow, ha.world] at hlogs
    refine hlogs.step ha.world ?_ (lastEvents_of_isWaiting hwaiting)
    rw [did, hg]
  | cancelled hg hw ha =>
    exact still hg ha.world (lastEvents_of_isWaiting hw) (logs_conclude (by rwa [ha.length]))
  | timedOut hg hw ha =>
    exact still hg ha.world (lastEvents_of_isWaiting hw) (logs_conclude (by rwa [ha.length]))
  | queues hg hd ha =>
    have hl : e.lastEvents inv.stage = [] := by rw [hd]; rfl
    exact still hg ha.world hl (logs_put (by rwa [ha.length]) rfl)
  | closes hstage =>
    have hl : e.lastEvents inv.stage = [] := by rw [hstage]; rfl
    exact still (goesOn?_of_not_isWaiting hstage rfl) rfl hl (logs_tell hlt (ht _ _ _ hstage))
  | completes hstage =>
    have hl : e.lastEvents inv.stage = [] := by rw [hstage]; rfl
    exact still (goesOn?_of_not_isWaiting hstage rfl) rfl hl (logs_complete hlt)
  | @marks report ended due hstage =>
    -- the last event is already there
    obtain ⟨hworld, inv', hinv, hlast⟩ := ends_putMark e hlt inv report ended
    refine ⟨[], by rw [hworld, List.append_nil], inv', hinv, ?_⟩
    rw [hlast, hstage, did_of_none (goesOn?_of_not_isWaiting hstage rfl)]
    exact List.append_nil _

/-- Nothing that is written is ever taken back. -/
private theorem grows_of_step (hi : s.invocations[place]? = some inv) (h : Step e s place inv t) :
    ∃ told, t.world.journal = s.world.journal ++ told := by
  have hlt : place < s.invocations.length := (List.getElem?_eq_some_iff.1 hi).1
  have of_logs {s₁ : Service} {noted : List Event} (hw : s₁.world = s.world) (hl : Logs e place noted s₁ t) :
      ∃ told, t.world.journal = s.world.journal ++ told := by
    obtain ⟨told, _, hj, -⟩ := hl
    exact ⟨told, by rw [hj, hw]⟩
  cases h with
  | @runs rest _ _ ha hinv => exact of_logs ha.world (logs_resume (by rwa [hinv]) rest)
  | cancelled _ _ ha => exact of_logs ha.world (logs_conclude (by rwa [ha.length]))
  | timedOut _ _ ha => exact of_logs ha.world (logs_conclude (by rwa [ha.length]))
  | queues _ _ ha => exact of_logs ha.world (logs_put (by rwa [ha.length]) rfl)
  | @closes _ _ p => exact of_logs rfl (logs_close hlt p.rest)
  | completes => exact of_logs rfl (logs_complete hlt)
  | marks => exact ⟨[], by rw [(ends_putMark e hlt ..).1, List.append_nil]⟩

/-! ### Along a course -/

/-- What a step has added to the journal. -/
def writtenIn (s t : Service) : Journal := t.world.journal.drop s.world.journal.length

/-- A course, with what was written in each of its steps. -/
inductive Recorded (e : Engine) (s₀ : Service) :
    List (Nat × RunTrace) → List (Nat × Journal) → Service → Prop where
  | opened : Recorded e s₀ [] [] s₀
  | invoked {course : List (Nat × RunTrace)} {records : List (Nat × Journal)} {s : Service}
    (h : Recorded e s₀ course records s) {inv : Invocation} (hd : inv.stage = .dormant) :
    Recorded e s₀ course records { s with invocations := s.invocations ++ [inv] }
  | cancelled {course : List (Nat × RunTrace)} {records : List (Nat × Journal)} {s : Service}
    (h : Recorded e s₀ course records s) (cancellations : List (Nat × Nat)) :
    Recorded e s₀ course records { s with cancellations }
  | clock {course : List (Nat × RunTrace)} {records : List (Nat × Journal)} {s : Service}
    (h : Recorded e s₀ course records s) (now lap : Nat) :
    Recorded e s₀ course records { s with world := { s.world with now }, lap }
  | stepped {course : List (Nat × RunTrace)} {records : List (Nat × Journal)} {s t : Service}
    (h : Recorded e s₀ course records s) {slot : Slot} (hs : e.stepAt? s slot = some t) :
    Recorded e s₀ (course ++ [(slot.place, e.didAt s slot)]) (records ++ [(slot.place, writtenIn s t)]) t

/-- Everything that an invocation wrote in a course. -/
def recordOf (records : List (Nat × Journal)) (place : Nat) : Journal :=
  records.flatMap fun (p, written) => if p = place then written else []

private theorem recordOf_append (records : List (Nat × Journal)) (p place : Nat) (written : Journal) :
    recordOf (records ++ [(p, written)]) place = recordOf records place ++ if p = place then written else [] := by
  simp [recordOf]

theorem Recorded.toCourse (h : Recorded e s₀ course records s) : Course e s₀ course s := by
  induction h with
  | opened => exact .opened
  | invoked _ hd ih => exact ih.invoked hd
  | cancelled _ cancellations ih => exact ih.cancelled cancellations
  | clock _ now lap ih => exact ih.clock now lap
  | stepped _ hs ih => exact ih.stepped hs

theorem recorded_advance (wanted : Service → Slot → Bool) (h : Recorded e s₀ course records s) :
    ∃ more others, Recorded e s₀ (course ++ more) (records ++ others) (advance e wanted s) := by
  fun_induction advance e wanted s generalizing course records with
  | case1 | case2 | case4 => exact ⟨[], [], by simpa using h⟩
  | case3 s slot _ _ s' hstep ih =>
    obtain ⟨more, others, hm⟩ := ih (h.stepped hstep)
    exact ⟨_ :: more, _ :: others, by simpa using hm⟩

private theorem journal_stepAt? {slot : Slot} (hs : e.stepAt? s slot = some t) :
    t.world.journal = s.world.journal ++ writtenIn s t := by
  obtain ⟨inv, hi, hp⟩ := Option.bind_eq_some_iff.1 hs
  have hplace : ((s.atSlot slot).noteDrop inv).invocations[slot.place]? = some inv :=
    (congrArg (·[slot.place]?) ((s.atSlot slot).invocations_noteDrop inv)).trans hi
  obtain ⟨told, hj⟩ := grows_of_step hplace (step_of_poll? hp)
  rw [Service.world_noteDrop] at hj
  rw [writtenIn, hj]
  exact congrArg (s.world.journal ++ ·) List.drop_left.symm

/-- The journal is what the invocations wrote in their steps. -/
theorem Recorded.journal (h : Recorded e s₀ course records s) :
    s.world.journal = s₀.world.journal ++ records.flatMap (·.2) := by
  induction h with
  | opened => exact (List.append_nil _).symm
  | invoked _ _ ih | cancelled _ _ ih | clock _ _ _ ih => exact ih
  | stepped _ hs ih =>
    rw [journal_stepAt? hs, ih, List.flatMap_append, List.append_assoc]
    simp

/-- What the step at a slot writes. -/
private theorem logs_stepAt? {slot : Slot} (hi : s.invocations[slot.place]? = some inv) (hs : e.stepAt? s slot = some t)
    (ht : ∀ report limit p, inv.stage = .closing report limit (some p) → Silent p.rest) :
    ∃ inv', t.invocations[slot.place]? = some inv' ∧
      e.lastEvents inv.stage ++ Journal.events (writtenIn s t) =
        RunTrace.events (e.didAt s slot) ++ e.lastEvents inv'.stage := by
  obtain ⟨other, hother, hp⟩ := Option.bind_eq_some_iff.1 hs
  obtain rfl : inv = other := Option.some.inj (hi.symm.trans hother)
  have hplace : ((s.atSlot slot).noteDrop inv).invocations[slot.place]? = some inv :=
    (congrArg (·[slot.place]?) ((s.atSlot slot).invocations_noteDrop inv)).trans hi
  obtain ⟨told, hlogs⟩ := logs_step hplace (step_of_poll? hp) ht
  have htold : writtenIn s t = told := by
    have hall := hlogs.journal
    rw [Service.world_noteDrop] at hall
    rw [writtenIn, hall]
    exact List.drop_left
  have hdid : e.didAt s slot = e.did ((s.atSlot slot).noteDrop inv) inv := by rw [didAt, hi]
  rw [htold, hdid]
  exact hlogs.own

/-- Those who do not take a step do not end in it. -/
private theorem lastEvents_of_others {slot : Slot} (hs : e.stepAt? s slot = some t) (hp : slot.place ≠ place)
    (hi : s.invocations[place]? = some inv) :
    ∃ inv', t.invocations[place]? = some inv' ∧ e.lastEvents inv'.stage = e.lastEvents inv.stage := by
  obtain ⟨other, hother, hpoll⟩ := Option.bind_eq_some_iff.1 hs
  obtain ⟨s₁, hb, _, hset, -⟩ := becomes_of_step (step_of_poll? hpoll)
  have hat : ((s.atSlot slot).noteDrop other).invocations[place]? = some inv :=
    (congrArg (·[place]?) ((s.atSlot slot).invocations_noteDrop other)).trans hi
  rw [hset, List.getElem?_set_ne hp]
  rcases hb.others hat with hsame | ⟨hq, lap, hgranted⟩
  · exact ⟨inv, hsame, rfl⟩
  · exact ⟨_, hgranted, by rw [hq]; rfl⟩

/-- At any time an invocation has recorded the events of its run, and then how it ended if it has. -/
theorem Recorded.events (h : Recorded e s₀ course records s) (hi : s₀.invocations[place]? = some inv₀)
    (hd : inv₀.stage = .dormant) : ∃ inv, s.invocations[place]? = some inv ∧
      Journal.events (recordOf records place) =
        RunTrace.events (traceOf course place) ++ e.lastEvents inv.stage := by
  induction h with
  | opened => exact ⟨inv₀, hi, by rw [hd]; rfl⟩
  | invoked _ _ ih =>
    obtain ⟨inv, hinv, hevents⟩ := ih
    exact ⟨inv, (List.getElem?_append_left (List.getElem?_eq_some_iff.1 hinv).1).trans hinv, hevents⟩
  | cancelled _ _ ih | clock _ _ _ ih => exact ih
  | @stepped course records s t hrecorded slot hs ih =>
    obtain ⟨inv, hinv, hevents⟩ := ih
    rw [recordOf_append, traceOf_append, Journal.events_append, RunTrace.events_append, hevents]
    by_cases hplace : slot.place = place
    · subst hplace
      obtain ⟨inv', hinv', haccount⟩ := account_course hi hd hrecorded.toCourse
      obtain rfl : inv = inv' := Option.some.inj (hinv.symm.trans hinv')
      have hsilent : ∀ report limit p, inv.stage = .closing report limit (some p) → Silent p.rest := by
        intro report limit p hstage
        obtain ⟨u, hl⟩ := haccount.told.closing hstage
        exact (e.silent_afterComplete _ _).of_leads hl
      obtain ⟨inv', hinv', hlogs⟩ := logs_stepAt? hinv hs hsilent
      refine ⟨inv', hinv', ?_⟩
      rw [if_pos rfl, if_pos rfl, List.append_assoc, hlogs, List.append_assoc]
    · obtain ⟨inv', hinv', hlast⟩ := lastEvents_of_others hs hplace hinv
      refine ⟨inv', hinv', ?_⟩
      rw [if_neg hplace, if_neg hplace, hlast]
      simp [Journal.events, RunTrace.events]

end Engine

end AgentLoop
