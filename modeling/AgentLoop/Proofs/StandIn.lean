import AgentLoop.Proofs.Onward
import AgentLoop.Proofs.Outage
import AgentLoop.Service.Scenario

/-!
# Engines that stand in for others

An engine stands in for another one if its runs are those of the other without the calls of a broken store or of a
retriever that is of no use, and the other's runs do not care what these say.  Then its services take the same steps at
the same times, whoever else is served, and whatever is done with it has the same answers.
-/

namespace AgentLoop

variable {o : Outage} {partners : Partners}

/-- What is pending goes on in the same way whatever is said by those who are out of order. -/
def Stage.Indifferent (o : Outage) (partners : Partners) : Stage → Prop
  | .running (some p) => p.rest.Indifferent o partners
  | .closing _ _ (some p) => p.rest.Indifferent o partners
  | _ => True

def Stage.without (o : Outage) : Stage → Stage
  | .running (some p) => .running (some { p with rest := p.rest.without o })
  | .closing report limit (some p) => .closing report limit (some { p with rest := p.rest.without o })
  | stage => stage

def Invocation.without (o : Outage) (inv : Invocation) : Invocation := { inv with stage := inv.stage.without o }

namespace Service

def without (o : Outage) (s : Service) : Service :=
  { s with world := s.world.without o, invocations := s.invocations.map (·.without o) }

/-- None of its invocations cares what is said by those who are out of order. -/
def Indifferent (o : Outage) (partners : Partners) (s : Service) : Prop :=
  ∀ inv ∈ s.invocations, inv.stage.Indifferent o partners

/-- `t'` is `t` without what is out of order. -/
structure Lacks (o : Outage) (partners : Partners) (t' t : Service) : Prop where
  eq : t' = t.without o
  indifferent : t.Indifferent o partners

variable {s s' : Service} {place : Nat} {inv : Invocation} {stage : Stage} {report : Report}

private theorem without_put (s : Service) (place : Nat) (inv : Invocation) (stage : Stage) :
    (s.put place inv stage).without o = (s.without o).put place (inv.without o) (stage.without o) := by
  simp only [put, without, List.map_set]
  rfl

private theorem Lacks.now (h : Lacks o partners s' s) : s'.now = s.now := h.eq ▸ rfl

private theorem Lacks.put (h : Lacks o partners s' s) (place : Nat) (inv : Invocation) (stage : Stage)
    (hst : stage.Indifferent o partners) :
    Lacks o partners (s'.put place (inv.without o) (stage.without o)) (s.put place inv stage) := by
  refine ⟨h.eq ▸ (without_put ..).symm, fun inv' hm => ?_⟩
  rcases List.mem_or_eq_of_mem_set hm with hm | rfl
  · exact h.indifferent inv' hm
  · exact hst

private theorem rel_ite {α β : Type} {r : α → β → Prop} {c : Prop} [Decidable c] {a b : Option α} {a' b' : Option β}
    (h : Option.Rel r a a') (h' : Option.Rel r b b') : Option.Rel r (if c then a else b) (if c then a' else b') := by
  split
  · exact h
  · exact h'

private theorem Lacks.ite {t t' u u' : Service} (ht : Lacks o partners t' t) (n : Nat) (hu : Lacks o partners u' u) :
    Lacks o partners (if n ≤ s.now then t' else u') (if n ≤ s.now then t else u) := by
  split
  · exact ht
  · exact hu

private theorem getElem?_without (s : Service) (place : Nat) :
    (s.without o).invocations[place]? = s.invocations[place]?.map (·.without o) := List.getElem?_map

private theorem Lacks.grant (h : Lacks o partners s' s) (place : Nat) :
    Lacks o partners (s'.grant place) (s.grant place) := by
  obtain ⟨rfl, hi⟩ := h
  unfold Service.grant
  rw [getElem?_without]
  cases s.invocations[place]? with
  | none => exact ⟨rfl, hi⟩
  | some inv =>
    obtain ⟨command, streams, token, start, deadline, feed, stage⟩ := inv
    rcases stage with _ | _ | _ | ⟨_ | _⟩ | ⟨_, _, _ | _⟩ | _ | _ | _ <;>
      first | exact ⟨rfl, hi⟩ | exact Lacks.put (s := s) ⟨rfl, hi⟩ place _ (.granted ..) trivial

private theorem Lacks.release (h : Lacks o partners s' s) : Lacks o partners s'.release s.release := by
  have heq := h.eq
  unfold Service.release
  cases hq : s.queue with
  | nil =>
    rw [show s'.queue = [] from heq ▸ hq]
    exact ⟨heq ▸ rfl, h.indifferent⟩
  | cons first rest =>
    rw [show s'.queue = first :: rest from heq ▸ hq]
    exact Lacks.grant (s := { s with queue := rest }) ⟨heq ▸ rfl, h.indifferent⟩ first

private theorem isLive_without (inv : Invocation) : (inv.without o).isLive = inv.isLive := by
  obtain ⟨command, streams, token, start, deadline, feed, stage⟩ := inv
  rcases stage with _ | _ | _ | ⟨_ | _⟩ | ⟨_, _, _ | _⟩ | _ | _ | _ <;> rfl

private theorem Lacks.noteDrop (h : Lacks o partners s' s) (inv : Invocation) :
    Lacks o partners (s'.noteDrop (inv.without o)) (s.noteDrop inv) := by
  obtain ⟨rfl, hi⟩ := h
  have hdrops : (inv.without o).dropsAt = inv.dropsAt := rfl
  unfold Service.noteDrop
  rw [hdrops, isLive_without]
  cases inv.dropsAt with
  | none => exact ⟨rfl, hi⟩
  | some time =>
    have hfacts : (s.without o).now = s.now ∧ (s.without o).cancellations = s.cancellations ∧
        (inv.without o).token = inv.token := ⟨rfl, rfl, rfl⟩
    dsimp only
    rw [hfacts.1, hfacts.2.1, hfacts.2.2]
    split <;> exact ⟨rfl, hi⟩

private theorem Lacks.putMark (h : Lacks o partners s' s) (place : Nat) (inv : Invocation) (report : Report)
    (ended : Nat) :
    Lacks o partners (s'.putMark place (inv.without o) report ended) (s.putMark place inv report ended) := by
  obtain ⟨rfl, hi⟩ := h
  have hroom : (inv.without o).feed.room (s.without o).now = inv.feed.room s.now := rfl
  unfold Service.putMark
  rw [hroom]
  split
  · exact Lacks.put (s := s) ⟨rfl, hi⟩ place inv (.finished ..) trivial
  · exact Lacks.put (s := s) ⟨rfl, hi⟩ place inv (.finished ..) trivial
  · exact Lacks.put (s := s) ⟨rfl, hi⟩ place { inv with feed := _ } (.finished ..) trivial

private theorem Lacks.finish (h : Lacks o partners s' s) (place : Nat) (inv : Invocation) (report : Report) :
    Lacks o partners (s'.finish place (inv.without o) report) (s.finish place inv report) := by
  have hroom : (inv.without o).feed.room s'.now = inv.feed.room s.now := h.eq ▸ rfl
  have hstreams : (inv.without o).streams = inv.streams := rfl
  unfold Service.finish
  rw [hroom, hstreams, h.now]
  split
  · exact h.put place inv (.marking ..) trivial
  · exact h.putMark place inv report _
  · exact h.put place inv (.finished ..) trivial

/-- The clock moves for both. -/
private theorem Lacks.atSlot (h : Lacks o partners s' s) (slot : Slot) :
    Lacks o partners (s'.atSlot slot) (s.atSlot slot) := by
  obtain ⟨rfl, hi⟩ := h
  exact ⟨rfl, hi⟩

private theorem cancelledAt_without (s : Service) (token : Nat) :
    (s.without o).cancelledAt token = s.cancelledAt token := by
  have hdrops : (s.without o).invocations.filterMap
      (fun inv => if inv.isLive && inv.token == token then inv.dropsAt else none) =
      s.invocations.filterMap fun inv => if inv.isLive && inv.token == token then inv.dropsAt else none := by
    simp only [without, List.filterMap_map, Function.comp_def, isLive_without]
    rfl
  unfold cancelledAt
  rw [hdrops]
  rfl

private theorem isCancelled_without (s : Service) (token : Nat) :
    (s.without o).isCancelled token = s.isCancelled token := by
  unfold isCancelled
  rw [cancelledAt_without]
  rfl

private theorem Lacks.isCancelled (h : Lacks o partners s' s) (token : Nat) :
    s'.isCancelled token = s.isCancelled token := by
  rw [h.eq, isCancelled_without]

/-- They have the same to do next. -/
theorem next?_without (s : Service) : (s.without o).next? = s.next? := by
  have hslot (place : Nat) (inv : Invocation) : (s.without o).slot? place (inv.without o) = s.slot? place inv := by
    have hcancelled : (s.without o).cancelledAt (inv.without o).token = s.cancelledAt inv.token :=
      cancelledAt_without s inv.token
    unfold slot?
    rw [hcancelled]
    obtain ⟨command, streams, token, start, deadline, feed, stage⟩ := inv
    rcases stage with _ | _ | _ | ⟨_ | _⟩ | ⟨_, _, _ | _⟩ | _ | _ | _ <;> rfl
  have hzip : (s.without o).invocations.zipIdx = s.invocations.zipIdx.map (Prod.map (·.without o) id) := by
    simp [without, List.zipIdx_map]
  unfold next?
  rw [hzip, List.filterMap_map]
  exact congrArg _ (congrArg (List.filterMap · _) (funext fun x => hslot x.2 x.1))

end Service

namespace Engine

open Service

/-- One engine does what another does, but for the calls of what is out of order. -/
structure StandsIn (o : Outage) (e' e : Engine) : Prop where
  partners : o.Between e'.partners e.partners
  recordsEvents : e'.recordsEvents = e.recordsEvents
  deadline : e'.deadline = e.deadline
  permits : e'.permits = e.permits
  run (command : Command) (streams : Bool) :
    e'.run command streams = (e.run command streams).without o ∧ (e.run command streams).Indifferent o e.partners
  afterComplete (command : Command) (result : ExecutionResult) :
    e'.afterComplete command result = (e.afterComplete command result).without o ∧
      (e.afterComplete command result).Indifferent o e.partners

variable {e e' : Engine} {s s' t : Service} {place : Nat} {inv : Invocation} {report : Report} (he : StandsIn o e' e)

include he

private theorem StandsIn.timedOutReport (hs : Lacks o e.partners s' s) (inv : Invocation) :
    e'.timedOutReport s' (inv.without o) = e.timedOutReport s inv := by
  obtain ⟨rfl, -⟩ := hs
  simp only [Engine.timedOutReport, timedOut, he.deadline]
  rfl

private theorem StandsIn.complete (hs : Lacks o e.partners s' s) (place : Nat) (inv : Invocation) (report : Report) :
    Lacks o e.partners (e'.complete s' place (inv.without o) report) (e.complete s place inv report) := by
  obtain ⟨rfl, hi⟩ := hs
  unfold Engine.complete
  rw [he.recordsEvents]
  split
  · have recorded (event : Event) : Lacks o e.partners
        { s.without o with world := { s.world.without o with
          journal := (s.world.without o).journal ++ [(s.now, .event event)] } }
        { s with world := { s.world with journal := s.world.journal ++ [(s.now, .event event)] } } := by
      refine ⟨?_, hi⟩
      simp only [Service.without, World.without, List.filter_append]
      rfl
    exact (recorded _).finish place inv report
  · exact Lacks.finish ⟨rfl, hi⟩ place inv report

/-- What plays for one invocation of the one, plays for that of the other but for those calls. -/
private theorem StandsIn.play {α : Type} {s : Service} (hi : s.Indifferent o e.partners) (inv : Invocation)
    {rest : RunProcess α} (hr : rest.Indifferent o e.partners) :
    ∃ stop scene, rest.play e.partners (some s.now) ⟨s.world, inv.feed⟩ = (stop, scene) ∧
      (rest.without o).play e'.partners (some (s.without o).now) ⟨(s.without o).world, (inv.without o).feed⟩ =
        (stop.without o, scene.without o) ∧ stop.rest.Indifferent o e.partners ∧
      Lacks o e.partners { s.without o with world := (scene.without o).world } { s with world := scene.world } :=
  ⟨_, _, rfl, Process.play_without he.partners (some s.now) hr ⟨s.world, inv.feed⟩,
    hr.of_leads (Process.leads_play ..), rfl, hi⟩

private theorem StandsIn.close (hs : Lacks o e.partners s' s) (place : Nat) (inv : Invocation) (report : Report)
    (limit : Nat)
    {rest : RunProcess Unit} (hr : rest.Indifferent o e.partners) :
    Lacks o e.partners (e'.close s' place (inv.without o) report limit (rest.without o))
      (e.close s place inv report limit rest) := by
  obtain ⟨rfl, hi⟩ := hs
  obtain ⟨stop, scene, hplay, hplay', hrest, hlacks⟩ := he.play hi inv hr
  unfold Engine.close
  rw [hplay, hplay']
  have complete := he.complete hlacks place inv report
  cases stop with
  | finished => exact complete
  | broke message => exact hlacks.put place inv (.broken ..) trivial
  | paused due rest' =>
    exact complete.ite limit
      (hlacks.put place inv (.closing report limit (some (Service.pendingAt _ due rest'))) hrest)
  | stuck => exact complete.ite limit (hlacks.put place inv (.closing report limit none) trivial)

private theorem StandsIn.conclude (hs : Lacks o e.partners s' s) (place : Nat) (inv : Invocation) (report : Report) :
    Lacks o e.partners (e'.conclude s' place (inv.without o) report) (e.conclude s place inv report) := by
  obtain ⟨hrest, hi⟩ := he.afterComplete inv.command report.result
  have hrest : e'.afterComplete (inv.without o).command report.result = _ := hrest
  unfold Engine.conclude
  rw [hrest, hs.now]
  exact he.close hs place inv report _ hi

private theorem StandsIn.cancel {s₁ s₁' : Service} (hs : Lacks o e.partners s' s) (hs₁ : Lacks o e.partners s₁' s₁)
    (place : Nat)
    (inv : Invocation) :
    Lacks o e.partners (e'.conclude s₁' place (inv.without o) (reportOf s' (inv.without o) (.error .cancelled)))
      (e.conclude s₁ place inv (reportOf s inv (.error .cancelled))) := by
  have hreport : reportOf s' (inv.without o) (.error .cancelled) = reportOf s inv (.error .cancelled) := hs.eq ▸ rfl
  rw [hreport]
  exact he.conclude hs₁ place inv _

/-- At the deadline both report the same, whatever is given up before. -/
private theorem StandsIn.timeOut {s₁ s₁' : Service} (hs : Lacks o e.partners s' s) (hs₁ : Lacks o e.partners s₁' s₁)
    (place : Nat)
    (inv : Invocation) :
    Lacks o e.partners (e'.conclude s₁' place (inv.without o) (e'.timedOutReport s' (inv.without o)))
      (e.conclude s₁ place inv (e.timedOutReport s inv)) := by
  rw [he.timedOutReport hs]
  exact he.conclude hs₁ place inv _

private theorem StandsIn.resume (hs : Lacks o e.partners s' s) (place : Nat) (inv : Invocation)
    {rest : RunProcess (Except RunError Outcome)} (hr : rest.Indifferent o e.partners) :
    Lacks o e.partners (e'.resume s' place (inv.without o) (rest.without o)) (e.resume s place inv rest) := by
  obtain ⟨rfl, hi⟩ := hs
  obtain ⟨stop, scene, hplay, hplay', hrest, hlacks⟩ := he.play hi inv hr
  unfold Engine.resume
  rw [hplay, hplay']
  have timedOut := he.timeOut hlacks hlacks.release place { inv with feed := scene.feed }
  cases stop with
  | finished outcome => exact he.conclude hlacks.release place { inv with feed := scene.feed } _
  | broke message => exact hlacks.release.put place { inv with feed := scene.feed } (.broken ..) trivial
  | paused due rest' =>
    exact timedOut.ite inv.deadline
      (hlacks.put place { inv with feed := scene.feed } (.running (some (Service.pendingAt _ due rest'))) hrest)
  | stuck =>
    exact timedOut.ite inv.deadline
      (hlacks.put place { inv with feed := scene.feed } (.running none) trivial)

private theorem StandsIn.enter (hs : Lacks o e.partners s' s) (place : Nat) (inv : Invocation) :
    Lacks o e.partners (e'.enter s' place (inv.without o)) (e.enter s place inv) := by
  obtain ⟨hrest, hi⟩ := he.run inv.command inv.streams
  have hrest : e'.run (inv.without o).command (inv.without o).streams = _ := hrest
  unfold Engine.enter
  rw [hrest]
  exact he.resume hs place inv hi

private theorem StandsIn.cut? (hs : Lacks o e.partners s' s) (place : Nat) (inv : Invocation)
    {leave : Service → Service}
    (hl : Lacks o e.partners (leave s') (leave s)) :
    Option.Rel (Lacks o e.partners) (e'.cut? s' place (inv.without o) leave) (e.cut? s place inv leave) := by
  have hcancelled : s'.isCancelled (inv.without o).token = s.isCancelled inv.token := hs.isCancelled inv.token
  have hdeadline : (inv.without o).deadline = inv.deadline := rfl
  unfold Engine.cut?
  rw [hcancelled, hs.now, hdeadline]
  exact rel_ite (.some (he.cancel hs hl place inv)) (rel_ite (.some (he.timeOut hs hl place inv)) .none)

private theorem StandsIn.poll? (hs : Lacks o e.partners s' s) (place : Nat) (inv : Invocation)
    (hi : inv.stage.Indifferent o e.partners) :
    Option.Rel (Lacks o e.partners) (e'.poll? s' place (inv.without o)) (e.poll? s place inv) := by
  have hs := hs.noteDrop inv
  unfold Engine.poll?
  generalize s'.noteDrop (inv.without o) = s', s.noteDrop inv = s at hs
  have hcancelled : s'.isCancelled (inv.without o).token = s.isCancelled inv.token := hs.isCancelled inv.token
  have cancel := he.cancel hs hs place inv
  have timeOut := he.timeOut hs hs place inv
  have leave : Option.Rel (Lacks o e.partners) (e'.cut? s' place (inv.without o) (·.release))
      (e.cut? s place inv (·.release)) := he.cut? hs place inv hs.release
  have leaveQueue : Option.Rel (Lacks o e.partners) (e'.cut? s' place (inv.without o) (·.leaveQueue place))
      (e.cut? s place inv (·.leaveQueue place)) := he.cut? hs place inv ⟨by rw [hs.eq]; rfl, hs.indifferent⟩
  have enter := he.enter hs place inv
  have hfree : Lacks o e.partners { s' with free := s'.free - 1 } { s with free := s.free - 1 } :=
    ⟨by rw [hs.eq]; rfl, hs.indifferent⟩
  have enterFree := he.enter hfree place inv
  have queue : Lacks o e.partners ({ s' with queue := s'.queue ++ [place] }.put place (inv.without o) .queued)
      ({ s with queue := s.queue ++ [place] }.put place inv .queued) :=
    Lacks.put (s := { s with queue := s.queue ++ [place] })
      ⟨by rw [hs.eq]; rfl, hs.indifferent⟩ place inv .queued trivial
  have complete := he.complete hs place inv
  have resume {rest : RunProcess (Except RunError Outcome)} (hr : rest.Indifferent o e.partners) :=
    he.resume hs place inv hr
  have close {report : Report} {limit : Nat} {rest : RunProcess Unit} (hr : rest.Indifferent o e.partners) :=
    he.close hs place inv report limit hr
  have mark := hs.putMark place inv
  dsimp only
  rw [hcancelled]
  obtain ⟨rfl, -⟩ := hs
  obtain ⟨command, streams, token, start, deadline, feed, stage⟩ := inv
  cases stage with
  | dormant =>
    exact rel_ite .none (rel_ite (.some cancel) (rel_ite (.some enterFree) (rel_ite (.some timeOut) (.some queue))))
  | queued => exact leaveQueue
  | granted due lap => exact rel_ite (.some enter) leave
  | running pending =>
    cases pending with
    | none => exact leave
    | some p => exact rel_ite (.some (resume hi)) leave
  | closing report limit pending =>
    cases pending with
    | none => exact rel_ite (.some (complete report)) .none
    | some p => exact rel_ite (.some (close hi)) (rel_ite (.some (complete report)) .none)
  | marking report ended due => exact rel_ite (.some (mark report ended)) .none
  | finished | broken => exact .none

theorem StandsIn.stepAt? (hs : Lacks o e.partners s' s) (slot : Slot) :
    Option.Rel (Lacks o e.partners) (e'.stepAt? s' slot) (e.stepAt? s slot) := by
  have hinv : s'.invocations[slot.place]? = s.invocations[slot.place]?.map (·.without o) :=
    hs.eq ▸ getElem?_without s slot.place
  unfold Engine.stepAt?
  rw [hinv]
  cases hat : s.invocations[slot.place]? with
  | none => exact .none
  | some inv =>
    exact he.poll? (hs.atSlot slot) slot.place inv (hs.indifferent inv (List.mem_of_getElem? hat))

/-! ### Everything that is done with an engine -/

/-- Whoever wants the same steps of both gets the same steps. -/
private theorem StandsIn.advance (hs : Lacks o e.partners s' s) (wanted : Service → Slot → Bool)
    (hw : ∀ s slot, wanted (s.without o) slot = wanted s slot) :
    Lacks o e.partners (e'.advance wanted s') (e.advance wanted s) := by
  induction s using running_on e wanted generalizing s' with
  | stop s hstop =>
    have hstop' (slot : Slot) (hn : s'.next? = some slot) : wanted s' slot = false := by
      rw [hs.eq, next?_without] at hn
      rw [hs.eq, hw]
      exact hstop slot hn
    rwa [advance_of_stop hstop, advance_of_stop hstop']
  | step s slot t hn hwanted hstep ih =>
    have hn' : s'.next? = some slot := by rw [hs.eq, next?_without, hn]
    have hrel := he.stepAt? hs slot
    rw [hstep] at hrel
    generalize hstep' : e'.stepAt? s' slot = result at hrel
    cases hrel with
    | some ht =>
      rw [advance_of_step hn hwanted hstep, advance_of_step hn' (by rw [hs.eq, hw, hwanted]) hstep']
      exact ih ht

omit he

private theorem length_without (s : Service) :
    (s.without o).invocations.length = s.invocations.length := List.length_map _

mutual

theorem StandsIn.start (he : StandsIn o e' e) {s s' : Service} (hs : Lacks o e.partners s' s) (time : Nat)
    (action : Action) :
    (e'.start time action s').1 = (e.start time action s).1 ∧
      Lacks o e.partners (e'.start time action s').2 (e.start time action s).2 := by
  cases action with
  | invoke delay command reader cancelAfter =>
    obtain ⟨rfl, hi⟩ := hs
    unfold Engine.start
    dsimp only
    rw [length_without, he.deadline]
    refine ⟨rfl, ?_, fun inv hm => ?_⟩
    · simp only [Service.without, List.map_append]
      rfl
    · rcases List.mem_append.1 hm with hm | hm
      · exact hi inv hm
      · obtain rfl := List.mem_singleton.1 hm
        trivial
  | look delay session =>
    obtain ⟨rfl, hi⟩ := hs
    unfold Engine.start
    dsimp only
    rw [length_without]
    exact ⟨rfl, rfl, hi⟩
  | together delay actions =>
    obtain ⟨hplans, hlacks⟩ := StandsIn.startAll he hs (time + delay) actions
    unfold Engine.start
    dsimp only
    rw [hplans]
    exact ⟨rfl, hlacks⟩

theorem StandsIn.startAll (he : StandsIn o e' e) {s s' : Service} (hs : Lacks o e.partners s' s) (time : Nat)
    (actions : List Action) :
    (e'.startAll time actions s').1 = (e.startAll time actions s).1 ∧
      Lacks o e.partners (e'.startAll time actions s').2 (e.startAll time actions s).2 := by
  cases actions with
  | nil =>
    unfold Engine.startAll
    exact ⟨rfl, hs⟩
  | cons action rest =>
    obtain ⟨hplan, hlacks⟩ := StandsIn.start he hs time action
    obtain ⟨hplans, hlacks⟩ := StandsIn.startAll he hlacks time rest
    unfold Engine.startAll
    dsimp only
    rw [hplan, hplans]
    exact ⟨rfl, hlacks⟩

end

/-- Whoever looks at the history sees the same. -/
private theorem StandsIn.takeLooks (he : StandsIn o e' e) (hs : Lacks o e.partners s' s) (looks : List Look) :
    (e'.takeLooks looks s').1 = (e.takeLooks looks s).1 ∧
      Lacks o e.partners (e'.takeLooks looks s').2 (e.takeLooks looks s).2 := by
  induction looks generalizing s s' with
  | nil => exact ⟨rfl, hs⟩
  | cons look rest ih =>
    have hadvanced := he.advance hs (fun _ slot => slot.before ⟨look.time, 0, look.place⟩) fun _ _ => rfl
    obtain ⟨hseen, hlacks⟩ := ih hadvanced
    refine ⟨?_, hlacks⟩
    unfold Engine.takeLooks
    dsimp only
    rw [hseen, hadvanced.eq]
    rfl

private theorem answeredAt?_without (inv : Invocation) : answeredAt? (inv.without o) = answeredAt? inv := by
  obtain ⟨command, streams, token, start, deadline, feed, stage⟩ := inv
  rcases stage with _ | _ | _ | ⟨_ | _⟩ | ⟨_, _, _ | _⟩ | _ | _ | _ <;> rfl

private theorem allAnsweredAt?_without (s : Service) (places : List Nat) :
    allAnsweredAt? (s.without o) places = allAnsweredAt? s places := by
  induction places with
  | nil => rfl
  | cons place rest ih =>
    unfold allAnsweredAt?
    rw [getElem?_without, ih]
    cases s.invocations[place]? with
    | none => rfl
    | some inv => simp [answeredAt?_without]

private theorem answerOf_without (s : Service) (place start : Nat) :
    answerOf (s.without o) place start = answerOf s place start := by
  unfold answerOf
  rw [getElem?_without]
  cases s.invocations[place]? with
  | none => rfl
  | some inv =>
    simp only [Option.map_some, answeredAt?_without]
    obtain ⟨command, streams, token, start, deadline, feed, stage⟩ := inv
    rcases stage with _ | _ | _ | ⟨_ | _⟩ | ⟨_, _, _ | _⟩ | _ | _ | _ <;> rfl

mutual

theorem answer_without (s : Service) (seen : List (Look × List Message)) (plan : Plan) :
    answer (s.without o) seen plan = answer s seen plan := by
  cases plan with
  | invocation place start => exact answerOf_without s place start
  | look time place session => rfl
  | several plans =>
    unfold answer
    rw [answerAll_without s seen plans]

theorem answerAll_without (s : Service) (seen : List (Look × List Message)) (plans : List Plan) :
    answerAll (s.without o) seen plans = answerAll s seen plans := by
  cases plans with
  | nil => rfl
  | cons plan rest =>
    unfold answerAll
    rw [answer_without s seen plan, answerAll_without s seen rest]

end

/-- Actions one after the other, with their answers. -/
def performAll (e : Engine) : List Action → Service → Except Mishap (List Answer × Service)
  | [], s => .ok ([], s)
  | action :: rest, s => do
    let (answer, s) ← e.perform action s
    let (answers, s) ← performAll e rest s
    return (answer :: answers, s)

/-- Both come to the same answers, or to the same mishap. -/
inductive Matches (o : Outage) (partners : Partners) {α : Type} :
    Except Mishap (α × Service) → Except Mishap (α × Service) → Prop where
  | error (mishap : Mishap) : Matches o partners (.error mishap) (.error mishap)
  | ok {t' t : Service} (answer : α) (h : Lacks o partners t' t) :
    Matches o partners (.ok (answer, t')) (.ok (answer, t))

theorem Matches.map_eq {α : Type} {r' r : Except Mishap (α × Service)} (h : Matches o partners r' r) :
    r' = r.map fun (answer, t) => (answer, t.without o) := by
  cases h with
  | error => rfl
  | ok answer h => rw [h.eq]; rfl

/-- Whoever does something with either of them gets the same answer. -/
private theorem StandsIn.perform (he : StandsIn o e' e) (hs : Lacks o e.partners s' s) (action : Action) :
    Matches o e.partners (e'.perform action s') (e.perform action s) := by
  have hlap : Lacks o e.partners { s' with lap := 0 } { s with lap := 0 } := ⟨hs.eq ▸ rfl, hs.indifferent⟩
  obtain ⟨hplan, hstarted⟩ := he.start hlap s.now action
  unfold Engine.perform
  rw [hs.now]
  dsimp only
  rw [hplan]
  generalize (e.start s.now action { s with lap := 0 }).1 = plan
  generalize (plan.looks.mergeSort _) = looks
  obtain ⟨hseen, hlooked⟩ := he.takeLooks hstarted looks
  rw [hseen]
  have hanswered := he.advance hlooked (fun s slot => (allAnsweredAt? s plan.places).all (slot.time ≤ ·))
    fun s slot => by rw [allAnsweredAt?_without]
  revert hanswered
  generalize Engine.advance e' _ _ = t', Engine.advance e _ _ = t
  rintro ⟨rfl, hi⟩
  rw [allAnsweredAt?_without]
  cases allAnsweredAt? t plan.places with
  | none => exact .error .hang
  | some answered =>
    suffices h : ∀ now, Matches o e.partners
        (answer (Service.without o { t with world := { t.world with now } }) (e.takeLooks looks _).1 plan >>= fun a =>
          pure (a, Service.without o { t with world := { t.world with now } }))
        (answer { t with world := { t.world with now } } (e.takeLooks looks _).1 plan >>= fun a =>
          pure (a, { t with world := { t.world with now } })) from h _
    intro now
    rw [answer_without]
    cases answer { t with world := { t.world with now } } (e.takeLooks looks _).1 plan with
    | error mishap => exact .error mishap
    | ok a => exact .ok a ⟨rfl, hi⟩

theorem StandsIn.performAll (he : StandsIn o e' e) (hs : Lacks o e.partners s' s) (actions : List Action) :
    Matches o e.partners (e'.performAll actions s') (e.performAll actions s) := by
  induction actions generalizing s s' with
  | nil => exact .ok [] hs
  | cons action rest ih =>
    unfold Engine.performAll
    have hperform := he.perform hs action
    revert hperform
    generalize e'.perform action s' = r', e.perform action s = r
    intro hperform
    cases hperform with
    | error mishap => exact .error mishap
    | ok answer ht =>
      have hrest := ih ht
      show Matches o e.partners (e'.performAll rest _ >>= _) (e.performAll rest _ >>= _)
      revert hrest
      generalize e'.performAll rest _ = r', e.performAll rest _ = r
      intro hrest
      cases hrest with
      | error mishap => exact .error mishap
      | ok answers ht => exact .ok (answer :: answers) ht

end Engine

end AgentLoop
