import AgentLoop.Proofs.Narration
import AgentLoop.Proofs.Onward
import AgentLoop.Proofs.Records

/-!
# How an invocation closes

Once its result is fixed, the hooks are told of it one after the other, and what they do is laid down in their
`schedule`.  They have time until a limit.  What an invocation that closes still leaves in the journal, and how it ends,
is the schedule as far as it comes by then and the last event after that: `Leaves` says so of every stage, each step
keeps it, and so it holds of whatever else happens to the service.
-/

namespace AgentLoop

open Process

namespace HookChain

variable {hooks : List Hook} {context : HookContext} {result : ExecutionResult} {message : String}

/-- Takes down a note. -/
abbrev jot (entry : Entry) : Process (.notes Entry) Unit := Process.ask (S := .notes Entry) entry

/-- What the hooks do that are told of a result from a time on: each is called when the one before it is done, and it
makes no difference whether that has failed. -/
def schedule (context : HookContext) (result : ExecutionResult) (now : Nat) : List Hook → Timeline Entry Unit
  | [] => ⟨[], now, .returns ()⟩
  | h :: rest =>
    match h.afterComplete with
    | none => schedule context result now rest
    | some answer =>
      let later := now + (answer context result).after
      match (answer context result).ending with
      | .returns _ => (schedule context result later rest).after
          [(now, .afterComplete h.name context result), (later, .afterCompleteEnd h.name)]
      | .faults message => ⟨[(now, .afterComplete h.name context result)], later, .faults message⟩
      | .hangs => ⟨[(now, .afterComplete h.name context result)], later, .hangs⟩

/-- All that hooks are told of a result are notes. -/
private theorem afterComplete_eq_mapNotes (hooks : List Hook) (context : HookContext) (result : ExecutionResult) :
    afterComplete RunProcess.note hooks context result =
      (afterComplete jot hooks context result).mapNotes RunProcess.note := by
  have hjot (entry : Entry) : (jot entry).mapNotes RunProcess.note = RunProcess.note entry := rfl
  unfold afterComplete
  simp only [List.forM_eq_forM]
  induction hooks with
  | nil => rfl
  | cons h rest ih =>
    rw [List.forM_cons, List.forM_cons, mapNotes_bind, ih]
    refine congrArg (· >>= _) ?_
    cases h.afterComplete with
    | none => rfl
    | some answer => simp only [mapNotes_bind, mapNotes_react, hjot]

private theorem swift_afterComplete (hooks : List Hook) (context : HookContext) (result : ExecutionResult) :
    (afterComplete jot hooks context result).Swift := by
  unfold afterComplete
  simp only [List.forM_eq_forM]
  induction hooks with
  | nil => trivial
  | cons h rest ih =>
    rw [List.forM_cons]
    refine Swift.bind ?_ fun _ => ih
    cases h.afterComplete with
    | none => trivial
    | some answer => exact (swift_react _).bind fun _ => trivial

private theorem timelineFrom_afterComplete (hooks : List Hook) (context : HookContext) (result : ExecutionResult)
    (now : Nat) :
    (afterComplete jot hooks context result).timelineFrom now = schedule context result now hooks := by
  unfold afterComplete
  simp only [List.forM_eq_forM]
  induction hooks generalizing now with
  | nil => rfl
  | cons h rest ih =>
    rw [List.forM_cons, timelineFrom_bind, schedule]
    cases h.afterComplete with
    | none => exact ih now
    | some answer =>
      have hjot (entry : Entry) (time : Nat) : (jot entry).timelineFrom time = ⟨[(time, entry)], time, .returns ()⟩ := rfl
      simp only [timelineFrom_bind, timelineFrom_react, hjot, Timeline.andThen]
      cases (answer context result).ending with
      | returns a => exact congrArg (Timeline.after [_, _]) (ih _)
      | faults message => rfl
      | hangs => rfl

/-- Only a hook that breaks down when it is told breaks the schedule. -/
theorem balks_of_schedule {now : Nat} (h : (schedule context result now hooks).ending = .faults message) :
    Balks hooks context result := by
  induction hooks generalizing now with
  | nil => cases h
  | cons hook rest ih =>
    have later (hrest : Balks rest context result) : Balks (hook :: rest) context result := by
      obtain ⟨other, hother, hbreaks⟩ := hrest
      exact ⟨other, List.mem_cons_of_mem _ hother, hbreaks⟩
    rw [schedule] at h
    cases hanswer : hook.afterComplete with
    | none =>
      rw [hanswer] at h
      exact later (ih h)
    | some answer =>
      rw [hanswer] at h
      dsimp only at h
      cases hending : (answer context result).ending with
      | returns a =>
        rw [hending] at h
        exact later (ih h)
      | faults message => exact ⟨hook, List.mem_cons_self .., answer, message, hanswer, hending⟩
      | hangs =>
        rw [hending] at h
        cases h

end HookChain

namespace Engine

variable {e : Engine} {s s₁ t : Service} {place : Nat} {inv : Invocation} {report : Report} {limit now : Nat}
  {stage final : Stage} {left : Journal} {slot : Slot}

/-! ### What is still to come -/

/-- The last event, when it is recorded at a time. -/
def completionAt (e : Engine) (report : Report) (time : Nat) : Journal :=
  (e.completion report).map fun event => (time, .event event)

/-- What is left in the journal of telling the hooks and of what follows. -/
def partingLog (e : Engine) (report : Report) (told : Timeline Entry (Option Unit)) : Journal :=
  match told.ending with
  | .faults _ => told.beats
  | .returns _ | .hangs => told.beats ++ e.completionAt report told.length

/-- How an invocation ends whose hooks have been told. -/
def partingStage (report : Report) (told : Timeline Entry (Option Unit)) : Stage :=
  match told.ending with
  | .faults message => .broken message told.length (some report)
  | .returns _ | .hangs => .finished report told.length

private theorem partingLog_after (e : Engine) (report : Report) (earlier : Journal)
    (told : Timeline Entry (Option Unit)) :
    e.partingLog report (told.after earlier) = earlier ++ e.partingLog report told := by
  have hending : (told.after earlier).ending = told.ending := rfl
  unfold partingLog
  rw [hending]
  cases told.ending with
  | faults => rfl
  | returns | hangs => exact List.append_assoc ..

/-- What an invocation that closes leaves in the journal from this stage on, and how it ends, if its hooks have time
until a limit. -/
inductive Leaves (e : Engine) (report : Report) (limit now : Nat) : Stage → Journal → Stage → Prop where
  | tells {due lap : Nat} {rest : Process (.notes Entry) Unit} (hn : now ≤ limit) (hs : rest.Swift) :
    Leaves e report limit now (.closing report limit (some ⟨due, lap, rest.mapNotes RunProcess.note⟩))
      (e.partingLog report ((rest.timelineFrom due).through limit))
      (partingStage report ((rest.timelineFrom due).through limit))
  | hangs (hn : now ≤ limit) :
    Leaves e report limit now (.closing report limit none) (e.completionAt report limit) (.finished report limit)
  | marks {ended due : Nat} : Leaves e report limit now (.marking report ended due) [] (.finished report ended)
  | finished {ended : Nat} : Leaves e report limit now (.finished report ended) [] (.finished report ended)
  | broken {message : String} {ended : Nat} :
    Leaves e report limit now (.broken message ended (some report)) [] (.broken message ended (some report))

/-- Something is left in the journal, and the rest is still to come. -/
structure Parts (e : Engine) (report : Report) (limit place : Nat) (left : Journal) (final : Stage) (s t : Service) :
    Prop where
  split : ∃ told later inv', t.world.journal = s.world.journal ++ told ∧ left = told ++ later ∧
    t.invocations[place]? = some inv' ∧ Leaves e report limit s.now inv'.stage later final

private theorem parts_put (hlt : place < s.invocations.length) (inv : Invocation)
    (h : Leaves e report limit s.now stage left final) : Parts e report limit place left final s (s.put place inv stage) :=
  ⟨[], left, _, (List.append_nil _).symm, rfl, List.getElem?_set_self hlt, h⟩

/-- What was left before belongs to it. -/
private theorem Parts.after {told : Journal} (h : Parts e report limit place left final s₁ t)
    (hj : s₁.world.journal = s.world.journal ++ told) (hn : s₁.now = s.now) :
    Parts e report limit place (told ++ left) final s t := by
  obtain ⟨more, later, inv', hmore, rfl, hi, hleaves⟩ := h.split
  refine ⟨told ++ more, later, inv', ?_, (List.append_assoc ..).symm, hi, hn ▸ hleaves⟩
  rw [hmore, hj, List.append_assoc]

private theorem parts_putMark (hlt : place < s.invocations.length) (inv : Invocation) (ended : Nat) :
    Parts e report limit place [] (.finished report ended) s (s.putMark place inv report ended) := by
  unfold Service.putMark
  split
  · exact parts_put hlt _ .finished
  · exact parts_put hlt _ .finished
  · exact parts_put hlt _ .finished

private theorem parts_finish (hlt : place < s.invocations.length) (inv : Invocation) :
    Parts e report limit place [] (.finished report s.now) s (s.finish place inv report) := by
  unfold Service.finish
  split
  · exact parts_put hlt _ .marks
  · exact parts_putMark hlt ..
  · exact parts_put hlt _ .finished

private theorem parts_complete (hlt : place < s.invocations.length) (inv : Invocation) :
    Parts e report limit place (e.completionAt report s.now) (.finished report s.now) s
      (e.complete s place inv report) := by
  have hall : e.completionAt report s.now ++ [] = e.completionAt report s.now := List.append_nil _
  rw [← hall]
  unfold complete completionAt completion
  split
  · refine (parts_finish (s := { s with world := { s.world with
      journal := s.world.journal ++ [(s.now, .event (completed report.result report.toolCalls))] } }) hlt inv).after ?_ rfl
    rfl
  · exact (parts_finish hlt inv).after (List.append_nil _).symm rfl

/-- Where the telling stops, the hooks are done, or have had their time, or what is left of the telling is put off. -/
private theorem parts_of_halts (hlt : place < s.invocations.length) (inv : Invocation) (hn : s.now ≤ limit)
    {telling : RunProcess Unit} {timeline : Timeline Entry Unit} {noted : Journal} (htimes : ∀ x ∈ noted, x.1 = s.now)
    (hhalts : Halts s.now timeline noted (telling.play e.partners (some s.now) ⟨s.world, inv.feed⟩).1)
    (hj : (telling.play e.partners (some s.now) ⟨s.world, inv.feed⟩).2.world.journal = s.world.journal ++ noted) :
    Parts e report limit place (e.partingLog report (timeline.through limit))
      (partingStage report (timeline.through limit)) s (e.close s place inv report limit telling) := by
  have hbefore : ∀ beat ∈ noted, beat.1 ≤ limit := fun beat hbeat => Nat.le_trans (Nat.le_of_eq (htimes beat hbeat)) hn
  have hnow : (telling.play e.partners (some s.now) ⟨s.world, inv.feed⟩).2.world.now = s.now := now_play _ rfl
  unfold close
  generalize telling.play e.partners (some s.now) ⟨s.world, inv.feed⟩ = result at hhalts hj hnow
  obtain ⟨stop, scene⟩ := result
  dsimp only at hhalts hj hnow
  have hlt' : place < ({ s with world := scene.world } : Service).invocations.length := hlt
  have hclock : Service.now { s with world := scene.world } = s.now := hnow
  have after {t : Service} {left : Journal} {final : Stage}
      (h : Parts e report limit place left final { s with world := scene.world } t) :
      Parts e report limit place (noted ++ left) final s t := h.after hj hclock
  have completes : Parts e report limit place (noted ++ e.completionAt report s.now) (.finished report s.now) s
      (e.complete { s with world := scene.world } place inv report) := by
    have hc : Parts e report limit place _ _ _ _ := parts_complete hlt' inv
    rw [hclock] at hc
    exact after hc
  cases hhalts with
  | finished h =>
    have hover : timeline.isOverBy limit = true := by rw [h]; exact decide_eq_true hn
    rw [Timeline.through_of_isOverBy hover, h]
    exact completes
  | @broke message h =>
    have hover : timeline.isOverBy limit = true := by rw [h]; exact decide_eq_true hn
    have hstage : Leaves e report limit (Service.now { s with world := scene.world })
      (.broken message s.now (some report)) [] (.broken message s.now (some report)) := .broken
    have hput := after (parts_put hlt' inv hstage)
    rw [List.append_nil] at hput
    rw [Timeline.through_of_isOverBy hover, h]
    dsimp only
    rw [hclock]
    exact hput
  | @paused due rest hd hs h =>
    rw [h, Timeline.through_after hbefore, partingLog_after]
    dsimp only
    split
    · rename_i hlimit
      have heq : s.now = limit := Nat.le_antisymm hn (hclock ▸ hlimit)
      rw [rest.through_timelineFrom (heq ▸ hd)]
      exact heq ▸ completes
    · exact after (parts_put hlt' _ (.tells (hclock ▸ hn) hs))
  | stuck h =>
    have hcut : timeline.through limit = (⟨[], limit, .returns none⟩ : Timeline Entry (Option Unit)).after noted := by
      rw [h, ← Timeline.after_of_no_beats, Timeline.through_after hbefore]
      rfl
    rw [hcut, partingLog_after]
    dsimp only
    split
    · rename_i hlimit
      have heq : s.now = limit := Nat.le_antisymm hn (hclock ▸ hlimit)
      exact heq ▸ completes
    · exact after (parts_put hlt' _ (.hangs (hclock ▸ hn)))

/-- The hooks go on being told. -/
private theorem parts_close (hlt : place < s.invocations.length) (inv : Invocation) {rest : Process (.notes Entry) Unit}
    (hs : rest.Swift) (hn : s.now ≤ limit) :
    Parts e report limit place (e.partingLog report ((rest.timelineFrom s.now).through limit))
      (partingStage report ((rest.timelineFrom s.now).through limit)) s
      (e.close s place inv report limit (rest.mapNotes RunProcess.note)) := by
  have hclock : (⟨s.world, inv.feed⟩ : Scene).world.now = s.now := rfl
  obtain ⟨noted, hhalts, hj, htimes⟩ := halts_play e.partners hs hclock
  exact parts_of_halts hlt inv hn htimes hhalts hj

/-- What the hooks do that are told of a result fixed at a time, until they have had their time. -/
def told (e : Engine) (inv : Invocation) (report : Report) (time : Nat) : Timeline Entry (Option Unit) :=
  (HookChain.schedule (hookContext inv.command) report.result time e.hooks).through (max inv.deadline (time + hookGrace))

theorem parts_conclude (hlt : place < s.invocations.length) (inv : Invocation) :
    Parts e report (max inv.deadline (s.now + hookGrace)) place (e.partingLog report (e.told inv report s.now))
      (partingStage report (e.told inv report s.now)) s (e.conclude s place inv report) := by
  have hswift := HookChain.swift_afterComplete e.hooks (hookContext inv.command) report.result
  have hgrace : s.now ≤ max inv.deadline (s.now + hookGrace) :=
    Nat.le_trans (Nat.le_add_right s.now hookGrace) (Nat.le_max_right ..)
  have hparts : Parts e report _ place _ _ s _ := parts_close hlt inv hswift hgrace
  rw [HookChain.timelineFrom_afterComplete, ← HookChain.afterComplete_eq_mapNotes] at hparts
  exact hparts

/-! ### Step by step -/

/-- In a step of its own an invocation that closes leaves some of what it has to leave. -/
private theorem parts_stepAt? (hn : s.Next slot inv) (h : Leaves e report limit s.now inv.stage left final)
    (hstep : e.stepAt? s slot = some t) : Parts e report limit slot.place left final (s.atSlot slot) t := by
  obtain ⟨other, ho, hpoll⟩ := Option.bind_eq_some_iff.1 hstep
  obtain rfl : inv = other := Option.some.inj (hn.getElem?.symm.trans ho)
  have hworld := (s.atSlot slot).world_noteDrop inv
  have hnow : ((s.atSlot slot).noteDrop inv).now = slot.time := congrArg World.now hworld
  have hlt : slot.place < ((s.atSlot slot).noteDrop inv).invocations.length := by
    rw [Service.invocations_noteDrop]
    exact (List.getElem?_eq_some_iff.1 ho).1
  have heard (hp : Parts e report limit slot.place left final ((s.atSlot slot).noteDrop inv) t) :
      Parts e report limit slot.place left final (s.atSlot slot) t := by
    have hj : ((s.atSlot slot).noteDrop inv).world.journal = (s.atSlot slot).world.journal ++ [] := by
      rw [hworld, List.append_nil]
    exact hp.after hj (congrArg World.now hworld)
  refine heard ?_
  have hslot := hn.slot?
  rw [Service.slot?_eq] at hslot
  unfold poll? at hpoll
  dsimp only at hpoll
  generalize inv.stage = stage at h hslot hpoll
  cases h with
  | @tells due lap rest hle hs =>
    have hfirst := Slot.time_earlier_le ⟨due, lap, slot.place⟩ (s.slotAt slot.place limit)
    rw [Option.some.inj hslot, Service.time_slotAt] at hfirst
    have hlimit : slot.time ≤ limit := by omega
    dsimp only at hpoll hfirst
    rw [hnow] at hpoll
    split at hpoll
    · -- it is not later than when the telling was to go on
      have hdue : due = ((s.atSlot slot).noteDrop inv).now := by omega
      rw [hdue]
      exact Option.some.inj hpoll ▸ parts_close hlt inv hs (hnow ▸ hlimit)
    · rename_i hdue
      split at hpoll
      · rename_i hlate
        have heq : ((s.atSlot slot).noteDrop inv).now = limit := by omega
        rw [rest.through_timelineFrom (by omega), ← heq]
        exact Option.some.inj hpoll ▸ parts_complete hlt inv
      · cases hpoll
  | hangs hle =>
    have htime := congrArg Slot.time (Option.some.inj hslot)
    rw [Service.time_slotAt] at htime
    have heq : ((s.atSlot slot).noteDrop inv).now = limit := by omega
    dsimp only at hpoll
    rw [if_pos (Nat.le_of_eq heq.symm)] at hpoll
    rw [← heq]
    exact Option.some.inj hpoll ▸ parts_complete hlt inv
  | marks =>
    dsimp only at hpoll
    split at hpoll
    · exact Option.some.inj hpoll ▸ parts_putMark hlt ..
    · cases hpoll
  | finished | broken => cases hpoll

/-- When the next event comes, an invocation that closes has as much to leave as before. -/
private theorem Leaves.later (h : Leaves e report limit s.now inv.stage left final)
    (hi : s.invocations[place]? = some inv)
    {other : Invocation} (hn : s.Next slot other) : Leaves e report limit slot.time inv.stage left final := by
  have hslot := s.slot?_eq place inv
  have hat : (s.slotAt place limit).time = max s.now limit := Service.time_slotAt ..
  generalize hstage : inv.stage = stage at h hslot
  cases h with
  | @tells due lap rest hle hs =>
    have htime := hn.time_le hi hslot
    have hfirst := (Slot.time_earlier_le ⟨due, lap, place⟩ (s.slotAt place limit)).2
    exact .tells (Nat.le_trans htime (Nat.le_trans hfirst (by omega))) hs
  | hangs hle =>
    have htime := hn.time_le hi hslot
    exact .hangs (by omega)
  | marks => exact .marks
  | finished => exact .finished
  | broken => exact .broken

/-- An invocation that has begun to close leaves in the end all that it has to leave. -/
theorem leaves_on (hs : s.Sound e) (hi : s.invocations[place]? = some inv)
    (h : Leaves e report limit s.now inv.stage left final) : e.trail always place s = left ∧
      ∃ last, (e.advance always s).invocations[place]? = some last ∧ last.stage = final := by
  induction s using running_on e always generalizing inv left with
  | stop s hstop =>
    have hadvance : e.advance always s = s := advance_of_stop hstop
    rw [trail_of_stop hstop, hadvance]
    -- whoever is left with nothing to do has come to an end
    obtain ⟨other, ended, hstage⟩ | ⟨message, ended, fixed, hstage⟩ := ended_of_advance (hadvance.symm ▸ hi)
    · rw [hstage] at h
      cases h
      exact ⟨rfl, inv, hi, hstage⟩
    · rw [hstage] at h
      cases h
      exact ⟨rfl, inv, hi, hstage⟩
  | step s slot t hn hw hstep ih =>
    obtain ⟨mover, mover', entries, hm, ht⟩ := moves_of_stepAt? hs hstep
    obtain ⟨first, hnext⟩ := Service.next_of_next? hn
    rw [trail_of_moves hn hw hstep hm, advance_of_step hn hw hstep]
    by_cases hp : slot.place = place
    · subst hp
      obtain rfl : inv = first := Option.some.inj (hi.symm.trans hnext.getElem?)
      obtain ⟨told, later, inv', hj, rfl, hi', hleaves⟩ := (parts_stepAt? hnext h hstep).split
      have hentries : entries = told := List.append_cancel_left (hm.journal.symm.trans hj)
      have hclock : (s.atSlot slot).now = t.now := hm.now.symm
      obtain ⟨htrail, hlast⟩ := ih ht hi' (hclock ▸ hleaves)
      rw [if_pos rfl, hentries, htrail]
      exact ⟨rfl, hlast⟩
    · rw [if_neg hp, List.nil_append]
      rcases hm.others (Ne.symm hp) hi with hsame | ⟨hq, -⟩
      · exact ih ht hsame (hm.now ▸ h.later hi hnext)
      · rw [hq] at h
        cases h

end Engine

end AgentLoop
