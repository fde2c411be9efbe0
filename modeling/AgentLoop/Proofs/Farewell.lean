import AgentLoop.Proofs.Breakdown
import AgentLoop.Proofs.CleanCut
import AgentLoop.Proofs.Parting

/-!
# The result stands

A run waits, and in one of its steps its result is fixed, no later than at the deadline.  From then on there is nothing
but the hooks, and what they do is known beforehand.  They can neither change the result nor keep it back for longer
than until the deadline, or for a second if that takes longer.  So every invocation is over a second after its deadline
at the latest, whoever hangs.
-/

namespace AgentLoop

open Process

namespace Engine

variable {e : Engine} {s s₁ t : Service} {place time : Nat} {inv inv' : Invocation} {report : Report} {slot : Slot}

/-! ### Fixing a result -/

/-- The result of an invocation is open when an instant comes, and fixed when it has gone. -/
structure FixedAt (e : Engine) (s : Service) (place time : Nat) (report : Report) : Prop where
  waits : e.WaitsAt s place time
  fixed : ∃ inv, (e.advance (before (time + 1)) s).invocations[place]? = some inv ∧ inv.stage.report? = some report

private theorem advance_before_of_from {limit : Nat} (hf : s.From limit) : e.advance (before limit) s = s := by
  refine advance_of_stop fun slot hn => ?_
  obtain ⟨inv, hnext⟩ := Service.next_of_next? hn
  have hlate : ¬ slot.time < limit := Nat.not_lt.2 (hf hnext.getElem? hnext.slot?)
  simpa [before] using hlate

private theorem isWaiting_of_report? {stage : Stage} (h : stage.report? = some report) : stage.isWaiting = false := by
  cases hw : stage.isWaiting with
  | false => rfl
  | true =>
    rw [report?_of_isWaiting hw] at h
    cases h

/-- What is fixed is what the invocation comes to in the end. -/
private theorem FixedAt.reportAt (hs : s.Sound e) (h : e.FixedAt s place time report) :
    e.reportAt s place = some report := by
  obtain ⟨inv, hi, hr⟩ := h.fixed
  have hclosing := report_of_closing (sound_advance _ hs) hi (isWaiting_of_report? hr)
  rw [← reportAt_advance (time + 1), hclosing, hr]

/-- A result is fixed once only. -/
private theorem FixedAt.unique {time' : Nat} {report' : Report} (hs : s.Sound e) (h : e.FixedAt s place time report)
    (h' : e.FixedAt s place time' report') : time = time' ∧ report = report' := by
  -- what is fixed when an instant has gone is not open at any later one
  have notLater {a b : Nat} {r r' : Report} (ha : e.FixedAt s place a r) (hb : e.FixedAt s place b r') : ¬ a < b := by
    intro hlt
    obtain ⟨inv, hi, hr⟩ := ha.fixed
    obtain ⟨open', ho, hw⟩ := hb.waits
    have hadvance : e.advance (before b) s = e.advance (before b) (e.advance (before (a + 1)) s) := by
      refine advance_advance (fun _ slot hslot => ?_) s
      have hslot : slot.time < a + 1 := by simpa [before] using hslot
      exact decide_eq_true (by omega)
    obtain ⟨-, inv', hi', hover, -⟩ := closing_on (before b) (sound_advance _ hs) hi (isWaiting_of_report? hr)
    rw [← hadvance, ho] at hi'
    rw [Option.some.inj hi', hover] at hw
    cases hw
  have htime : time = time' := Nat.le_antisymm (Nat.not_lt.1 (notLater h' h)) (Nat.not_lt.1 (notLater h h'))
  exact ⟨htime, Option.some.inj ((h.reportAt hs).symm.trans (h'.reportAt hs))⟩

private theorem from_of_next (hn : s.Next slot inv) : s.From slot.time := fun hi h => hn.time_le hi h

/-- Before it is fixed, an invocation may have taken other steps. -/
private theorem FixedAt.of_step (h : e.FixedAt t place time report) (hn : s.next? = some slot)
    (hstep : e.stepAt? s slot = some t)
    (hf : t.From slot.time) (hi : s.invocations[place]? = some inv) (hw : inv.stage.isWaiting) :
    slot.time ≤ time ∧ e.FixedAt s place time report := by
  have hle : slot.time ≤ time := by
    refine Nat.not_lt.1 fun hlt => ?_
    obtain ⟨inv, hi, hwaiting⟩ := h.waits
    obtain ⟨inv', hi', hr⟩ := h.fixed
    have hfrom {limit : Nat} (hlimit : limit ≤ slot.time) : t.From limit := fun hi h => Nat.le_trans hlimit (hf hi h)
    rw [advance_before_of_from (hfrom (Nat.le_of_lt hlt))] at hi
    rw [advance_before_of_from (hfrom hlt)] at hi'
    obtain rfl := Option.some.inj (hi.symm.trans hi')
    rw [isWaiting_of_report? hr] at hwaiting
    cases hwaiting
  have hbefore {limit : Nat} (hlimit : slot.time < limit) :
      e.advance (before limit) s = e.advance (before limit) t := advance_of_step hn (decide_eq_true hlimit) hstep
  refine ⟨hle, ?_, ?_⟩
  · rcases Nat.lt_or_eq_of_le hle with hlt | heq
    · rw [WaitsAt, hbefore hlt]
      exact h.waits
    · obtain ⟨first, hnext⟩ := Service.next_of_next? hn
      rw [WaitsAt, ← heq, advance_before_of_from (from_of_next hnext)]
      exact ⟨inv, hi, hw⟩
  · rw [hbefore (Nat.lt_succ_of_le hle)]
    exact h.fixed

/-! ### The step in which it is fixed -/

private theorem duration_reportOf (s : Service) (inv : Invocation) (r : Except RunError Outcome) :
    (reportOf s inv r).result.duration = spent s inv := by
  cases r with
  | ok outcome => rfl
  | error error =>
    show (failure error (spent s inv)).duration = spent s inv
    unfold failure
    split <;> rfl

/-- What a step makes of an invocation that waits. -/
inductive Turn (e : Engine) (place : Nat) (inv : Invocation) (s : Service) : Service → Prop where
  | waits {t : Service} {inv' : Invocation} (hi : t.invocations[place]? = some inv') (hw : inv'.stage.isWaiting)
    (hd : inv'.stage ≠ .dormant) : Turn e place inv s t
  | breaks {t : Service} {inv' : Invocation} {message : String} (hi : t.invocations[place]? = some inv')
    (hs : inv'.stage = .broken message s.now none) : Turn e place inv s t
  | concludes {s₁ : Service} {inv₁ : Invocation} {report : Report} (hlt : place < s₁.invocations.length)
    (hn : s₁.now = s.now) (hj : s₁.world.journal = s.world.journal ++ entriesOf s.now (e.did s inv)) (hk : inv.Kin inv₁)
    (hd : report.result.duration = .ofMilliseconds (s.now - inv.start)) :
    Turn e place inv s (e.conclude s₁ place inv₁ report)

private theorem turn_of_resume (hlt : place < s.invocations.length) {rest : RunProcess (Except RunError Outcome)}
    (hg : e.goesOn? s inv = some rest) (ha : Aside s s₁) : Turn e place inv s (e.resume s₁ place inv rest) := by
  have hdid : e.did s inv = rest.exchanges e.partners (some s.now) ⟨s.world, inv.feed⟩ := by rw [did, hg]
  have hj : (rest.play e.partners (some s.now) ⟨s.world, inv.feed⟩).2.world.journal =
      s.world.journal ++ entriesOf s.now (e.did s inv) := hdid ▸ journal_play_now rest rfl
  have hnow : (rest.play e.partners (some s.now) ⟨s.world, inv.feed⟩).2.world.now = s.now := now_play rest rfl
  have hclock : s₁.now = s.now := congrArg World.now ha.world
  unfold resume
  rw [hclock, ha.world]
  generalize rest.play e.partners (some s.now) ⟨s.world, inv.feed⟩ = result at hj hnow
  obtain ⟨stop, scene⟩ := result
  dsimp only at hj hnow
  have hlt₁ : place < ({ s₁ with world := scene.world } : Service).invocations.length := by
    show place < s₁.invocations.length
    rw [ha.length]
    exact hlt
  -- the permit is given back
  have hrelease := aside_release { s₁ with world := scene.world }
  have hnow₁ : { s₁ with world := scene.world }.release.now = s.now := (congrArg World.now hrelease.world).trans hnow
  have hlt₂ : place < { s₁ with world := scene.world }.release.invocations.length := by
    rw [hrelease.length]
    exact hlt₁
  have concludes {report : Report} (hd : report.result.duration = .ofMilliseconds (s.now - inv.start)) :
      Turn e place inv s (e.conclude { s₁ with world := scene.world }.release place { inv with feed := scene.feed } report) :=
    .concludes hlt₂ hnow₁ ((congrArg World.journal hrelease.world).trans hj) ⟨rfl, rfl, rfl, rfl, rfl⟩ hd
  have hspent : spent { s₁ with world := scene.world } inv = .ofMilliseconds (s.now - inv.start) :=
    congrArg (fun now => Span.ofMilliseconds (now - inv.start)) hnow
  cases stop with
  | finished outcome => exact concludes ((duration_reportOf ..).trans hspent)
  | broke message =>
    exact .breaks (List.getElem?_set_self hlt₂) (congrArg (Stage.broken message · none) hnow)
  | paused due rest' =>
    dsimp only
    split
    · exact concludes hspent
    · exact .waits (List.getElem?_set_self hlt₁) rfl (by simp)
  | stuck =>
    dsimp only
    split
    · exact concludes hspent
    · exact .waits (List.getElem?_set_self hlt₁) rfl (by simp)

private theorem turn_of_step (hi : s.invocations[place]? = some inv) (hw : inv.stage.isWaiting)
    (h : Step e s place inv t) :
    Turn e place inv s t := by
  have hlt : place < s.invocations.length := (List.getElem?_eq_some_iff.1 hi).1
  have cut {s₁ : Service} {report : Report} (hg : e.goesOn? s inv = none) (ha : Aside s s₁)
      (hd : report.result.duration = .ofMilliseconds (s.now - inv.start)) :
      Turn e place inv s (e.conclude s₁ place inv report) := by
    refine .concludes (ha.length.symm ▸ hlt) (congrArg World.now ha.world) ?_ (.refl inv) hd
    rw [ha.world, did_of_none hg, entriesOf_nil, List.append_nil]
  cases h with
  | runs hg ha _ => exact turn_of_resume hlt hg ha
  | cancelled hg _ ha _ _ => exact cut hg ha (duration_reportOf ..)
  | timedOut hg _ ha _ _ _ => exact cut hg ha rfl
  | queues _ _ ha _ _ =>
    exact .waits (List.getElem?_set_self (ha.length.symm ▸ hlt)) rfl (by simp)
  | closes hs | completes hs | marks hs =>
    rw [hs] at hw
    cases hw

/-! ### From there on -/

/-- The result of an invocation is fixed at this time, and then its hooks have theirs. -/
structure Farewell (e : Engine) (s : Service) (place : Nat) (inv : Invocation) (time : Nat) (report : Report) : Prop where
  fixed : e.FixedAt s place time report
  start_le : inv.start ≤ time
  le_deadline : time ≤ inv.deadline
  duration : report.result.duration = .ofMilliseconds (time - inv.start)
  trail : ∃ log, e.trail always place s = log ++ e.partingLog report (e.told inv report time) ∧
    ∀ x ∈ log, x.1 ≤ time ∧ x.2.isClosing = false
  final : ∃ last, (e.advance always s).invocations[place]? = some last ∧
    last.stage = partingStage report (e.told inv report time)

/-- What becomes of an invocation that waits: its result is fixed, or before that somebody breaks down. -/
inductive Fares (e : Engine) (s : Service) (place : Nat) (inv : Invocation) : Prop where
  | fixed {time : Nat} {report : Report} (h : Farewell e s place inv time report)
  | broken {last : Invocation} {message : String} {ended : Nat} (hi : (e.advance always s).invocations[place]? = some last)
    (hs : last.stage = .broken message ended none) (hle : ended ≤ inv.deadline)

private theorem told_kin (hk : inv.Kin inv') (report : Report) (time : Nat) :
    e.told inv' report time = e.told inv report time := by
  rw [told, told, hk.command, hk.deadline]

/-- The others have come before, or it has taken a step in which its result stayed open. -/
private theorem Fares.of_step (h : Fares e t place inv') (hk : inv.Kin inv') (hn : s.next? = some slot)
    (hstep : e.stepAt? s slot = some t) (hf : t.From slot.time) (hi : s.invocations[place]? = some inv)
    (hw : inv.stage.isWaiting) {entries : Journal} (htrail : e.trail always place s = entries ++ e.trail always place t)
    (he : ∀ x ∈ entries, x.1 = slot.time ∧ x.2.isClosing = false) : Fares e s place inv := by
  have hadvance : e.advance always s = e.advance always t := advance_of_step hn rfl hstep
  cases h with
  | broken hlast hs hle => exact .broken (hadvance ▸ hlast) hs (hk.deadline ▸ hle)
  | fixed h =>
    obtain ⟨hle, hfixed⟩ := h.fixed.of_step hn hstep hf hi hw
    obtain ⟨log, hlog, hall⟩ := h.trail
    rw [told_kin hk] at hlog
    refine .fixed ⟨hfixed, hk.start ▸ h.start_le, hk.deadline ▸ h.le_deadline, hk.start ▸ h.duration,
      ⟨entries ++ log, ?_, fun x hx => ?_⟩, ?_⟩
    · rw [htrail, hlog, List.append_assoc]
    · rcases List.mem_append.1 hx with hx | hx
      · exact ⟨(he x hx).1 ▸ hle, (he x hx).2⟩
      · exact hall x hx
    · rw [hadvance, ← told_kin hk]
      exact h.final

/-- The step in which the result is fixed. -/
private theorem farewell_of_conclude (hs : s.Sound e) (hn : s.next? = some slot) (hnext : s.Next slot inv)
    (hw : inv.stage.isWaiting) {inv₁ : Invocation} (hstep : e.stepAt? s slot = some (e.conclude s₁ slot.place inv₁ report))
    (hlt : slot.place < s₁.invocations.length) (hclock : s₁.now = slot.time)
    (hj : s₁.world.journal = s.world.journal ++ entriesOf slot.time (e.did ((s.atSlot slot).noteDrop inv) inv))
    (hk : inv.Kin inv₁) (hd : report.result.duration = .ofMilliseconds (slot.time - inv.start))
    (hstart : inv.start ≤ slot.time) (hdeadline : slot.time ≤ inv.deadline) :
    Farewell e s slot.place inv slot.time report := by
  obtain ⟨mover, mover', entries, hm, ht⟩ := moves_of_stepAt? hs hstep
  obtain ⟨trace, hsound⟩ := hs hnext.getElem?
  obtain ⟨other, -, -, -, hsound', -⟩ := (stepped_of_stepAt? hnext.getElem? hsound hstep).own
  have hopen : ∀ x ∈ entriesOf slot.time (e.did ((s.atSlot slot).noteDrop inv) inv), x.2.isClosing = false :=
    isClosing_entriesOf hsound'.spoken
  have hparts : Parts e report _ slot.place _ _ s₁ _ := parts_conclude hlt inv₁
  rw [hclock, hk.deadline, told_kin hk] at hparts
  obtain ⟨told, later, inv', htold, hlog, hi', hleaves⟩ := hparts.split
  have hnow : s₁.now = (e.conclude s₁ slot.place inv₁ report).now := hclock.trans hm.now.symm
  obtain ⟨htrail, hfinal⟩ := leaves_on ht hi' (hnow ▸ hleaves)
  have hentries : entries = entriesOf slot.time (e.did ((s.atSlot slot).noteDrop inv) inv) ++ told := by
    refine List.append_cancel_left (hm.journal.symm.trans ?_)
    rw [htold, hj, List.append_assoc]
  have hadvance {wanted : Service → Slot → Bool} (hwanted : wanted s slot = true) :
      e.advance wanted s = e.advance wanted (e.conclude s₁ slot.place inv₁ report) := advance_of_step hn hwanted hstep
  have hafter : before (slot.time + 1) s slot = true := decide_eq_true (Nat.lt_succ_self _)
  refine ⟨⟨?_, ?_⟩, hstart, hdeadline, hd, ⟨_, ?_, fun x hx => ⟨Nat.le_of_eq (time_entriesOf x hx), hopen x hx⟩⟩, ?_⟩
  · -- until the instant comes, nothing happens any more
    rw [WaitsAt, advance_before_of_from (from_of_next hnext)]
    exact ⟨inv, hnext.getElem?, hw⟩
  · -- and from now on the result stays
    obtain ⟨closed, hclosed, hr⟩ : ∃ closed, (e.conclude s₁ slot.place inv₁ report).invocations[slot.place]? =
        some closed ∧ closed.stage.report? = some report := by
      obtain ⟨closed, hset, -, hc⟩ := (tells_conclude (e := e) (s := s₁)).invocations
      exact ⟨closed, hset ▸ List.getElem?_set_self hlt, hc.report?⟩
    obtain ⟨-, last, hlast, -, hkept⟩ := closing_on (before (slot.time + 1)) ht hclosed (isWaiting_of_report? hr)
    rw [hadvance hafter]
    exact ⟨last, hlast, hkept.trans hr⟩
  · have hall : e.trail always slot.place s = _ := trail_of_moves hn rfl hstep hm slot.place
    rw [hall, if_pos rfl, hentries, htrail, hlog, List.append_assoc]
  · rw [hadvance rfl]
    exact hfinal

/-! ### Until then -/

/-- A run that waits has not begun, or else it began no earlier than it was to start, and its deadline is still to
come. -/
inductive Timely (s : Service) (inv : Invocation) : Prop where
  | dormant (h : inv.stage = .dormant) (hle : inv.start ≤ inv.deadline)
  | begun (h : inv.stage ≠ .dormant) (hf : s.From inv.start) (hn : s.now ≤ inv.deadline)

private theorem Timely.due (h : Timely s inv) (hi : s.invocations[place]? = some inv) (hw : inv.stage.isWaiting)
    (hslot : s.slot? place inv = some slot) : inv.start ≤ slot.time ∧ slot.time ≤ inv.deadline := by
  cases h with
  | dormant hd hle =>
    rw [Service.slot?_eq, hd] at hslot
    have htime : inv.start = slot.time := congrArg Slot.time (Option.some.inj hslot)
    exact ⟨Nat.le_of_eq htime, htime ▸ hle⟩
  | begun hd hf hn =>
    exact ⟨hf hi hslot, time_slot?_le hw hd (Service.cutAt_le_iff.2 (.inr (Nat.le_refl _))) hn hslot⟩

/-- An invocation that has broken down stays as it is. -/
private theorem broken_on {message : String} {ended : Nat} {fixed : Option Report} (hs : s.Sound e)
    (hi : s.invocations[place]? = some inv) (hb : inv.stage = .broken message ended fixed) :
    (e.advance always s).invocations[place]? = some inv := by
  induction s using running_on e always with
  | stop s hstop => rwa [advance_of_stop hstop]
  | step s slot t hn hw hstep ih =>
    obtain ⟨mover, mover', entries, hm, ht⟩ := moves_of_stepAt? hs hstep
    obtain ⟨first, hnext⟩ := Service.next_of_next? hn
    rw [advance_of_step hn hw hstep]
    have hp : place ≠ slot.place := by
      rintro rfl
      obtain rfl := Option.some.inj (hi.symm.trans hnext.getElem?)
      have hslot := hnext.slot?
      rw [Service.slot?_eq, hb] at hslot
      cases hslot
    rcases hm.others hp hi with hsame | ⟨hq, -⟩
    · exact ih ht hsame
    · rw [hb] at hq
      cases hq

/-- In a step of its own the result is fixed, or the run breaks down, or it waits on. -/
private theorem fares_of_own {entries : Journal} (hs : s.Sound e) (hn : s.next? = some slot) (hnext : s.Next slot inv)
    (hw : inv.stage.isWaiting) (hstart : inv.start ≤ slot.time) (hdeadline : slot.time ≤ inv.deadline)
    (hstep : e.stepAt? s slot = some t) (hm : Moves s slot inv inv' entries t) (ht : t.Sound e)
    (ih : inv'.stage.isWaiting → Timely t inv' → Fares e t slot.place inv') : Fares e s slot.place inv := by
  have hfrom : t.From slot.time := from_step (from_of_next hnext) (Nat.le_refl _) hm
  obtain ⟨t', hstep', h⟩ := exists_step (e := e) hn hnext.getElem?
  obtain rfl : t = t' := Option.some.inj (hstep.symm.trans hstep')
  have hworld := (s.atSlot slot).world_noteDrop inv
  have hnow : ((s.atSlot slot).noteDrop inv).now = slot.time := congrArg World.now hworld
  have hi : ((s.atSlot slot).noteDrop inv).invocations[slot.place]? = some inv :=
    (congrArg (·[slot.place]?) ((s.atSlot slot).invocations_noteDrop inv)).trans hnext.getElem?
  cases turn_of_step hi hw h with
  | waits hinv hw' hd =>
    obtain rfl := Option.some.inj (hm.after.symm.trans hinv)
    have htimely : Timely t inv' := by
      refine .begun hd (fun hi h => ?_) ?_
      · exact Nat.le_trans (hm.kin.start ▸ hstart) (hfrom hi h)
      · rw [hm.now, hm.kin.deadline]
        exact hdeadline
    have htrail : e.trail always slot.place s = _ := trail_of_moves hn rfl hstep hm slot.place
    rw [if_pos rfl] at htrail
    refine (ih hw' htimely).of_step hm.kin hn hstep hfrom hnext.getElem? hw htrail ?_
    cases hm.phase with
    | waits _ _ h => exact h
    | ends _ h | closes _ h =>
      rw [hw'] at h
      cases h
  | breaks hinv hb =>
    have hadvance : e.advance always s = e.advance always t := advance_of_step hn rfl hstep
    exact .broken (hadvance ▸ broken_on ht hinv hb) hb (hnow ▸ hdeadline)
  | concludes hlt hclock hj hk hd =>
    rw [hnow] at hclock hj hd
    rw [hworld] at hj
    exact .fixed (farewell_of_conclude hs hn hnext hw hstep hlt hclock hj hk hd hstart hdeadline)

/-- While somebody else takes a step, an invocation waits on; at most it gets a permit. -/
private theorem timely_of_others {mover mover' other : Invocation} {entries : Journal}
    (hi : s.invocations[place]? = some inv)
    (hw : inv.stage.isWaiting) (ht : Timely s inv) (hn : s.Next slot other) (hle : slot.time ≤ inv.deadline)
    (hm : Moves s slot mover mover' entries t) (hp : place ≠ slot.place) : ∃ inv',
      t.invocations[place]? = some inv' ∧ inv.Kin inv' ∧ inv'.stage.isWaiting ∧ Timely t inv' := by
  have begun {inv' : Invocation} (hf : s.From inv.start) (hk : inv.Kin inv') (hd : inv'.stage ≠ .dormant) :
      Timely t inv' := by
    refine .begun hd ?_ ?_
    · rw [hk.start]
      exact from_step hf (hf hn.getElem? hn.slot?) hm
    · rw [hm.now, hk.deadline]
      exact hle
  cases ht with
  | dormant hd hstarts =>
    rcases hm.others hp hi with hsame | ⟨hq, -⟩
    · exact ⟨inv, hsame, .refl inv, hw, .dormant hd hstarts⟩
    · rw [hd] at hq
      cases hq
  | begun hd hf _ =>
    rcases hm.others hp hi with hsame | ⟨-, lap, hg⟩
    · exact ⟨inv, hsame, .refl inv, hw, begun hf (.refl inv) hd⟩
    · have hk : inv.Kin { inv with stage := .granted slot.time lap } := ⟨rfl, rfl, rfl, rfl, rfl⟩
      exact ⟨_, hg, hk, rfl, begun hf hk (fun h => nomatch h)⟩

/-- An invocation that waits has its result fixed by its deadline, unless it breaks down by then. -/
private theorem fares_of_timely (hs : s.Sound e) (hi : s.invocations[place]? = some inv) (hw : inv.stage.isWaiting)
    (ht : Timely s inv) : Fares e s place inv := by
  induction s using running_on e always generalizing inv with
  | stop s hstop =>
    obtain ⟨slot, hslot⟩ := exists_slot? s place hw
    obtain ⟨first, hfirst⟩ := Service.exists_next? hi hslot
    cases hstop first hfirst
  | step s slot t hn hwanted hstep ih =>
    obtain ⟨own, hown⟩ := exists_slot? s place hw
    obtain ⟨hstart, hdeadline⟩ := ht.due hi hw hown
    obtain ⟨first, hnext⟩ := Service.next_of_next? hn
    obtain ⟨mover, mover', entries, hm, hsound⟩ := moves_of_stepAt? hs hstep
    by_cases hp : slot.place = place
    · subst hp
      obtain rfl : inv = first := Option.some.inj (hi.symm.trans hnext.getElem?)
      obtain rfl : own = slot := Option.some.inj (hown.symm.trans hnext.slot?)
      obtain rfl : inv = mover := Option.some.inj (hi.symm.trans hm.before)
      exact fares_of_own hs hn hnext hw hstart hdeadline hstep hm hsound (ih hsound hm.after)
    · have hle : slot.time ≤ inv.deadline := Nat.le_trans (hnext.time_le hi hown) hdeadline
      obtain ⟨inv', hi', hk, hw', ht'⟩ := timely_of_others hi hw ht hnext hle hm (Ne.symm hp)
      have hfrom : t.From slot.time := from_step (from_of_next hnext) (Nat.le_refl _) hm
      have htrail : e.trail always place s = _ := trail_of_moves hn hwanted hstep hm place
      rw [if_neg hp] at htrail
      exact (ih hsound hi' hw' ht').of_step hk hn hstep hfrom hi hw htrail (fun x hx => nomatch hx)

/-! ### Whatever the hooks do -/

/-- Hooks that do not break down leave their schedule, and the last event follows it. -/
private theorem partingLog_told (h : ¬ HookChain.Balks e.hooks (hookContext inv.command) report.result) (time : Nat) :
    e.partingLog report (e.told inv report time) =
      (e.told inv report time).beats ++ e.completionAt report (e.told inv report time).length := by
  unfold partingLog
  cases hending : (e.told inv report time).ending with
  | faults message => exact absurd (HookChain.balks_of_schedule (Timeline.faults_of_through hending)) h
  | returns | hangs => rfl

private theorem partingStage_told (h : ¬ HookChain.Balks e.hooks (hookContext inv.command) report.result) (time : Nat) :
    partingStage report (e.told inv report time) = .finished report (e.told inv report time).length := by
  unfold partingStage
  cases hending : (e.told inv report time).ending with
  | faults message => exact absurd (HookChain.balks_of_schedule (Timeline.faults_of_through hending)) h
  | returns | hangs => rfl

private theorem endedAt?_of_partingStage {told : Timeline Entry (Option Unit)}
    (h : inv.stage = partingStage report told) :
    inv.endedAt? = some told.length := by
  unfold Invocation.endedAt?
  rw [h]
  unfold partingStage
  cases told.ending <;> rfl

private theorem Farewell.ended (h : Farewell e s place inv time report) : ∃ last ended,
    (e.advance always s).invocations[place]? = some last ∧ last.endedAt? = some ended ∧
      ended ≤ inv.deadline + hookGrace := by
  obtain ⟨last, hlast, hstage⟩ := h.final
  refine ⟨last, _, hlast, endedAt?_of_partingStage hstage, ?_⟩
  have hlength : (e.told inv report time).length ≤ max inv.deadline (time + hookGrace) := Timeline.length_through_le ..
  have hdeadline := h.le_deadline
  omega

/-- The result of an invocation stands, whatever the hooks do that are told of it, and they do not keep it back. -/
structure Stands (e : Engine) (s : Service) (place : Nat) (inv : Invocation) : Prop where
  /-- At some time the result is fixed, unless somebody breaks down, by the deadline at the latest. -/
  fixes : (∃ time report, e.FixedAt s place time report) ∨ ∃ last message ended,
    (e.advance always s).invocations[place]? = some last ∧ last.stage = .broken message ended none ∧ ended ≤ inv.deadline
  /-- This is not before the start and not after the deadline, -/
  time {time : Nat} {report : Report} (h : e.FixedAt s place time report) : inv.start ≤ time ∧ time ≤ inv.deadline
  /-- and it is how long the invocation has taken. -/
  duration {time : Nat} {report : Report} (h : e.FixedAt s place time report) :
    report.result.duration = .ofMilliseconds (time - inv.start)
  /-- From then on the hooks have until the deadline, or a second if that is longer: -/
  limit {time : Nat} {report : Report} (h : e.FixedAt s place time report) :
    (e.told inv report time).length ≤ max inv.deadline (time + hookGrace)
  /-- they are told of this result as their schedule has it, as far as that comes, and it is recorded after that. -/
  trail {time : Nat} {report : Report} (h : e.FixedAt s place time report)
    (hb : ¬ HookChain.Balks e.hooks (hookContext inv.command) report.result) : ∃ log,
      e.trail always place s = log ++ (e.told inv report time).beats ++
        e.completionAt report (e.told inv report time).length ∧ ∀ x ∈ log, x.1 ≤ time ∧ x.2.isClosing = false
  /-- It is what the invocation comes to once they are done or have had their time, -/
  final {time : Nat} {report : Report} (h : e.FixedAt s place time report)
    (hb : ¬ HookChain.Balks e.hooks (hookContext inv.command) report.result) :
      ∃ last, (e.advance always s).invocations[place]? = some last ∧
        last.stage = .finished report (e.told inv report time).length
  /-- and what is answered then. -/
  answer {time : Nat} {report : Report} (h : e.FixedAt s place time report)
    (hb : ¬ HookChain.Balks e.hooks (hookContext inv.command) report.result) (hstreams : inv.streams = false) :
      answerOf (e.advance always s) place inv.start =
        .ok (.result report.result ((e.told inv report time).length - inv.start))
  /-- So a second after the deadline all is over, with a result unless somebody has broken down. -/
  returns : ∃ course last ended, Course e s course (e.advance always s) ∧
    (e.advance always s).invocations[place]? = some last ∧ e.Ends inv.command (traceOf course place) last.stage ∧
    last.endedAt? = some ended ∧ ended ≤ inv.deadline + hookGrace

theorem result_stands (hs : s.Sound e) (hi : s.invocations[place]? = some inv) (hd : inv.stage = .dormant)
    (hle : inv.start ≤ inv.deadline) : Stands e s place inv := by
  have hw : inv.stage.isWaiting := by rw [hd]; rfl
  have hfares := fares_of_timely hs hi hw (.dormant hd hle)
  -- there is one time only at which the result is fixed
  have farewell {time : Nat} {report : Report} (h : e.FixedAt s place time report) :
      Farewell e s place inv time report := by
    cases hfares with
    | fixed hf =>
      obtain ⟨rfl, rfl⟩ := h.unique hs hf.fixed
      exact hf
    | broken hlast hstage _ =>
      have hreport := h.reportAt hs
      rw [Engine.reportAt, hlast, Option.bind_some, hstage] at hreport
      cases hreport
  constructor
  case fixes =>
    cases hfares with
    | fixed hf => exact .inl ⟨_, _, hf.fixed⟩
    | broken hlast hstage hle => exact .inr ⟨_, _, _, hlast, hstage, hle⟩
  case time => exact fun h => ⟨(farewell h).start_le, (farewell h).le_deadline⟩
  case duration => exact fun h => (farewell h).duration
  case limit => exact fun _ => Timeline.length_through_le ..
  case trail =>
    intro time report h hb
    obtain ⟨log, hlog, hall⟩ := (farewell h).trail
    refine ⟨log, ?_, hall⟩
    rw [hlog, partingLog_told hb, List.append_assoc]
  case final =>
    intro time report h hb
    obtain ⟨last, hlast, hstage⟩ := (farewell h).final
    exact ⟨last, hlast, hstage.trans (partingStage_told hb time)⟩
  case answer =>
    intro time report h hb hstreams
    obtain ⟨last, hlast, hstage⟩ := (farewell h).final
    obtain ⟨same, hsame, hk⟩ := exists_advance always hs hi
    obtain rfl : last = same := Option.some.inj (hlast.symm.trans hsame)
    have hplain : last.streams = false := hk.streams.trans hstreams
    have hended := endedAt?_of_partingStage hstage
    rw [partingStage_told hb] at hstage
    simp only [answerOf, hlast, answeredAt?, hplain, hstage, hended, Bool.not_false, if_true, Bool.false_eq_true, if_false,
      Option.getD_some]
  case returns =>
    obtain ⟨course, last, hcourse, hlast, hends⟩ := ends_of_advance hi hd .opened
    rw [List.nil_append] at hcourse hends
    cases hfares with
    | fixed hf =>
      obtain ⟨same, ended, hsame, hended, hle⟩ := hf.ended
      obtain rfl : last = same := Option.some.inj (hlast.symm.trans hsame)
      exact ⟨course, last, ended, hcourse, hlast, hends, hended, hle⟩
    | @broken same message ended hsame hstage hle =>
      obtain rfl : last = same := Option.some.inj (hlast.symm.trans hsame)
      have hended : last.endedAt? = some ended := by rw [Invocation.endedAt?, hstage]
      exact ⟨course, last, ended, hcourse, hlast, hends, hended, Nat.le_add_right_of_le hle⟩

/-- A hook that rewrites the prompt, and fails when it is told of the result. -/
def grumbler : Hook where
  name := "grumbler"
  beforeStart := some fun _ => .now (.ok (.modify (.string "HI")))
  afterComplete := some fun _ _ => .now (.error ⟨"grumbler", "down"⟩)

/-- A hook that takes its time, or forever. -/
def dawdler (ending : Ending (Except HookError Unit)) : Hook where
  name := "dawdler"
  afterComplete := some fun _ _ => ⟨400, ending⟩

/-- An engine with such hooks, a store that never comes back from a save, and a timeout of some milliseconds and a
half. -/
def beset : Engine :=
  { greeter with
    hooks := [grumbler, dawdler (.returns (.ok ())), dawdler .hangs, grumbler]
    store := some { ConversationStore.atOnce with save := fun _ kept _ _ => (⟨0, .hangs⟩, kept) }
    timeout := some ⟨100500000⟩ }

def visit : Invocation where
  command := { prompt := "hi" }
  token := 0
  start := 0
  deadline := 101
  feed := { capacity := some 64 }

def besetting : Service where
  free := beset.permits
  invocations := [visit]

private theorem fixedAt_besetting :
    ∃ report, beset.FixedAt besetting 0 101 report ∧ report.result.code = some .timeout := by
  have hn : besetting.next? = some ⟨0, 0, 0⟩ := by decide +kernel
  obtain ⟨t, hstep⟩ := Option.isSome_iff_exists.1 (isSome_stepAt? (e := beset) hn)
  have hcut : (beset.stepAt? besetting ⟨0, 0, 0⟩).any fun t => t.next? == some ⟨101, 0, 0⟩ &&
      (t.invocations[0]?.any (·.stage.isWaiting)) && (beset.stepAt? t ⟨101, 0, 0⟩).any fun u =>
        (u.next?.map (·.time)) == some 501 && u.invocations[0]?.any fun inv =>
          inv.stage.report?.any fun report => report.result.code == some .timeout := by decide +kernel
  rw [hstep, Option.any_some] at hcut
  simp only [Bool.and_eq_true, beq_iff_eq, Option.any_eq_true] at hcut
  obtain ⟨⟨hnext, waiting, hwaiting, hw⟩, u, hstep', hlater, inv, hi, report, hr, hcode⟩ := hcut
  have hstop : beset.advance (before 102) u = u := by
    refine advance_of_stop fun slot h => ?_
    rw [h] at hlater
    have htime : slot.time = 501 := Option.some.inj hlater
    simp [before, htime]
  have hidle : beset.advance (before 101) t = t := by
    refine advance_of_stop fun slot h => ?_
    obtain rfl := Option.some.inj (hnext.symm.trans h)
    rfl
  have hfixed : beset.FixedAt t 0 101 report :=
    ⟨⟨waiting, hidle.symm ▸ hwaiting, hw⟩, inv, by rwa [advance_of_step hnext rfl hstep', hstop], hr⟩
  exact ⟨report, (hfixed.of_step hn hstep (fun _ _ => Nat.zero_le _) rfl rfl).2, hcode⟩

/-- The deadline comes while the run waits for the store, and all is over a second after that. -/
theorem result_stands_beset : (beset.start 0 (.invoke 0 { prompt := "hi" } none none)
      { besetting with invocations := [] }).2 = besetting ∧ besetting.Fresh ∧
    ∃ (report : Report) (log : Journal), report.result.code = some .timeout ∧
      report.result.duration = .ofMilliseconds 101 ∧
      beset.trail always 0 besetting = log ++
        [(101, .afterComplete "grumbler" ⟨"hi", []⟩ report.result), (101, .afterCompleteEnd "grumbler"),
          (101, .afterComplete "dawdler" ⟨"hi", []⟩ report.result), (501, .afterCompleteEnd "dawdler"),
          (501, .afterComplete "dawdler" ⟨"hi", []⟩ report.result)] ++
        [(1101, .event (completed report.result report.toolCalls))] ∧
      answerOf (beset.advance always besetting) 0 0 = .ok (.result report.result 1101) := by
  have hf : besetting.Fresh := by
    intro inv hi
    rw [List.mem_singleton.1 hi]
    rfl
  have hi : besetting.invocations[0]? = some visit := rfl
  have hstands : Stands beset besetting 0 visit := result_stands (sound_of_fresh hf) hi rfl (by decide)
  obtain ⟨report, hfixed, hcode⟩ := fixedAt_besetting
  have hb : ¬ HookChain.Balks beset.hooks (hookContext { prompt := "hi" }) report.result := by
    rintro ⟨h, hh, answer, message, ha, he⟩
    simp only [beset, List.mem_cons, List.not_mem_nil, or_false] at hh
    obtain rfl | rfl | rfl | rfl := hh <;> cases ha <;> cases he
  obtain ⟨log, hlog, -⟩ := hstands.trail hfixed hb
  refine ⟨rfl, hf, report, log, hcode, hstands.duration hfixed, hlog, ?_⟩
  exact hstands.answer hfixed hb rfl

end Engine

end AgentLoop
