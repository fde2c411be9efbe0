import AgentLoop.Proofs.Lockstep

/-!
# Cuts

A run is cut when its token is cancelled or its deadline passes.  Up to that instant it does what it would have done
anyway, and from then on it only closes: what is in the journal until then is what the run left before the instant, and
the result says nothing but why there is none.  A run whose result is fixed by then does not notice the cut.
-/

namespace AgentLoop

open Process

namespace Service

/-- The service with one more token cancelled at a time. -/
def cancelling (s : Service) (token time : Nat) : Service :=
  { s with cancellations := s.cancellations ++ [(token, time)] }

/-- The service with other deadlines. -/
def withDeadlines (s : Service) (deadlines : Nat → Nat) : Service :=
  { s with invocations := s.invocations.mapIdx fun place inv => { inv with deadline := deadlines place } }

end Service

namespace Engine

variable {e : Engine} {s t : Service} {place time : Nat} {inv : Invocation} {wanted : Service → Slot → Bool}

/-- What an invocation leaves in the journal until its run is closed. -/
def logOf (e : Engine) (s : Service) (place : Nat) : Journal := (e.trail always place s).takeWhile (!·.2.isClosing)

/-- What an invocation comes to in the end. -/
def reportAt (e : Engine) (s : Service) (place : Nat) : Option Report :=
  (e.advance always s).invocations[place]?.bind (·.stage.report?)

/-! ### After the cut -/

/-- Once its result is fixed, nothing more of a run is in the journal but what closes it. -/
theorem log_of_closing (hs : s.Sound e) (hi : s.invocations[place]? = some inv) (hw : inv.stage.isWaiting = false)
    (entries : Journal) :
    (entries ++ e.trail always place s).takeWhile (!·.2.isClosing) = entries.takeWhile (!·.2.isClosing) := by
  obtain ⟨hclosing, -⟩ := closing_on always hs hi hw
  induction entries with
  | nil =>
    cases htrail : e.trail always place s with
    | nil => rfl
    | cons x rest =>
      rw [htrail] at hclosing
      simp [hclosing x]
  | cons x entries ih => simp only [List.cons_append, List.takeWhile_cons, ih]

theorem report_of_closing (hs : s.Sound e) (hi : s.invocations[place]? = some inv)
    (hw : inv.stage.isWaiting = false) : e.reportAt s place = inv.stage.report? := by
  obtain ⟨-, inv', hi', -, hr⟩ := closing_on always hs hi hw
  rw [reportAt, hi', Option.bind_some, hr]

/-- From now on the run only closes, and this is what it has come to. -/
structure Severed (e : Engine) (s : Service) (place : Nat) (report : Report) : Prop where
  log : e.logOf s place = []
  report : e.reportAt s place = some report

private theorem Severed.of_closing {report : Report} (hs : s.Sound e) (hi : s.invocations[place]? = some inv)
    (hc : ClosingStage report time inv.stage) {told : Journal} (ht : ClosingAt time told)
    (hl : e.trail always place t = told ++ e.trail always place s)
    (ha : e.advance always t = e.advance always s) : Severed e t place report := by
  constructor
  · rw [logOf, hl, log_of_closing hs hi hc.isWaiting]
    cases told with
    | nil => rfl
    | cons x rest => simp [(ht x (List.mem_cons_self ..)).2]
  · have hreport := report_of_closing hs hi hc.isWaiting
    rw [reportAt, ha]
    exact hreport.trans hc.report?

private theorem Severed.of_eq {report : Report} (h : Severed e t place report)
    (hl : e.trail always place s = e.trail always place t) (ha : e.advance always s = e.advance always t) :
    Severed e s place report := by
  constructor
  · rw [logOf, hl]
    exact h.log
  · rw [reportAt, ha]
    exact h.report

/-! ### The cut itself -/

/-- The step in which the result is fixed. -/
private theorem severed_of_tells {slot : Slot} {report : Report} {s₁ : Service} (hs : s.Sound e)
    (hn : s.next? = some slot) (hp : slot.place = place) (hstep : e.stepAt? s slot = some t)
    (hworld : s₁.world = (s.atSlot slot).world) (ht : Tells place inv report s₁ t)
    (hlt : place < s₁.invocations.length) : Severed e s place report := by
  obtain ⟨other, other', entries, hm, hsound⟩ := moves_of_stepAt? hs hstep
  obtain ⟨told, hj, htold⟩ := ht.journal
  obtain ⟨inv', hinv, hk, hc⟩ := ht.invocations
  have hi' : t.invocations[place]? = some inv' := hinv ▸ List.getElem?_set_self hlt
  have hentries : entries = told := by
    have hjournal := hm.journal.symm.trans hj
    rw [hworld] at hjournal
    exact List.append_cancel_left hjournal
  have hadvance : e.advance always s = e.advance always t := advance_of_step hn rfl hstep
  have htrail : e.trail always place s = _ := trail_of_moves hn rfl hstep hm place
  rw [if_pos hp, hentries] at htrail
  exact .of_closing hsound hi' hc htold htrail hadvance

/-- The step that the next event is. -/
theorem exists_step {slot : Slot} (hn : s.next? = some slot) (hi : s.invocations[slot.place]? = some inv) :
    ∃ t, e.stepAt? s slot = some t ∧ Step e ((s.atSlot slot).noteDrop inv) slot.place inv t := by
  obtain ⟨t, hstep⟩ := Option.isSome_iff_exists.1 (isSome_stepAt? (e := e) hn)
  obtain ⟨other, ho, hpoll⟩ := Option.bind_eq_some_iff.1 hstep
  obtain rfl : inv = other := Option.some.inj (hi.symm.trans ho)
  exact ⟨t, hstep, step_of_poll? hpoll⟩

/-- What a cancelled run comes to. -/
def cancelledReport (inv : Invocation) (time : Nat) : Report :=
  ⟨.failure .unknown cancelledText (.ofMilliseconds (time - inv.start)), 0⟩

private theorem severed_of_cancelled {slot : Slot} (hs : s.Sound e) (hn : s.next? = some slot) (hp : slot.place = place)
    (hi : s.invocations[place]? = some inv) (hw : inv.stage.isWaiting) (hc : (inv.token, time) ∈ s.cancellations)
    (ht : time ≤ slot.time) : Severed e s place (cancelledReport inv slot.time) := by
  subst hp
  obtain ⟨t, hstep, h⟩ := exists_step (e := e) hn hi
  have hworld := (s.atSlot slot).world_noteDrop inv
  have hinv := (s.atSlot slot).invocations_noteDrop inv
  have hnow : ((s.atSlot slot).noteDrop inv).now = slot.time := congrArg World.now hworld
  have hcancelled : ((s.atSlot slot).noteDrop inv).isCancelled inv.token = true := by
    refine Service.isCancelled_iff.2 ⟨time, ?_, hnow ▸ ht⟩
    exact Service.mem_cancelTimes_noteDrop inv (Service.mem_cancelTimes (s := s.atSlot slot) hc)
  cases h with
  | runs hgoes => rw [goesOn?, if_pos hcancelled] at hgoes; cases hgoes
  | timedOut _ _ _ _ hnot | queues _ _ _ _ hnot => rw [hcancelled] at hnot; cases hnot
  | closes hstage | completes hstage | marks hstage => rw [hstage] at hw; cases hw
  | @cancelled s₁ _ _ ha _ _ =>
    have hreport : reportOf ((s.atSlot slot).noteDrop inv) inv (.error .cancelled) = cancelledReport inv slot.time := by
      rw [reportOf, spent, hnow]
      rfl
    rw [hreport] at hstep
    refine severed_of_tells hs hn rfl hstep (ha.world.trans hworld) tells_conclude ?_
    rw [ha.length, hinv]
    exact (List.getElem?_eq_some_iff.1 hi).1

/-- A run whose token is cancelled waits for the instant at which it finds out. -/
inductive Doomed (s : Service) (inv : Invocation) (instant : Nat) : Prop where
  | dormant (h : inv.stage = .dormant) (hs : inv.start = instant)
  | waiting (h : inv.stage ≠ .dormant) (hf : s.From instant) (hn : s.now ≤ instant)

/-- A run that is under way has something to do no later than when it is cut. -/
theorem time_slot?_le {instant : Nat} {slot : Slot} (hw : inv.stage.isWaiting) (hnot : inv.stage ≠ .dormant)
    (hc : s.cutAt inv ≤ instant) (hn : s.now ≤ instant) (hslot : s.slot? place inv = some slot) :
    slot.time ≤ instant := by
  have hcut : (s.slotAt place (s.cutAt inv)).time ≤ instant := by
    rw [Service.time_slotAt]
    omega
  have first (a : Slot) : (Slot.earlier a (s.slotAt place (s.cutAt inv))).time ≤ instant :=
    Nat.le_trans (Slot.time_earlier_le _ _).2 hcut
  rw [Service.slot?_eq] at hslot
  generalize inv.stage = stage at hnot hw hslot
  cases stage with
  | dormant => exact absurd rfl hnot
  | queued => exact Option.some.inj hslot ▸ hcut
  | granted => exact Option.some.inj hslot ▸ first _
  | running pending =>
    cases pending with
    | none => exact Option.some.inj hslot ▸ hcut
    | some => exact Option.some.inj hslot ▸ first _
  | closing | marking | finished | broken => cases hw

private theorem time_slot?_of_doomed {instant : Nat} {slot : Slot} (h : Doomed s inv instant)
    (hi : s.invocations[place]? = some inv) (hw : inv.stage.isWaiting) (hc : s.cutAt inv ≤ instant)
    (hslot : s.slot? place inv = some slot) : slot.time = instant := by
  cases h with
  | dormant h hs =>
    rw [Service.slot?_eq, h] at hslot
    exact (congrArg Slot.time (Option.some.inj hslot)).symm.trans hs
  | waiting h hf hn => exact Nat.le_antisymm (time_slot?_le hw h hc hn hslot) (hf hi hslot)

theorem exists_slot? (s : Service) (place : Nat) (hw : inv.stage.isWaiting) : ∃ slot, s.slot? place inv = some slot := by
  rw [Service.slot?_eq]
  generalize inv.stage = stage at hw
  cases stage with
  | dormant | queued | granted => exact ⟨_, rfl⟩
  | running pending => cases pending <;> exact ⟨_, rfl⟩
  | closing | marking | finished | broken => cases hw

/-- Whatever the others do until then, a cancelled run is severed when it finds out. -/
theorem severed_of_doomed {instant : Nat} (hs : s.Sound e) (hi : s.invocations[place]? = some inv)
    (hw : inv.stage.isWaiting) (hc : (inv.token, time) ∈ s.cancellations) (ht : time ≤ instant)
    (hd : Doomed s inv instant) : Severed e s place (cancelledReport inv instant) := by
  induction s using running_on e always generalizing inv with
  | stop s hstop =>
    obtain ⟨slot, hslot⟩ := exists_slot? s place hw
    obtain ⟨first, hfirst⟩ := Service.exists_next? hi hslot
    cases hstop first hfirst
  | step s slot t hn hwanted hstep ih =>
    obtain ⟨own, hown⟩ := exists_slot? s place hw
    have hcut : s.cutAt inv ≤ instant :=
      Service.cutAt_le_iff.2 (.inl ⟨time, Service.mem_cancelTimes hc, ht⟩)
    have htime := time_slot?_of_doomed hd hi hw hcut hown
    obtain ⟨other, hnext⟩ := Service.next_of_next? hn
    have hle := hnext.time_le hi hown
    by_cases hp : slot.place = place
    · -- it is its turn, and it finds out
      have hsame : slot = own := by
        have hinv : inv = other := Option.some.inj (hi.symm.trans (hp ▸ hnext.getElem?))
        exact Option.some.inj (hnext.slot?.symm.trans (hp ▸ hinv ▸ hown))
      have hinstant : slot.time = instant := hsame ▸ htime
      exact hinstant ▸ severed_of_cancelled hs hn hp hi hw hc (hinstant ▸ ht)
    · -- somebody else moves, and the run is as doomed as before
      obtain ⟨mover, mover', entries, hm, hsound⟩ := moves_of_stepAt? hs hstep
      have hadvance : e.advance always s = e.advance always t := advance_of_step hn hwanted hstep
      have htrail : e.trail always place s = _ := trail_of_moves hn hwanted hstep hm place
      rw [if_neg hp, List.nil_append] at htrail
      have later {inv' : Invocation} (hi' : t.invocations[place]? = some inv') (hk : inv.Kin inv')
          (hw' : inv'.stage.isWaiting) (hd' : Doomed t inv' instant) :
          Severed e s place (cancelledReport inv instant) := by
        have h := ih hsound hi' hw' (hk.token ▸ hm.cancellations hc) hd'
        rw [cancelledReport, hk.start] at h
        exact h.of_eq htrail hadvance
      cases hd with
      | dormant hdormant hstart =>
        rcases hm.others (Ne.symm hp) hi with hsame | ⟨hq, -⟩
        · exact later hsame (.refl inv) hw (.dormant hdormant hstart)
        · rw [hdormant] at hq
          cases hq
      | waiting hnot hf hnow =>
        have hfrom : t.From instant := from_step hf (hf hnext.getElem? hnext.slot?) hm
        have hnow' : t.now ≤ instant := hm.now ▸ Nat.le_trans hle (Nat.le_of_eq htime)
        rcases hm.others (Ne.symm hp) hi with hsame | ⟨-, lap, hg⟩
        · exact later hsame (.refl inv) hw (.waiting hnot hfrom hnow')
        · exact later hg ⟨rfl, rfl, rfl, rfl, rfl⟩ rfl (.waiting (fun h => nomatch h) hfrom hnow')

/-! ### Deadlines -/

/-- What a run comes to whose deadline has passed. -/
def lateReport (e : Engine) (inv : Invocation) (time : Nat) : Report :=
  ⟨.failure .timeout (timeoutText e.deadline) (.ofMilliseconds (time - inv.start)), 0⟩

/-- Nothing but its deadline makes a run go on. -/
structure Idle (s : Service) (inv : Invocation) : Prop where
  isWaiting : inv.stage.isWaiting
  ne_dormant : inv.stage ≠ .dormant
  due : inv.stage.DueFrom (inv.deadline + 1)
  cancelled : ∀ time ∈ s.cancelTimes inv.token, inv.deadline < time

private theorem goesOn?_of_due {limit : Nat} (hw : inv.stage ≠ .dormant) (hd : inv.stage.DueFrom limit)
    (hn : s.now < limit) :
    e.goesOn? s inv = none := by
  unfold goesOn?
  split
  · rfl
  · generalize inv.stage = stage at hw hd
    cases stage with
    | dormant => exact absurd rfl hw
    | granted due lap => exact if_neg (Nat.not_le.2 (Nat.lt_of_lt_of_le hn hd))
    | running pending =>
      cases pending with
      | none => rfl
      | some p => exact if_neg (Nat.not_le.2 (Nat.lt_of_lt_of_le hn hd))
    | queued | closing | marking | finished | broken => rfl

/-- A run is severed at its deadline, if it is its turn then. -/
theorem severed_of_idle {slot : Slot} (hs : s.Sound e) (hn : s.next? = some slot) (hp : slot.place = place)
    (hi : s.invocations[place]? = some inv) (hidle : Idle s inv) (ht : slot.time = inv.deadline) :
    Severed e s place (e.lateReport inv inv.deadline) := by
  subst hp
  obtain ⟨t, hstep, h⟩ := exists_step (e := e) hn hi
  have hworld := (s.atSlot slot).world_noteDrop inv
  have hinv := (s.atSlot slot).invocations_noteDrop inv
  have hnow : ((s.atSlot slot).noteDrop inv).now = slot.time := congrArg World.now hworld
  have hgoes : e.goesOn? ((s.atSlot slot).noteDrop inv) inv = none :=
    goesOn?_of_due hidle.ne_dormant hidle.due (by omega)
  have hcancelled : ((s.atSlot slot).noteDrop inv).isCancelled inv.token ≠ true := by
    intro h
    obtain ⟨time, hmem, hle⟩ := Service.isCancelled_iff.1 h
    have hlate := hidle.cancelled time (Service.mem_cancelTimes_of_noteDrop (s := s.atSlot slot) hi hmem)
    omega
  cases h with
  | runs h => rw [hgoes] at h; cases h
  | cancelled _ _ _ _ hc => exact absurd hc hcancelled
  | queues _ hd => exact absurd hd hidle.ne_dormant
  | closes hstage | completes hstage | marks hstage => have hw := hidle.isWaiting; rw [hstage] at hw; cases hw
  | @timedOut s₁ _ _ ha _ _ _ =>
    have hreport : e.timedOutReport ((s.atSlot slot).noteDrop inv) inv = e.lateReport inv inv.deadline := by
      rw [timedOutReport, spent, hnow, ht]
      rfl
    rw [hreport] at hstep
    refine severed_of_tells hs hn rfl hstep (ha.world.trans hworld) tells_conclude ?_
    rw [ha.length, hinv]
    exact (List.getElem?_eq_some_iff.1 hi).1

end Engine

end AgentLoop
