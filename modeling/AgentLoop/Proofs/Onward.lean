import AgentLoop.Proofs.Progress
import AgentLoop.Proofs.Slots
import AgentLoop.Service.Advance

/-!
# Running on

A service that runs on takes all steps up to some point, and what it takes up to a later one is that and more.  The
entries that an invocation leaves on the way are its `trail`.  As long as the result is open, it leaves nothing that
closes a run, and after that nothing else.
-/

namespace AgentLoop

/-- What is left of each invocation agrees with something it may have done. -/
def Service.Sound (e : Engine) (s : Service) : Prop :=
  ∀ {place : Nat} {inv : Invocation}, s.invocations[place]? = some inv → ∃ trace, e.Sound inv trace

/-- Nobody has anything to do before a time. -/
def Service.From (limit : Nat) (s : Service) : Prop :=
  ∀ {place : Nat} {inv : Invocation} {slot : Slot}, s.invocations[place]? = some inv →
    s.slot? place inv = some slot → limit ≤ slot.time

namespace Engine

variable {e : Engine} {s t : Service} {place : Nat} {inv inv' : Invocation} {slot : Slot} {entries : Journal}

/-! ### Steps and phases -/

/-- An invocation waits, comes to its result, or closes, and these are the entries it leaves then. -/
inductive Phase (now : Nat) (inv inv' : Invocation) (entries : Journal) : Prop where
  | waits (hw : inv.stage.isWaiting) (hw' : inv'.stage.isWaiting)
    (h : ∀ x ∈ entries, x.1 = now ∧ x.2.isClosing = false)
  | ends (hw : inv.stage.isWaiting) (hw' : inv'.stage.isWaiting = false) (h : ∀ x ∈ entries, x.1 = now)
  | closes (hw : inv.stage.isWaiting = false) (hw' : inv'.stage.isWaiting = false)
    (hr : inv'.stage.report? = inv.stage.report?) (h : ClosingAt now entries)

/-- What the step at a slot changes. -/
structure Moves (s : Service) (slot : Slot) (inv inv' : Invocation) (entries : Journal) (t : Service) : Prop where
  before : s.invocations[slot.place]? = some inv
  after : t.invocations[slot.place]? = some inv'
  kin : inv.Kin inv'
  due : inv'.stage.DueFrom slot.time
  phase : Phase slot.time inv inv' entries
  journal : t.world.journal = s.world.journal ++ entries
  now : t.now = slot.time
  length : t.invocations.length = s.invocations.length
  cancellations {entry : Nat × Nat} (h : entry ∈ s.cancellations) : entry ∈ t.cancellations
  others {j : Nat} {other : Invocation} (hj : j ≠ slot.place) (h : s.invocations[j]? = some other) :
    t.invocations[j]? = some other ∨ other.stage = .queued ∧
      ∃ lap, t.invocations[j]? = some { other with stage := .granted slot.time lap }

private theorem Phase.time {now : Nat} (h : Phase now inv inv' entries) : ∀ x ∈ entries, x.1 = now := by
  cases h with
  | waits _ _ h => exact fun x hx => (h x hx).1
  | ends _ _ h => exact h
  | closes _ _ _ h => exact fun x hx => (h x hx).1

theorem time_entriesOf {now : Nat} {did : RunTrace} : ∀ x ∈ entriesOf now did, x.1 = now := by
  intro x hx
  obtain ⟨entry, -, rfl⟩ := List.mem_map.1 hx
  rfl

/-- A run that is not over leaves nothing that closes it. -/
theorem isClosing_entriesOf {now : Nat} {command : Command} {streams : Bool} {trace did : RunTrace}
    (h : e.Spoken command streams (trace ++ did)) : ∀ x ∈ entriesOf now did, x.2.isClosing = false := by
  intro x hx
  obtain ⟨entry, he, rfl⟩ := List.mem_map.1 hx
  obtain ⟨y, hy, hye⟩ := List.mem_filterMap.1 he
  exact h.isClosing (List.mem_append_right _ hy) entry hye

private theorem Fate.phase {trace did : RunTrace} (h : Fate e trace inv inv' did s t)
    (hs : e.Spoken inv.command inv.streams (trace ++ did)) :
    ∃ entries, t.world.journal = s.world.journal ++ entries ∧ Phase s.now inv inv' entries := by
  have told {told : Journal} (ht : ClosingAt s.now told) : ∀ x ∈ entriesOf s.now did ++ told, x.1 = s.now := by
    intro x hx
    exact (List.mem_append.1 hx).elim (time_entriesOf x) fun hx => (ht x hx).1
  cases h with
  | waits hw hw' hj => exact ⟨_, hj, .waits hw hw' fun x hx => ⟨time_entriesOf x hx, isClosing_entriesOf hs x hx⟩⟩
  | breaks hw hw' _ hj => exact ⟨_, hj, .ends hw hw' time_entriesOf⟩
  | fails hw hc _ hj ht => exact ⟨_, hj.trans (List.append_assoc ..), .ends hw hc.isWaiting (told ht)⟩
  | succeeds hw hc _ _ hj ht => exact ⟨_, hj.trans (List.append_assoc ..), .ends hw hc.isWaiting (told ht)⟩
  | closes hw hr hc hj ht => exact ⟨_, hj, .closes hw hc.isWaiting (hc.report?.trans hr.symm) ht⟩

theorem moves_of_stepAt? (hs : s.Sound e) (h : e.stepAt? s slot = some t) :
    ∃ inv inv' entries, Moves s slot inv inv' entries t ∧ t.Sound e := by
  obtain ⟨inv, hi, -⟩ := Option.bind_eq_some_iff.1 h
  obtain ⟨trace, hsound⟩ := hs hi
  have hstep := stepped_of_stepAt? hi hsound h
  have hinv := (s.atSlot slot).invocations_noteDrop inv
  have hworld := (s.atSlot slot).world_noteDrop inv
  have hmem {entry : Nat × Nat} : entry ∈ s.cancellations → entry ∈ ((s.atSlot slot).noteDrop inv).cancellations :=
    Service.mem_cancellations_noteDrop (s := s.atSlot slot) inv
  have hnow : ((s.atSlot slot).noteDrop inv).now = slot.time := congrArg World.now hworld
  have hat {j : Nat} {other : Invocation} (hj : s.invocations[j]? = some other) :
      ((s.atSlot slot).noteDrop inv).invocations[j]? = some other := (congrArg (·[j]?) hinv).trans hj
  obtain ⟨inv', hi', hk, hd, hsound', hfate⟩ := hstep.own
  obtain ⟨entries, hj, hphase⟩ := hfate.phase (hk.command ▸ hk.streams ▸ hsound'.spoken)
  rw [hworld] at hj
  refine ⟨inv, inv', entries, ⟨hi, hi', hk, hnow ▸ hd, hnow ▸ hphase, hj, hstep.now.trans hnow,
    hstep.length.trans (congrArg List.length hinv), fun h => hstep.cancellations ▸ hmem h,
    fun hne hother => hnow ▸ hstep.others hne (hat hother)⟩, fun {j other} ht => ?_⟩
  -- afterwards everybody is as sound as before, and who is let in has done nothing yet
  by_cases hj : j = slot.place
  · subst hj
    exact ⟨_, Option.some.inj (hi'.symm.trans ht) ▸ hsound'⟩
  · rcases getElem?_of_others hstep.length (hstep.others hj) ht with hold | ⟨old, lap, -, -, rfl⟩
    · exact hs ((congrArg (·[j]?) hinv).symm.trans hold)
    · exact ⟨[], sound_of_isFresh rfl⟩

/-! ### Nothing comes from the past -/

private theorem dueFrom_mono {stage : Stage} {a b : Nat} (h : stage.DueFrom b) (hab : a ≤ b) : stage.DueFrom a := by
  unfold Stage.DueFrom at h ⊢
  split at h <;> first | exact h | exact Nat.le_trans hab h

private theorem le_time_slot? {limit : Nat} (hd : inv.stage.DueFrom limit) (hn : limit ≤ s.now)
    (h : s.slot? place inv = some slot) : limit ≤ slot.time := by
  have hat (time : Nat) : limit ≤ (s.slotAt place time).time := by
    rw [Service.time_slotAt]
    omega
  rw [Service.slot?_eq] at h
  generalize inv.stage = stage at h hd
  cases stage with
  | dormant => exact hd.elim
  | queued => exact Option.some.inj h ▸ hat _
  | granted due lap => exact Option.some.inj h ▸ Slot.le_time_earlier hd (hat _)
  | running pending =>
    cases pending with
    | none => exact Option.some.inj h ▸ hat _
    | some p => exact Option.some.inj h ▸ Slot.le_time_earlier hd (hat _)
  | closing report closingLimit pending =>
    cases pending with
    | none => exact Option.some.inj h ▸ hat _
    | some p => exact Option.some.inj h ▸ Slot.le_time_earlier hd (hat _)
  | marking report ended due => exact Option.some.inj h ▸ hat _
  | finished | broken => cases h

theorem dueFrom_of_le {limit : Nat} (hs : inv.stage ≠ .dormant)
    (h : ∀ {slot}, s.slot? place inv = some slot → limit ≤ slot.time) : inv.stage.DueFrom limit := by
  have hdue {due lap : Nat} {cut : Slot} (hl : limit ≤ (Slot.earlier ⟨due, lap, place⟩ cut).time) : limit ≤ due :=
    Nat.le_trans hl (Slot.time_earlier_le _ _).1
  rw [Service.slot?_eq] at h
  generalize inv.stage = stage at h hs
  cases stage with
  | dormant => exact hs rfl
  | granted due lap => exact hdue (h rfl)
  | running pending =>
    cases pending with
    | none => trivial
    | some p => exact hdue (h rfl)
  | closing report closingLimit pending =>
    cases pending with
    | none => trivial
    | some p => exact hdue (h rfl)
  | queued | marking | finished | broken => trivial

theorem from_step {limit : Nat} (hf : s.From limit) (hl : limit ≤ slot.time)
    (hm : Moves s slot inv inv' entries t) : t.From limit := by
  have hnow : limit ≤ t.now := hm.now ▸ hl
  intro j other later ho h
  by_cases hj : j = slot.place
  · subst hj
    obtain rfl : inv' = other := Option.some.inj (hm.after.symm.trans ho)
    exact le_time_slot? (dueFrom_mono hm.due hl) hnow h
  · rcases getElem?_of_others hm.length (hm.others hj) ho with hold | ⟨old, lap, -, -, rfl⟩
    · by_cases hd : other.stage = .dormant
      · have hslot : s.slot? j other = some later := by
          rw [Service.slot?_eq, hd] at h ⊢
          exact h
        exact hf hold hslot
      · exact le_time_slot? (dueFrom_of_le hd (hf hold)) hnow h
    · refine le_time_slot? ?_ hnow h
      exact hl

/-! ### Trails -/

/-- All steps that can be taken. -/
def always : Service → Slot → Bool := fun _ _ => true

/-- The steps before an instant. -/
def before (limit : Nat) : Service → Slot → Bool := fun _ slot => slot.time < limit

/-- What an invocation leaves in the journal in the steps that `advance` takes. -/
def trail (e : Engine) (wanted : Service → Slot → Bool) (place : Nat) (s : Service) : Journal :=
  match s.next? with
  | none => []
  | some slot =>
    if wanted s slot then
      match _h : e.stepAt? s slot with
      | none => []
      | some t =>
        (if slot.place = place then t.world.journal.drop s.world.journal.length else []) ++ trail e wanted place t
    else []
termination_by Progress.mk s.stages
decreasing_by exact further_stepAt? (by assumption)

variable {wanted : Service → Slot → Bool}

theorem advance_of_step (hn : s.next? = some slot) (hw : wanted s slot = true) (hs : e.stepAt? s slot = some t) :
    e.advance wanted s = e.advance wanted t := by
  rw [advance, hn]
  dsimp only
  rw [if_pos hw]
  split
  · rename_i h
    rw [hs] at h
    cases h
  · rename_i t' h
    obtain rfl : t = t' := Option.some.inj (hs.symm.trans h)
    rfl

theorem advance_of_stop (h : ∀ slot, s.next? = some slot → wanted s slot = false) : e.advance wanted s = s := by
  rw [advance]
  split
  · rfl
  · rename_i slot hn
    rw [h slot hn]
    rfl

theorem trail_of_step (hn : s.next? = some slot) (hw : wanted s slot = true) (hs : e.stepAt? s slot = some t)
    (place : Nat) :
    e.trail wanted place s =
      (if slot.place = place then t.world.journal.drop s.world.journal.length else []) ++ e.trail wanted place t := by
  rw [trail, hn]
  dsimp only
  rw [if_pos hw]
  split
  · rename_i h
    rw [hs] at h
    cases h
  · rename_i t' h
    obtain rfl : t = t' := Option.some.inj (hs.symm.trans h)
    rfl

theorem trail_of_stop (h : ∀ slot, s.next? = some slot → wanted s slot = false) (place : Nat) :
    e.trail wanted place s = [] := by
  rw [trail]
  split
  · rfl
  · rename_i slot hn
    rw [h slot hn]
    rfl

/-- A service runs on step by step, until the next one is not wanted. -/
theorem running_on {motive : Service → Prop} (e : Engine) (wanted : Service → Slot → Bool)
    (stop : ∀ s, (∀ slot, s.next? = some slot → wanted s slot = false) → motive s)
    (step : ∀ s slot t, s.next? = some slot → wanted s slot = true → e.stepAt? s slot = some t → motive t → motive s)
    (s : Service) : motive s := by
  induction s using advance.induct e wanted with
  | case1 s hn => exact stop s fun slot h => by rw [hn] at h; cases h
  | case2 s slot hn hw hs => exact absurd (isSome_stepAt? (e := e) hn) (by rw [hs]; exact Bool.false_ne_true)
  | case3 s slot hn hw t hs ih => exact step s slot t hn hw hs ih
  | case4 s slot hn hw =>
    refine stop s fun slot' h => ?_
    obtain rfl := Option.some.inj (hn.symm.trans h)
    simpa using hw

/-- Whoever runs on up to some point, and then up to a later one, might have done so at once. -/
theorem advance_advance {further : Service → Slot → Bool} (h : ∀ s slot, wanted s slot = true → further s slot = true)
    (s : Service) : e.advance further s = e.advance further (e.advance wanted s) := by
  induction s using running_on e wanted with
  | stop s hs => rw [advance_of_stop hs]
  | step s slot t hn hw hs ih => rw [advance_of_step hn (h s slot hw) hs, ih, advance_of_step hn hw hs]

theorem trail_append {further : Service → Slot → Bool} (h : ∀ s slot, wanted s slot = true → further s slot = true)
    (place : Nat) (s : Service) :
    e.trail further place s = e.trail wanted place s ++ e.trail further place (e.advance wanted s) := by
  induction s using running_on e wanted with
  | stop s hs => rw [advance_of_stop hs, trail_of_stop hs, List.nil_append]
  | step s slot t hn hw hs ih =>
    rw [trail_of_step hn (h s slot hw) hs, trail_of_step hn hw hs, advance_of_step hn hw hs, ih, List.append_assoc]

/-! ### Along the way -/

theorem trail_of_moves (hn : s.next? = some slot) (hw : wanted s slot = true) (hs : e.stepAt? s slot = some t)
    (hm : Moves s slot inv inv' entries t) (place : Nat) :
    e.trail wanted place s = (if slot.place = place then entries else []) ++ e.trail wanted place t := by
  rw [trail_of_step hn hw hs, hm.journal, List.drop_left]

theorem sound_advance (wanted : Service → Slot → Bool) (hs : s.Sound e) : (e.advance wanted s).Sound e := by
  induction s using running_on e wanted with
  | stop s hstop => rwa [advance_of_stop hstop]
  | step s slot t hn hw hstep ih =>
    obtain ⟨inv, inv', entries, hm, ht⟩ := moves_of_stepAt? hs hstep
    rw [advance_of_step hn hw hstep]
    exact ih ht

theorem from_advance_before (limit : Nat) (s : Service) : (e.advance (before limit) s).From limit := by
  induction s using running_on e (before limit) with
  | stop s hstop =>
    rw [advance_of_stop hstop]
    intro place inv slot hi h
    obtain ⟨first, hf⟩ := Service.exists_next? hi h
    obtain ⟨other, hn⟩ := Service.next_of_next? hf
    have hlate : ¬ first.time < limit := by simpa [before] using hstop first hf
    have hle := hn.time_le hi h
    omega
  | step s slot t hn hw hstep ih => rwa [advance_of_step hn hw hstep]

private theorem now_lt_of_step {limit : Nat} (hw : before limit s slot = true) (hm : Moves s slot inv inv' entries t) :
    t.now < limit := by
  rw [hm.now]
  simpa [before] using hw

private theorem now_advance_before {limit : Nat} (hs : s.Sound e) (hnow : s.now < limit) :
    (e.advance (before limit) s).now < limit := by
  induction s using running_on e (before limit) with
  | stop s hstop => rwa [advance_of_stop hstop]
  | step s slot t hn hw hstep ih =>
    obtain ⟨inv, inv', entries, hm, ht⟩ := moves_of_stepAt? hs hstep
    rw [advance_of_step hn hw hstep]
    exact ih ht (now_lt_of_step hw hm)

/-- Whoever has taken a step before an instant has not come to it yet. -/
theorem now_advance_before_of_ne {limit : Nat} (hs : s.Sound e) (hne : e.advance (before limit) s ≠ s) :
    (e.advance (before limit) s).now < limit := by
  induction s using running_on e (before limit) with
  | stop s hstop => exact absurd (advance_of_stop hstop) hne
  | step s slot t hn hw hstep =>
    obtain ⟨inv, inv', entries, hm, ht⟩ := moves_of_stepAt? hs hstep
    rw [advance_of_step hn hw hstep]
    exact now_advance_before ht (now_lt_of_step hw hm)

/-- What is left before an instant has an earlier time. -/
theorem time_trail_before (place limit : Nat) (hs : s.Sound e) : ∀ x ∈ e.trail (before limit) place s, x.1 < limit := by
  induction s using running_on e (before limit) with
  | stop s hstop => simp [trail_of_stop hstop]
  | step s slot t hn hw hstep ih =>
    obtain ⟨inv, inv', entries, hm, ht⟩ := moves_of_stepAt? hs hstep
    have hlt : slot.time < limit := by simpa [before] using hw
    rw [trail_of_moves hn hw hstep hm]
    intro x hx
    rcases List.mem_append.1 hx with hx | hx
    · split at hx
      · exact hm.phase.time x hx ▸ hlt
      · cases hx
    · exact ih ht x hx

theorem time_trail_of_from (wanted : Service → Slot → Bool) (place : Nat) {limit : Nat} (hs : s.Sound e)
    (hf : s.From limit) : ∀ x ∈ e.trail wanted place s, limit ≤ x.1 := by
  induction s using running_on e wanted with
  | stop s hstop => simp [trail_of_stop hstop]
  | step s slot t hn hw hstep ih =>
    obtain ⟨inv, inv', entries, hm, ht⟩ := moves_of_stepAt? hs hstep
    obtain ⟨first, hfirst⟩ := Service.next_of_next? hn
    have hle : limit ≤ slot.time := hf hfirst.getElem? hfirst.slot?
    rw [trail_of_moves hn hw hstep hm]
    intro x hx
    rcases List.mem_append.1 hx with hx | hx
    · split at hx
      · exact hm.phase.time x hx ▸ hle
      · cases hx
    · exact ih ht (from_step hf hle hm) x hx

/-- Once the result is fixed it stays, and nothing is left to do but to close. -/
theorem closing_on (wanted : Service → Slot → Bool) (hs : s.Sound e) (hi : s.invocations[place]? = some inv) (hw : inv.stage.isWaiting = false) :
    (∀ x ∈ e.trail wanted place s, x.2.isClosing) ∧ ∃ inv', (e.advance wanted s).invocations[place]? = some inv' ∧
      inv'.stage.isWaiting = false ∧ inv'.stage.report? = inv.stage.report? := by
  induction s using running_on e wanted generalizing inv with
  | stop s hstop =>
    rw [trail_of_stop hstop, advance_of_stop hstop]
    exact ⟨by simp, inv, hi, hw, rfl⟩
  | step s slot t hn hwanted hstep ih =>
    obtain ⟨other, other', entries, hm, ht⟩ := moves_of_stepAt? hs hstep
    rw [trail_of_moves hn hwanted hstep hm, advance_of_step hn hwanted hstep]
    by_cases hp : slot.place = place
    · subst hp
      obtain rfl : other = inv := Option.some.inj (hm.before.symm.trans hi)
      rw [if_pos rfl]
      cases hm.phase with
      | waits h | ends h => rw [hw] at h; cases h
      | closes _ hw' hr hc =>
        obtain ⟨hclosing, inv', hi', hwaiting, hr'⟩ := ih ht hm.after hw'
        refine ⟨fun x hx => ?_, inv', hi', hwaiting, hr'.trans hr⟩
        exact (List.mem_append.1 hx).elim (fun hx => (hc x hx).2) (hclosing x)
    · rw [if_neg hp, List.nil_append]
      rcases hm.others (Ne.symm hp) hi with hsame | ⟨hq, -⟩
      · exact ih ht hsame hw
      · rw [hq] at hw
        cases hw

/-- Whoever still waits has left nothing that closes a run. -/
theorem waiting_on (hs : s.Sound e) (hi : (e.advance wanted s).invocations[place]? = some inv)
    (hw : inv.stage.isWaiting) : ∀ x ∈ e.trail wanted place s, x.2.isClosing = false := by
  induction s using running_on e wanted with
  | stop s hstop => simp [trail_of_stop hstop]
  | step s slot t hn hwanted hstep ih =>
    obtain ⟨other, other', entries, hm, ht⟩ := moves_of_stepAt? hs hstep
    rw [advance_of_step hn hwanted hstep] at hi
    rw [trail_of_moves hn hwanted hstep hm]
    intro x hx
    rcases List.mem_append.1 hx with hown | hlater
    · split at hown
      · rename_i hp
        subst hp
        have notYet (h : other'.stage.isWaiting = false) : False := by
          obtain ⟨-, inv', hi', hwaiting, -⟩ := closing_on wanted ht hm.after h
          obtain rfl := Option.some.inj (hi.symm.trans hi')
          rw [hw] at hwaiting
          cases hwaiting
        cases hm.phase with
        | waits _ _ h => exact (h x hown).2
        | ends _ h | closes _ h => exact (notYet h).elim
      · cases hown
    · exact ih ht hi x hlater

end Engine

end AgentLoop
