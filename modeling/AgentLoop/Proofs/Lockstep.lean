import AgentLoop.Proofs.Horizon
import AgentLoop.Proofs.Onward

/-!
# Services in lockstep

Two services that look the same up to a horizon take the same steps before it, and leave the same entries.  They may
belong to engines with different timeouts: these only show in what is reported when a deadline has passed.
-/

namespace AgentLoop

/-- No deadline passes before an instant. -/
def Service.Patient (limit : Nat) (s : Service) : Prop :=
  ∀ {place : Nat} {inv : Invocation}, s.invocations[place]? = some inv → limit ≤ inv.deadline

namespace Engine

variable {h : Horizon} {limit : Nat} {e : Engine} {s s' t : Service} {place : Nat} {inv : Invocation} {slot : Slot}
  {timeout : Option Span}

/-! ### Engines that differ in their timeouts -/

def withTimeout (e : Engine) (timeout : Option Span) : Engine := { e with timeout }

/-- The timeout makes no difference to an invocation whose deadline is to come, or else if it comes to the same. -/
def Indifferent (e : Engine) (timeout : Option Span) (s : Service) (inv : Invocation) : Prop :=
  (e.withTimeout timeout).deadline = e.deadline ∨ s.now < inv.deadline

private theorem conclude_timedOutReport (hi : e.Indifferent timeout s inv) {s₁ s₂ : Service} {inv₁ inv₂ : Invocation}
    (hd : inv.deadline ≤ s.now) :
    (e.withTimeout timeout).conclude s₁ place inv₁ ((e.withTimeout timeout).timedOutReport s₂ inv₂) =
      e.conclude s₁ place inv₁ (e.timedOutReport s₂ inv₂) := by
  have hdeadline := hi.resolve_right (Nat.not_lt.2 hd)
  have hreport : (e.withTimeout timeout).timedOutReport s₂ inv₂ = e.timedOutReport s₂ inv₂ := by
    rw [timedOutReport, timedOutReport, timedOut, timedOut, hdeadline]
  rw [hreport]
  rfl

private theorem resume_withTimeout (hi : e.Indifferent timeout s inv) (rest : RunProcess (Except RunError Outcome)) :
    (e.withTimeout timeout).resume s place inv rest = e.resume s place inv rest := by
  have hnow : (rest.play e.partners (some s.now) ⟨s.world, inv.feed⟩).2.world.now = s.now := Process.now_play rest rfl
  have hpartners : (e.withTimeout timeout).partners = e.partners := rfl
  unfold resume
  rw [hpartners]
  generalize rest.play e.partners (some s.now) ⟨s.world, inv.feed⟩ = result at hnow
  obtain ⟨stop, scene⟩ := result
  have suspends (stage : Stage) :
      (if inv.deadline ≤ Service.now { s with world := scene.world } then
        (e.withTimeout timeout).conclude { s with world := scene.world }.release place { inv with feed := scene.feed }
          ((e.withTimeout timeout).timedOutReport { s with world := scene.world } { inv with feed := scene.feed })
        else { s with world := scene.world }.put place { inv with feed := scene.feed } stage) =
      if inv.deadline ≤ Service.now { s with world := scene.world } then
        e.conclude { s with world := scene.world }.release place { inv with feed := scene.feed }
          (e.timedOutReport { s with world := scene.world } { inv with feed := scene.feed })
        else { s with world := scene.world }.put place { inv with feed := scene.feed } stage := by
    split
    · rename_i hd
      exact conclude_timedOutReport hi (Nat.le_trans hd (Nat.le_of_eq hnow))
    · rfl
  cases stop with
  | finished | broke => rfl
  | paused due rest' => exact suspends _
  | stuck => exact suspends _

private theorem enter_withTimeout (hi : e.Indifferent timeout s inv) :
    (e.withTimeout timeout).enter s place inv = e.enter s place inv :=
  resume_withTimeout hi _

private theorem cut?_withTimeout (hi : e.Indifferent timeout s inv) (leave : Service → Service) :
    (e.withTimeout timeout).cut? s place inv leave = e.cut? s place inv leave := by
  unfold cut?
  split
  · rfl
  · split
    · rename_i hd
      exact congrArg some (conclude_timedOutReport hi hd)
    · rfl

private theorem poll?_withTimeout (hi : e.Indifferent timeout s inv) :
    (e.withTimeout timeout).poll? s place inv = e.poll? s place inv := by
  have hi : e.Indifferent timeout (s.noteDrop inv) inv := by
    rwa [Indifferent, Service.now, Service.world_noteDrop]
  unfold poll?
  generalize s.noteDrop inv = s at hi
  dsimp only
  cases inv.stage with
  | dormant =>
    dsimp only
    repeat' split
    · rfl
    · rfl
    · exact congrArg some (enter_withTimeout (s := { s with free := s.free - 1 }) hi)
    · exact congrArg some (conclude_timedOutReport hi ‹_›)
    · rfl
  | queued => exact cut?_withTimeout hi _
  | granted due lap =>
    dsimp only
    split
    · exact congrArg some (enter_withTimeout hi)
    · exact cut?_withTimeout hi _
  | running pending =>
    cases pending with
    | none => exact cut?_withTimeout hi _
    | some p =>
      dsimp only
      split
      · exact congrArg some (resume_withTimeout hi _)
      · exact cut?_withTimeout hi _
  | closing report closingLimit pending =>
    cases pending <;> rfl
  | marking | finished | broken => rfl

/-! ### The same steps -/

private theorem patient_of_moves {inv' : Invocation} {entries : Journal} (hp : s.Patient limit)
    (hm : Moves s slot inv inv' entries t) : t.Patient limit := by
  intro j other ho
  by_cases hj : j = slot.place
  · subst hj
    obtain rfl : inv' = other := Option.some.inj (hm.after.symm.trans ho)
    exact hm.kin.deadline ▸ hp hm.before
  · rcases getElem?_of_others hm.length (hm.others hj) ho with hold | ⟨old, lap, hold, -, rfl⟩
    · exact hp hold
    · have hdeadline : limit ≤ old.deadline := hp hold
      exact hdeadline

private theorem stepAt?_of_upTo_eq (hr : h.Reaches limit) (heq : s.upTo h = s'.upTo h)
    (hp : (e.withTimeout timeout).deadline = e.deadline ∨ s.Patient limit) (ht : slot.time < limit) :
    (e.stepAt? s slot).map (Service.upTo h) = ((e.withTimeout timeout).stepAt? s' slot).map (Service.upTo h) := by
  have hstep : (e.withTimeout timeout).stepAt? (s.upTo h) slot = e.stepAt? (s.upTo h) slot := by
    unfold stepAt?
    cases hi : (s.upTo h).invocations[slot.place]? with
    | none => rw [Option.bind_eq_bind, Option.bind_none, Option.bind_none]
    | some inv =>
      have hindifferent : e.Indifferent timeout ((s.upTo h).atSlot slot) inv := by
        refine hp.imp id fun hp => ?_
        rw [Service.getElem?_upTo] at hi
        obtain ⟨other, ho, rfl⟩ := Option.map_eq_some_iff.1 hi
        have hdeadline := hp ho
        have hreach := hr.deadlines slot.place
        show slot.time < min other.deadline (h.deadlines slot.place)
        omega
      exact poll?_withTimeout hindifferent
  rw [upTo_stepAt? (s := s) hr ht, upTo_stepAt? (s := s') hr ht, ← heq, hstep]

private theorem alike_next?_of_upTo_eq (hr : h.Reaches limit) (heq : s.upTo h = s'.upTo h) :
    Option.Rel (Slot.Alike limit) s.next? s'.next? := by
  have hs := Service.alike_next? hr s
  have hs' := Service.alike_next? hr s'
  rw [← heq] at hs'
  generalize s.next? = a at hs ⊢
  generalize s'.next? = b at hs' ⊢
  generalize (s.upTo h).next? = c at hs hs'
  cases hs with
  | none => cases hs'; exact .none
  | some hac => cases hs' with | some hbc => exact .some (hac.trans hbc.symm)

/-- Services that look the same go on to look the same, and leave the same entries. -/
theorem lockstep (timeout : Option Span) (hr : h.Reaches limit) (hs : s.Sound e) (heq : s.upTo h = s'.upTo h)
    (hp : (e.withTimeout timeout).deadline = e.deadline ∨ s.Patient limit) :
    (e.advance (before limit) s).upTo h = ((e.withTimeout timeout).advance (before limit) s').upTo h ∧
      ∀ place, e.trail (before limit) place s = (e.withTimeout timeout).trail (before limit) place s' := by
  induction s using running_on e (before limit) generalizing s' with
  | stop s hstop =>
    -- what is next in the other service is not before the limit either
    have hstop' : ∀ slot, s'.next? = some slot → before limit s' slot = false := by
      intro slot hn
      have halike := alike_next?_of_upTo_eq hr heq
      rw [hn] at halike
      generalize hfirst : s.next? = first at halike
      cases halike with
      | @some a _ hab =>
        have hle : ¬ a.time < limit := by simpa [before] using hstop a hfirst
        simp only [before, decide_eq_false_iff_not]
        rcases hab with rfl | ⟨-, hb⟩
        · exact hle
        · omega
    rw [advance_of_stop hstop, advance_of_stop hstop']
    exact ⟨heq, fun place => (trail_of_stop hstop place).trans (trail_of_stop hstop' place).symm⟩
  | step s slot t hn hw hstep ih =>
    have hlt : slot.time < limit := by simpa [before] using hw
    -- alike and before the limit is the same
    have hn' : s'.next? = some slot := by
      have halike := alike_next?_of_upTo_eq hr heq
      rw [hn] at halike
      generalize s'.next? = first at halike
      cases halike with
      | @some _ b hab =>
        rcases hab with rfl | ⟨ha, -⟩
        · rfl
        · omega
    have hmap := stepAt?_of_upTo_eq hr heq hp hlt
    rw [hstep] at hmap
    obtain ⟨t', hstep', ht'⟩ := Option.map_eq_some_iff.1 hmap.symm
    obtain ⟨inv, inv', entries, hm, ht⟩ := moves_of_stepAt? hs hstep
    obtain ⟨hadvance, htrail⟩ := ih ht ht'.symm (hp.imp id fun hp => patient_of_moves hp hm)
    rw [advance_of_step hn hw hstep, advance_of_step hn' hw hstep']
    refine ⟨hadvance, fun place => ?_⟩
    have hworld : (s.upTo h).world = (s'.upTo h).world := congrArg Service.world heq
    have hworld' : (t'.upTo h).world = (t.upTo h).world := congrArg Service.world ht'
    have hentries : t.world.journal.drop s.world.journal.length = t'.world.journal.drop s'.world.journal.length := by
      rw [show s.world = s'.world from hworld, show t'.world = t.world from hworld']
    rw [trail_of_step hn hw hstep, trail_of_step hn' hw hstep', hentries, htrail]

end Engine

end AgentLoop
