import AgentLoop.Proofs.Delays
import AgentLoop.Proofs.Timelines
import AgentLoop.Retry

/-!
# Retries

The run of a call that is retried is determined by the outcomes of its attempts.  It makes attempts up to the first
that does not fail for a transient cause, or until none is left, and ends as the last of them does; between two attempts
one retry is recorded and its delay passes.  A call that is cancelled does what it would do before that instant, and
nothing else.  All of this is so as long as the delays can be represented; where one cannot, the call breaks down
instead of waiting.  A delay that is configured always can be.  The records count it in milliseconds of sixty-four bits.
-/

namespace AgentLoop

/-- Attempts are few enough to be counted in thirty-two bits. -/
theorem RetryPolicy.toNat_attempt {p : RetryPolicy} {i : Nat} (h : i < p.attempts) : (UInt32.ofNat i).toNat = i := by
  have hsize : p.attempts ≤ UInt32.size - 1 :=
    Nat.max_le.2 ⟨Nat.le_sub_one_of_lt p.maxAttempts.toNat_lt, by decide⟩
  refine UInt32.toNat_ofNat_of_lt' ?_
  omega

namespace Retry

variable {α : Type}

/-! ### What the outcomes determine -/

/-- The failure for which another attempt is made while attempts are left. -/
def transient? : Ending (Except ProviderError α) → Option ProviderError
  | .returns (.error e) => if e.isTransient then some e else none
  | _ => none

/-- How a call ends whose last attempt ends like this. -/
def conclusion : Ending (Except ProviderError α) → Ending (Except RunError α)
  | .returns (.ok value) => .returns (.ok value)
  | .returns (.error .cancelled) => .returns (.error .cancelled)
  | .returns (.error e) => .returns (.error (.provider e))
  | .faults message => .faults message
  | .hangs => .hangs

/-- A call by itself: its policy and random words, whether events are recorded, and what each attempt comes to. -/
structure Call (α : Type) where
  policy : RetryPolicy
  draw : Nat → UInt64 := fun _ => 0
  recordsEvents : Bool := true
  attempt : Nat → Reaction (Except ProviderError α)

namespace Call

variable (c : Call α) {made left now : Nat}

def note (n : Note) : Process (.notes Note) Unit := Process.ask (S := .notes Note) n

def record (e : Event) : Process (.notes Note) Unit := if c.recordsEvents then note (.event e) else pure ()

/-- An attempt, which is noted as it begins. -/
def noted (made : Nat) : Process (.notes Note) (Except ProviderError α) := do
  note .attempt
  Process.react (c.attempt made)

/-- What is left of the call after so many attempts. -/
def rest (made left : Nat) : Process (.notes Note) (Except RunError α) :=
  attemptsFrom c.policy c.draw c.record c.noted made left

/-- The whole call. -/
def process : Process (.notes Note) (Except RunError α) := call c.policy c.draw c.record c.noted

/-- The course of a call is what becomes of it where all random words are zero. -/
theorem course_eq (policy : RetryPolicy) (recordsEvents : Bool) (cancelAt : Option Nat)
    (attempt : Nat → Reaction (Except ProviderError α)) :
    course policy recordsEvents cancelAt attempt =
      (Call.mk policy (fun _ => 0) recordsEvents attempt).process.timeline.upTo cancelAt := rfl

/-- The number of the last attempt, counted from zero: the first one that does not fail for a transient cause, or else
the last one that the policy has. -/
def retries : Nat := (List.range (c.policy.attempts - 1)).findIdx fun i => (transient? (c.attempt i).ending).isNone

/-- The delay after the attempt with this number, if it can be represented. -/
def delay? (i : Nat) : Option Span := c.policy.jitteredDelay? (.ofNat i) (c.draw i)

def delay (i : Nat) : Span := (c.delay? i).getD ⟨0⟩

/-- When the attempt with this number starts. -/
def startsAt : Nat → Nat
  | 0 => 0
  | i + 1 => startsAt i + (c.attempt i).after + (c.delay i).ticks

/-- When the attempt with this number is over. -/
def endsAt (i : Nat) : Nat := c.startsAt i + (c.attempt i).after

/-- The retry after the attempt with this number. -/
def scheduled (i : Nat) : Event :=
  .retryScheduled (.ofNat (i + 1)) (.ofNat (c.delay i).milliseconds)
    (((transient? (c.attempt i).ending).map (·.message)).getD "")

/-- An attempt that is followed by another one. -/
def retried (i : Nat) : List (Nat × Note) :=
  (c.startsAt i, .attempt) :: if c.recordsEvents then [(c.endsAt i, .event (c.scheduled i))] else []

/-- The first attempts, if each of them is followed by another one. -/
def firstRetried (n : Nat) : List (Nat × Note) := (List.range n).flatMap c.retried

/-- What the outcomes of the attempts make of the call. -/
def outline : Timeline Note (Except RunError α) :=
  ⟨c.firstRetried c.retries ++ [(c.startsAt c.retries, .attempt)], c.endsAt c.retries,
    conclusion (c.attempt c.retries).ending⟩

/-! ### One attempt -/

variable {c}

private theorem timelineFrom_noted (f : Except ProviderError α → Process (.notes Note) (Except RunError α)) :
    ((c.noted made).bind f).timelineFrom now =
      Timeline.after [(now, .attempt)]
        (match (c.attempt made).ending with
          | .returns r => (f r).timelineFrom (now + (c.attempt made).after)
          | .faults message => ⟨[], now + (c.attempt made).after, .faults message⟩
          | .hangs => ⟨[], now + (c.attempt made).after, .hangs⟩) := by
  have hact : (c.noted made).bind f = .act .attempt fun _ => (Process.react (c.attempt made)).bind f := rfl
  rw [hact]
  unfold Process.react
  cases (c.attempt made).ending <;> rfl

private theorem transient?_eq_some {ending : Ending (Except ProviderError α)} {e : ProviderError} :
    transient? ending = some e ↔ ending = .returns (.error e) ∧ e.isTransient = true := by
  unfold transient?
  split
  · rename_i failure
    split
    · rename_i htransient
      constructor
      · rintro ⟨⟩
        exact ⟨rfl, htransient⟩
      · rintro ⟨⟨⟩, -⟩
        rfl
    · rename_i hpermanent
      refine iff_of_false (fun h => nomatch h) ?_
      rintro ⟨⟨⟩, htransient⟩
      exact hpermanent htransient
  · rename_i hother
    exact iff_of_false (fun h => nomatch h) fun h => hother e h.1

/-- An attempt after which there is no other one is the last thing that happens. -/
private theorem timelineFrom_last (h : transient? (c.attempt made).ending = none ∨ left = 0) :
    (c.rest made left).timelineFrom now =
      ⟨[(now, .attempt)], now + (c.attempt made).after, conclusion (c.attempt made).ending⟩ := by
  rw [rest, attemptsFrom.eq_def, timelineFrom_noted]
  cases hending : (c.attempt made).ending with
  | faults | hangs => rfl
  | returns r =>
    cases r with
    | ok value => rfl
    | error e =>
      rw [hending] at h
      rcases h with hpermanent | rfl
      · have hfailed : e.isTransient = false := by
          by_contra htransient
          rw [transient?_eq_some.2 ⟨rfl, by simpa using htransient⟩] at hpermanent
          cases hpermanent
        cases e <;> simp [hfailed, conclusion, Timeline.after, Process.timelineFrom, pure]
      · cases e <;> simp [conclusion, Timeline.after, Process.timelineFrom, pure]

/-- What follows an attempt that failed for a transient cause while attempts are left. -/
private theorem timelineFrom_failed {e : ProviderError} (h : transient? (c.attempt made).ending = some e) :
    (c.rest made (left + 1)).timelineFrom now = Timeline.after [(now, .attempt)]
      ((match c.delay? made with
        | none => .fault overflowText
        | some delay => c.record (.retryScheduled (.ofNat (made + 1)) (.ofNat delay.milliseconds) e.message) >>= fun _ =>
            Process.sleep delay.ticks >>= fun _ => c.rest (made + 1) left : Process _ _).timelineFrom
        (now + (c.attempt made).after)) := by
  obtain ⟨hending, htransient⟩ := transient?_eq_some.1 h
  have hcancelled : e ≠ .cancelled := by
    rintro rfl
    cases htransient
  rw [rest, attemptsFrom, timelineFrom_noted, hending]
  cases e <;> first | exact absurd rfl hcancelled | (simp only [htransient, if_true]; rfl)

/-- A delay that cannot be represented breaks the call down. -/
private theorem timelineFrom_overflow {e : ProviderError} (h : transient? (c.attempt made).ending = some e)
    (hd : c.delay? made = none) :
    (c.rest made (left + 1)).timelineFrom now =
      ⟨[(now, .attempt)], now + (c.attempt made).after, .faults overflowText⟩ := by
  rw [timelineFrom_failed h, hd]
  rfl

private theorem startsAt_succ (i : Nat) : c.startsAt (i + 1) = c.endsAt i + (c.delay i).ticks := rfl

private theorem delay_eq {i : Nat} {delay : Span} (h : c.delay? i = some delay) : c.delay i = delay := by
  rw [Call.delay, h, Option.getD_some]

private theorem scheduled_eq {i : Nat} {e : ProviderError} {delay : Span} (h : transient? (c.attempt i).ending = some e)
    (hd : c.delay? i = some delay) :
    c.scheduled i = .retryScheduled (.ofNat (i + 1)) (.ofNat delay.milliseconds) e.message := by
  rw [scheduled, delay_eq hd, h]
  rfl

/-- Otherwise the retry is recorded, its delay passes, and the call goes on. -/
private theorem timelineFrom_retry {e : ProviderError} {delay : Span} (h : transient? (c.attempt made).ending = some e)
    (hd : c.delay? made = some delay) :
    (c.rest made (left + 1)).timelineFrom (c.startsAt made) =
      ((c.rest (made + 1) left).timelineFrom (c.startsAt (made + 1))).after (c.retried made) := by
  rw [timelineFrom_failed h, hd, retried, scheduled_eq h hd, startsAt_succ, delay_eq hd]
  dsimp only
  unfold record
  split <;> rfl

/-! ### All attempts -/

private theorem firstRetried_succ (n : Nat) : c.firstRetried (n + 1) = c.firstRetried n ++ c.retried n := by
  rw [firstRetried, List.range_succ, List.flatMap_append, List.flatMap_singleton]
  rfl

/-- Before the last attempt every attempt failed for a transient cause, and another one was left. -/
private theorem exists_transient {i : Nat} (h : i < c.retries) :
    (∃ e, transient? (c.attempt i).ending = some e) ∧ i + 1 < c.policy.attempts := by
  have hlength := List.length_range (n := c.policy.attempts - 1)
  have hle : c.retries ≤ (List.range (c.policy.attempts - 1)).length := List.findIdx_le_length
  have hpasses := List.not_of_lt_findIdx h
  rw [List.getElem_range] at hpasses
  refine ⟨Option.ne_none_iff_exists'.1 fun hnone => ?_, by omega⟩
  rw [hnone] at hpasses
  cases hpasses

/-- The last attempt does not fail for such a cause, or no other one is left. -/
private theorem last_attempt :
    transient? (c.attempt c.retries).ending = none ∨ c.policy.attempts - 1 - c.retries = 0 := by
  have hlength := List.length_range (n := c.policy.attempts - 1)
  by_cases hlast : c.retries < (List.range (c.policy.attempts - 1)).length
  · have hfinal := ((List.findIdx_eq hlast).1 (Eq.refl c.retries)).1
    rw [List.getElem_range] at hfinal
    exact .inl (Option.isNone_iff_eq_none.1 hfinal)
  · exact .inr (by omega)

/-- After so many retries the call has done what belongs to these, and goes on. -/
private theorem timeline_process {n : Nat} (hn : n ≤ c.retries) (hd : ∀ i < n, ∃ delay, c.delay? i = some delay) :
    c.process.timeline = ((c.rest n (c.policy.attempts - 1 - n)).timelineFrom (c.startsAt n)).after (c.firstRetried n) := by
  induction n with
  | zero => rfl
  | succ n ih =>
    obtain ⟨⟨e, htransient⟩, hleft⟩ := exists_transient hn
    obtain ⟨delay, hdelay⟩ := hd n (Nat.lt_succ_self n)
    have hleft' : c.policy.attempts - 1 - n = (c.policy.attempts - 1 - (n + 1)) + 1 := by omega
    rw [ih (by omega) fun i hi => hd i (by omega), hleft', timelineFrom_retry htransient hdelay, Timeline.after_after,
      firstRetried_succ]

/-! ### The whole call -/

/-- Every delay between two attempts can be represented, and so can its milliseconds. -/
def Paced (c : Call α) : Prop :=
  ∀ i < c.retries, ∃ delay, c.delay? i = some delay ∧ delay.milliseconds < UInt64.size

/-- The number of attempts that were started. -/
def started (beats : List (Nat × Note)) : Nat := beats.countP fun beat => beat.2 = .attempt

private theorem started_firstRetried (n : Nat) : started (c.firstRetried n ++ [(c.startsAt n, .attempt)]) = n + 1 := by
  induction n with
  | zero => rfl
  | succ n ih =>
    have hretried : started (c.retried n) = 1 := by
      unfold retried started
      split <;> rfl
    have hlast (i : Nat) : started [(c.startsAt i, .attempt)] = 1 := rfl
    simp only [started, List.countP_append, firstRetried_succ] at ih hretried hlast ⊢
    rw [hlast] at ih ⊢
    omega

private theorem retries_lt (c : Call α) : c.retries < c.policy.attempts := by
  have hle : c.retries ≤ (List.range (c.policy.attempts - 1)).length := List.findIdx_le_length
  have hpos := c.policy.attempts_pos
  rw [List.length_range] at hle
  omega

/-- The run of a call is exactly determined by the outcomes of its attempts. -/
structure Determined (c : Call α) : Prop where
  /-- As many attempts are started as it takes to come to an outcome that is not transient, if the policy has as
  many, -/
  attempts_of_final {k : Nat} (before : ∀ i < k, ∃ e, transient? (c.attempt i).ending = some e)
    (final : transient? (c.attempt k).ending = none) : c.retries + 1 = min (k + 1) c.policy.attempts
  /-- and otherwise all that the policy has. -/
  attempts_of_transient (h : ∀ i, ∃ e, transient? (c.attempt i).ending = some e) : c.retries + 1 = c.policy.attempts
  started : started c.process.timeline.beats = c.retries + 1
  /-- Each attempt but the last is followed by its retry, its delay and the next attempt, and the call ends as the last
  attempt does. -/
  timeline : c.process.timeline = c.outline
  /-- The retries are numbered from one.  Each tells the failure of its attempt and the delay, and this passes before the
  next attempt. -/
  retry {i : Nat} (h : i < c.retries) : ∃ e delay number delayMs, transient? (c.attempt i).ending = some e ∧
    c.delay? i = some delay ∧ c.scheduled i = .retryScheduled number delayMs e.message ∧ number.toNat = i + 1 ∧
    delayMs.toNat = delay.milliseconds ∧ delay.nanoseconds ≤ (c.startsAt (i + 1) - c.endsAt i) * 1000000
  /-- A call that is over before it is cancelled, if it is cancelled at all, goes as it would by itself. -/
  completed {cancelAt : Option Nat}
    (h : ∀ t, cancelAt = some t → c.outline.ending ≠ .hangs ∧ c.outline.length < t) :
    c.process.timeline.upTo cancelAt = ⟨c.outline.beats, c.outline.length, c.outline.ending.map some⟩
  /-- Any other one ends in cancellation at that instant, and does before it what it would do by itself. -/
  cut {t : Nat} (h : c.outline.ending = .hangs ∨ t ≤ c.outline.length) :
    c.process.timeline.upTo (some t) = ⟨c.outline.beats.filter fun beat => beat.1 < t, t, .returns none⟩
  /-- Nothing happens if it is cancelled from the start. -/
  cut_at_once : c.process.timeline.upTo (some 0) = ⟨[], 0, .returns none⟩

/-- The call breaks down after the first failure whose delay cannot be represented. -/
theorem timeline_of_overflow {n : Nat} (hn : n < c.retries) (hd : ∀ i < n, ∃ delay, c.delay? i = some delay)
    (hnone : c.delay? n = none) :
    c.process.timeline = ⟨c.firstRetried n ++ [(c.startsAt n, .attempt)], c.endsAt n, .faults overflowText⟩ := by
  obtain ⟨⟨e, htransient⟩, hleft⟩ := exists_transient hn
  have hleft' : c.policy.attempts - 1 - n = (c.policy.attempts - 1 - (n + 1)) + 1 := by omega
  rw [timeline_process hn.le hd, hleft', timelineFrom_overflow htransient hnone]
  rfl

/-- Otherwise it comes to its last attempt, and ends as that does. -/
private theorem timeline_eq_outline (hd : ∀ i < c.retries, ∃ delay, c.delay? i = some delay) :
    c.process.timeline = c.outline := by
  rw [timeline_process (Nat.le_refl _) hd, timelineFrom_last last_attempt]
  rfl

private theorem attempts_of_final {k : Nat} (before : ∀ i < k, ∃ e, transient? (c.attempt i).ending = some e)
    (final : transient? (c.attempt k).ending = none) : c.retries + 1 = min (k + 1) c.policy.attempts := by
  have hlt := c.retries_lt
  rcases Nat.lt_trichotomy c.retries k with hbefore | heq | hafter
  · obtain ⟨e, htransient⟩ := before _ hbefore
    obtain hnone | hleft := c.last_attempt
    · rw [hnone] at htransient
      cases htransient
    · omega
  · omega
  · obtain ⟨⟨e, htransient⟩, -⟩ := exists_transient hafter
    rw [final] at htransient
    cases htransient

private theorem attempts_of_transient (h : ∀ i, ∃ e, transient? (c.attempt i).ending = some e) :
    c.retries + 1 = c.policy.attempts := by
  have hlt := c.retries_lt
  obtain ⟨e, htransient⟩ := h c.retries
  obtain hnone | hleft := c.last_attempt
  · rw [hnone] at htransient
    cases htransient
  · omega

/-- What happens before an instant is what is noted with an earlier time. -/
private theorem before_eq_filter (t : Nat) :
    c.process.timeline.before t = c.process.timeline.beats.filter fun beat => beat.1 < t :=
  Timeline.takeWhile_eq_filter (Process.pairwise_timelineFrom _ 0).1 t

private theorem Paced.timeline (h : c.Paced) : c.process.timeline = c.outline :=
  timeline_eq_outline fun i hi => (h i hi).imp fun _ hdelay => hdelay.1

private theorem Paced.determined (h : c.Paced) : c.Determined where
  attempts_of_final := attempts_of_final
  attempts_of_transient := attempts_of_transient
  started := by
    rw [h.timeline]
    exact started_firstRetried _
  timeline := h.timeline
  retry {i} hi := by
    obtain ⟨⟨e, htransient⟩, hleft⟩ := exists_transient hi
    obtain ⟨delay, hdelay, hsize⟩ := h i hi
    refine ⟨e, delay, _, _, htransient, hdelay, scheduled_eq htransient hdelay, RetryPolicy.toNat_attempt hleft,
      UInt64.toNat_ofNat_of_lt' hsize, ?_⟩
    rw [startsAt_succ, delay_eq hdelay, Nat.add_sub_cancel_left, Span.ticks]
    omega
  completed hover := by
    rw [← h.timeline] at hover ⊢
    exact Timeline.upTo_of_over hover
  cut hcut := by
    rw [← h.timeline] at hcut ⊢
    rw [Timeline.upTo_of_le hcut, before_eq_filter]
  cut_at_once := by
    rw [Timeline.upTo_of_le (.inr (Nat.zero_le _)), before_eq_filter]
    simp

/-- It is the delays alone that may keep a call from its course. -/
theorem determined_iff : c.Determined ↔ c.Paced := by
  constructor
  · intro h i
    induction i using Nat.strongRecOn with
    | ind i ih =>
      intro hi
      cases hdelay : c.delay? i with
      | some delay =>
        obtain ⟨e, _, number, delayMs, -, hsome, -, -, hms, -⟩ := h.retry hi
        obtain rfl := Option.some.inj (hdelay.symm.trans hsome)
        exact ⟨delay, rfl, hms ▸ delayMs.toNat_lt⟩
      | none =>
        -- fewer attempts would be started
        have hdelays : ∀ j < i, ∃ delay, c.delay? j = some delay := fun j hj =>
          (ih j hj (hj.trans hi)).imp fun _ hdelay => hdelay.1
        have hstarted := h.started
        rw [timeline_of_overflow hi hdelays hdelay, started_firstRetried] at hstarted
        omega
  · exact Paced.determined

/-- A call whose policy is configured never breaks down by itself. -/
theorem timeline_of_config {config : RetryConfig} (h : c.policy = config.policy) :
    c.process.timeline = c.outline := by
  refine timeline_eq_outline fun i _ => ?_
  rw [delay?, h]
  exact config.exists_delay _ _

end Call

end Retry

end AgentLoop
