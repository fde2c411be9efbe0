import AgentLoop.Proofs.Cut

/-!
# Cutting a run cleanly

Two services are compared that have not done anything yet and differ in one thing: in one of them a token is cancelled
at an instant, or the deadlines are others.  If a run still waits when the instant comes, the cut leaves of it exactly
what it had left before, and if its result is fixed by then, the cut leaves it alone.
-/

namespace AgentLoop

/-- Nothing has been done yet. -/
def Service.Fresh (s : Service) : Prop := ∀ inv ∈ s.invocations, inv.stage = .dormant

namespace Engine

variable {e e' : Engine} {s s' t : Service} {place time : Nat} {inv : Invocation} {wanted : Service → Slot → Bool}
  {report : Report} {h : Horizon}

theorem sound_of_fresh (hf : s.Fresh) : s.Sound e := fun hi =>
  ⟨[], sound_of_isFresh (by rw [hf _ (List.mem_of_getElem? hi)]; rfl)⟩

theorem exists_advance (wanted : Service → Slot → Bool) (hs : s.Sound e) (hi : s.invocations[place]? = some inv) :
    ∃ inv', (e.advance wanted s).invocations[place]? = some inv' ∧ inv.Kin inv' := by
  induction s using running_on e wanted generalizing inv with
  | stop s hstop => exact ⟨inv, (advance_of_stop hstop).symm ▸ hi, .refl inv⟩
  | step s slot t hn hw hstep ih =>
    obtain ⟨other, other', entries, hm, ht⟩ := moves_of_stepAt? hs hstep
    rw [advance_of_step hn hw hstep]
    by_cases hp : place = slot.place
    · subst hp
      obtain rfl : other = inv := Option.some.inj (hm.before.symm.trans hi)
      obtain ⟨inv', hi', hk⟩ := ih ht hm.after
      exact ⟨inv', hi', hm.kin.trans hk⟩
    · rcases hm.others hp hi with hsame | ⟨-, lap, hg⟩
      · exact ih ht hsame
      · obtain ⟨inv', hi', hk⟩ := ih ht hg
        exact ⟨inv', hi', hk.command, hk.streams, hk.token, hk.start, hk.deadline⟩

private theorem cancellations_advance {entry : Nat × Nat} (hs : s.Sound e) (hc : entry ∈ s.cancellations) :
    entry ∈ (e.advance wanted s).cancellations := by
  induction s using running_on e wanted with
  | stop s hstop => rwa [advance_of_stop hstop]
  | step s slot t hn hw hstep ih =>
    obtain ⟨inv, inv', entries, hm, ht⟩ := moves_of_stepAt? hs hstep
    rw [advance_of_step hn hw hstep]
    exact ih ht (hm.cancellations hc)

/-- Who was to start before an instant is on its way by then. -/
private theorem not_dormant_of_start_lt (hf : s.From time) (hi : s.invocations[place]? = some inv)
    (ht : inv.start < time) :
    inv.stage ≠ .dormant := by
  intro hd
  have hslot : s.slot? place inv = some ⟨inv.start, if inv.streams then 1 else 0, place⟩ := by
    rw [Service.slot?_eq, hd]
  exact absurd (hf hi hslot) (Nat.not_le.2 ht)

/-! ### Before and after -/

/-- The result of an invocation is open when an instant comes. -/
def WaitsAt (e : Engine) (s : Service) (place time : Nat) : Prop :=
  ∃ inv, (e.advance (before time) s).invocations[place]? = some inv ∧ inv.stage.isWaiting

/-- It is fixed, or the run has broken down. -/
def IsOverAt (e : Engine) (s : Service) (place time : Nat) : Prop :=
  ∃ inv, (e.advance (before time) s).invocations[place]? = some inv ∧ inv.stage.isWaiting = false

/-- In the second service the run does what it does in the first one before an instant, and comes to this. -/
structure Cleanly (e e' : Engine) (s s' : Service) (place time : Nat) (report : Report) : Prop where
  log : e'.logOf s' place = (e.trail always place s).takeWhile (·.1 < time)
  report : e'.reportAt s' place = some report

/-- In both services the run does the same and comes to the same. -/
structure Unnoticed (e e' : Engine) (s s' : Service) (place : Nat) : Prop where
  log : e'.logOf s' place = e.logOf s place
  report : e'.reportAt s' place = e.reportAt s place

private theorem trail_always (e : Engine) (s : Service) (place time : Nat) :
    e.trail always place s = e.trail (before time) place s ++ e.trail always place (e.advance (before time) s) :=
  trail_append (fun _ _ _ => rfl) place s

theorem reportAt_advance (time : Nat) : e.reportAt (e.advance (before time) s) place = e.reportAt s place := by
  have hadvance : e.advance always s = e.advance always (e.advance (before time) s) :=
    advance_advance (fun _ _ _ => rfl) s
  rw [reportAt, reportAt, ← hadvance]

private theorem cleanly_of_severed (hs : s.Sound e) (hw : e.WaitsAt s place time)
    (htrail : e.trail (before time) place s = e'.trail (before time) place s')
    (hsevered : e'.Severed (e'.advance (before time) s') place report) : Cleanly e e' s s' place time report := by
  obtain ⟨inv, hi, hwaiting⟩ := hw
  have hopen := waiting_on hs hi hwaiting
  have hbefore := time_trail_before place time hs
  have hafter := time_trail_of_from always place (sound_advance (before time) hs)
    (from_advance_before time s)
  constructor
  · -- what the uncut run leaves later is too late, and what the cut one leaves later only closes
    have hnone : ((e.trail always place (e.advance (before time) s)).takeWhile (·.1 < time)) = [] := by
      cases hlater : e.trail always place (e.advance (before time) s) with
      | nil => rfl
      | cons x rest =>
        have hx := hafter x (by simp [hlater])
        simp [Nat.not_lt.2 hx]
    rw [logOf, e'.trail_always s' place time, ← htrail, List.takeWhile_append_of_pos (by simpa using hopen),
      e.trail_always s place time,
      List.takeWhile_append_of_pos (by simpa using hbefore), hnone]
    exact congrArg _ hsevered.log
  · rw [← reportAt_advance time]
    exact hsevered.report

private theorem unnoticed_of_upTo_eq (hs : s.Sound e) (hs' : s'.Sound e') (ho : e.IsOverAt s place time)
    (htrail : e.trail (before time) place s = e'.trail (before time) place s')
    (heq : (e.advance (before time) s).upTo h = (e'.advance (before time) s').upTo h) :
    Unnoticed e e' s s' place := by
  obtain ⟨inv, hi, hover⟩ := ho
  obtain ⟨inv', hi', hinv⟩ := getElem?_of_upTo_eq heq hi
  have hover' : inv'.stage.isWaiting = false := (isWaiting_of_upTo_eq hinv).trans hover
  have hlater : (e.advance (before time) s).Sound e := sound_advance _ hs
  have hlater' : (e'.advance (before time) s').Sound e' := sound_advance _ hs'
  constructor
  · rw [logOf, logOf, e.trail_always s place time, e'.trail_always s' place time, log_of_closing hlater hi hover,
      log_of_closing hlater' hi' hover', htrail]
  · rw [← reportAt_advance time, report_of_closing hlater' hi' hover', ← reportAt_advance time,
      report_of_closing hlater hi hover, report?_of_upTo_eq hinv]

/-! ### Cancellations -/

private theorem upTo_cancelling {token : Nat} (ht : h.cancellations ≤ time) :
    (s.cancelling token time).upTo h = s.upTo h := by
  simp [Service.cancelling, Service.upTo, List.filter_append, Nat.not_lt.2 ht]

/-- What does not happen before an instant does not show before it. -/
def upToInstant (time : Nat) : Horizon := ⟨fun _ => time, time⟩

private theorem reaches_upToInstant (time : Nat) :
    (upToInstant time).Reaches time := ⟨fun _ => Nat.le_refl time, Nat.le_refl time⟩

private theorem lockstep_cancelling (hs : s.Sound e) (token time : Nat) :
    (e.advance (before time) s).upTo (upToInstant time) =
        (e.advance (before time) (s.cancelling token time)).upTo (upToInstant time) ∧
      ∀ place, e.trail (before time) place s = e.trail (before time) place (s.cancelling token time) := by
  have heq : s.upTo (upToInstant time) = (s.cancelling token time).upTo (upToInstant time) :=
    (upTo_cancelling (Nat.le_refl time)).symm
  exact lockstep e.timeout (reaches_upToInstant time) hs heq (.inl rfl)

private theorem fresh_cancelling (hf : s.Fresh) (token time : Nat) : (s.cancelling token time).Fresh := hf

private theorem cleanly_cancelling (hf : s.Fresh) (hi : s.invocations[place]? = some inv) (ht : inv.start < time)
    (hw : e.WaitsAt s place time) :
    Cleanly e e s (s.cancelling inv.token time) place time (cancelledReport inv time) := by
  have hs : (s.cancelling inv.token time).Sound e := sound_of_fresh hf
  obtain ⟨hupTo, htrail⟩ := lockstep_cancelling (e := e) (sound_of_fresh hf) inv.token time
  refine cleanly_of_severed (sound_of_fresh hf) hw (htrail place) ?_
  obtain ⟨waiting, hwi, hwaiting⟩ := hw
  obtain ⟨inv', hi', hinv⟩ := getElem?_of_upTo_eq hupTo hwi
  obtain ⟨same, hsame, hk⟩ := exists_advance (before time) hs hi
  obtain rfl : inv' = same := Option.some.inj (hi'.symm.trans hsame)
  have hfrom : (e.advance (before time) (s.cancelling inv.token time)).From time := from_advance_before time _
  have hnot : inv'.stage ≠ .dormant := not_dormant_of_start_lt hfrom hi' (hk.start ▸ ht)
  have hne : e.advance (before time) (s.cancelling inv.token time) ≠ s.cancelling inv.token time := by
    intro hsame
    rw [hsame] at hi'
    exact hnot (fresh_cancelling hf _ _ _ (List.mem_of_getElem? hi'))
  have hc : (inv'.token, time) ∈ (e.advance (before time) (s.cancelling inv.token time)).cancellations := by
    refine cancellations_advance hs ?_
    rw [hk.token]
    exact List.mem_append_right _ (List.mem_singleton.2 rfl)
  have hsevered := severed_of_doomed (e := e) (sound_advance _ hs) hi' ((isWaiting_of_upTo_eq hinv).trans hwaiting) hc
    (Nat.le_refl time) (.waiting hnot hfrom (Nat.le_of_lt (now_advance_before_of_ne hs hne)))
  rwa [cancelledReport, hk.start] at hsevered

private theorem unnoticed_cancelling (hf : s.Fresh) (token : Nat) (ho : e.IsOverAt s place time) :
    Unnoticed e e s (s.cancelling token time) place := by
  obtain ⟨hupTo, htrail⟩ := lockstep_cancelling (e := e) (sound_of_fresh hf) token time
  exact unnoticed_of_upTo_eq (sound_of_fresh hf) (sound_of_fresh hf) ho (htrail place) hupTo

/-- A run that is cancelled before it starts only closes. -/
private theorem severed_cancelling (hf : s.Fresh) (hi : s.invocations[place]? = some inv) (ht : time ≤ inv.start) :
    Severed e (s.cancelling inv.token time) place (cancelledReport inv inv.start) := by
  have hd := hf inv (List.mem_of_getElem? hi)
  have hs : (s.cancelling inv.token time).Sound e := sound_of_fresh hf
  have hc : (inv.token, time) ∈ (s.cancelling inv.token time).cancellations :=
    List.mem_append_right _ (List.mem_singleton.2 rfl)
  exact severed_of_doomed hs hi (by rw [hd]; rfl) hc ht (.dormant hd rfl)

/-! ### Deadlines -/

/-- Before an instant nobody sees a deadline, and at it only the one. -/
def upToDeadline (place time : Nat) : Horizon := ⟨fun j => if j = place then time else time + 1, time + 1⟩

private theorem reaches_upToDeadline (place time : Nat) : (upToDeadline place time).Reaches time := by
  refine ⟨fun j => ?_, Nat.le_succ time⟩
  show time ≤ if j = place then time else time + 1
  split <;> omega

/-- The deadlines of all other runs are later. -/
structure Postponed (s : Service) (place time : Nat) (deadlines : Nat → Nat) : Prop where
  own : deadlines place = time
  others {j : Nat} (hj : j ≠ place) : time < deadlines j
  uncut {j : Nat} {inv : Invocation} (hi : s.invocations[j]? = some inv) : time < inv.deadline

private theorem upTo_withDeadlines {deadlines : Nat → Nat} (hp : Postponed s place time deadlines) :
    s.upTo (upToDeadline place time) = (s.withDeadlines deadlines).upTo (upToDeadline place time) := by
  have hinvocations : (s.upTo (upToDeadline place time)).invocations =
      ((s.withDeadlines deadlines).upTo (upToDeadline place time)).invocations := by
    refine List.ext_getElem? fun j => ?_
    rw [Service.getElem?_upTo, Service.getElem?_upTo, Service.withDeadlines, List.getElem?_mapIdx]
    cases hi : s.invocations[j]? with
    | none => rfl
    | some inv =>
      -- both deadlines are beyond what is seen of them
      have huncut := hp.uncut hi
      have hmin : min inv.deadline (if j = place then time else time + 1) =
          min (deadlines j) (if j = place then time else time + 1) := by
        split
        · rename_i hj
          have hown := hp.own
          subst hj
          omega
        · rename_i hj
          have hother := hp.others hj
          omega
      simp only [Option.map_some, Invocation.upTo, upToDeadline, hmin]
  exact congrArg (fun invocations => { s.upTo (upToDeadline place time) with invocations }) hinvocations

/-- Nothing happens at an instant, or before it any more. -/
def IsQuietAt (s : Service) (time : Nat) : Prop := ∀ slot, s.next? = some slot → time < slot.time

private theorem IsQuietAt.from (hq : IsQuietAt s time) : s.From (time + 1) := by
  intro j inv slot hi hslot
  obtain ⟨first, hfirst⟩ := Service.exists_next? hi hslot
  obtain ⟨other, hn⟩ := Service.next_of_next? hfirst
  exact Nat.le_trans (hq first hfirst) (hn.time_le hi hslot)

/-- Who is quiet does not come to life by another's deadline. -/
private theorem lt_time_of_upTo_eq (hf : s.From (time + 1))
    (heq : s.upTo (upToDeadline place time) = s'.upTo (upToDeadline place time)) {j : Nat} (hj : j ≠ place)
    {inv' : Invocation} {slot : Slot} (hi' : s'.invocations[j]? = some inv') (hslot : s'.slot? j inv' = some slot) :
    time < slot.time := by
  obtain ⟨inv, hi, hinv⟩ := getElem?_of_upTo_eq heq.symm hi'
  have hreach : time + 1 ≤ (upToDeadline place time).deadlines j := Nat.le_of_eq (if_neg hj).symm
  -- the slots in both services are like the one that is seen up to the horizon
  have hs := Service.alike_slot? hreach (Nat.le_refl (time + 1)) s inv
  have hs' := Service.alike_slot? hreach (Nat.le_refl (time + 1)) s' inv'
  rw [← heq, hinv, hslot] at hs'
  generalize hmine : s.slot? j inv = mine at hs
  generalize (s.upTo (upToDeadline place time)).slot? j (inv.upTo ((upToDeadline place time).deadlines j)) = seen at hs hs'
  cases hs' with
  | some hab =>
    cases hs with
    | @some a _ hac =>
      rcases hac.trans hab.symm with rfl | ⟨-, hle⟩
      · exact hf hi hmine
      · exact hle

/-- A run that is quiet at an instant has then only its deadline before it, if that is the instant. -/
private theorem idle_of_upTo_eq (hf : s.From (time + 1)) (hn : s.now ≤ time)
    (heq : s.upTo (upToDeadline place time) = s'.upTo (upToDeadline place time))
    (hi : s.invocations[place]? = some inv) (hw : inv.stage.isWaiting) (hnot : inv.stage ≠ .dormant)
    {inv' : Invocation}
    (hinv : inv.upTo ((upToDeadline place time).deadlines place) = inv'.upTo ((upToDeadline place time).deadlines place))
    (hd : inv'.deadline = time) : Idle s' inv' := by
  have hstage := stage_of_upTo_eq hinv hw
  have htoken : inv.token = inv'.token := by
    have h := congrArg Invocation.token hinv
    exact h
  refine ⟨hstage ▸ hw, hstage ▸ hnot, ?_, fun late hl => ?_⟩
  · rw [hd, hstage]
    exact dueFrom_of_le hnot (hf hi)
  · rw [hd]
    refine Nat.lt_of_not_le fun hle => ?_
    have hseen : late < (upToDeadline place time).cancellations := Nat.lt_succ_of_le hle
    have hmem : late ∈ s.cancelTimes inv.token := by
      rw [htoken, ← Service.mem_cancelTimes_upTo hseen, heq, Service.mem_cancelTimes_upTo hseen]
      exact hl
    obtain ⟨slot, hslot⟩ := exists_slot? s place hw
    have hbefore := time_slot?_le hw hnot (Service.cutAt_le_iff.2 (.inl ⟨late, hmem, hle⟩)) hn hslot
    have hafter := hf hi hslot
    omega

/-- An idle run is next when its deadline comes, and nobody else has anything to do by then. -/
private theorem next_of_idle (hf : s.From time) (hn : s.now ≤ time) (hi : s.invocations[place]? = some inv)
    (hidle : Idle s inv) (hd : inv.deadline = time)
    (ho : ∀ {j inv' slot}, j ≠ place → s.invocations[j]? = some inv' → s.slot? j inv' = some slot → time < slot.time) :
    ∃ slot, s.next? = some slot ∧ slot.place = place ∧ slot.time = time := by
  obtain ⟨own, hown⟩ := exists_slot? s place hidle.isWaiting
  obtain ⟨first, hfirst⟩ := Service.exists_next? hi hown
  obtain ⟨other, hnext⟩ := Service.next_of_next? hfirst
  have hcut : s.cutAt inv ≤ time := Service.cutAt_le_iff.2 (.inr (Nat.le_of_eq hd))
  have hown' := time_slot?_le hidle.isWaiting hidle.ne_dormant hcut hn hown
  have hle := hnext.time_le hi hown
  have hge := hf hnext.getElem? hnext.slot?
  refine ⟨first, hfirst, ?_, by omega⟩
  by_cases hp : first.place = place
  · exact hp
  · have hlate := ho hp hnext.getElem? hnext.slot?
    omega

private theorem getElem?_withDeadlines (deadlines : Nat → Nat) (hi : s.invocations[place]? = some inv) :
    (s.withDeadlines deadlines).invocations[place]? = some { inv with deadline := deadlines place } := by
  simp [Service.withDeadlines, hi]

private theorem fresh_withDeadlines (hf : s.Fresh) (deadlines : Nat → Nat) : (s.withDeadlines deadlines).Fresh := by
  intro inv hi
  obtain ⟨j, hlt, rfl⟩ := List.mem_mapIdx.1 hi
  exact hf s.invocations[j] (List.getElem_mem hlt)

private theorem lockstep_withDeadlines {deadlines : Nat → Nat} (hf : s.Fresh) (hp : Postponed s place time deadlines)
    (timeout : Option Span) :
    (e.advance (before time) s).upTo (upToDeadline place time) =
        ((e.withTimeout timeout).advance (before time) (s.withDeadlines deadlines)).upTo (upToDeadline place time) ∧
      ∀ j, e.trail (before time) j s = (e.withTimeout timeout).trail (before time) j (s.withDeadlines deadlines) :=
  lockstep timeout (reaches_upToDeadline place time) (sound_of_fresh hf) (upTo_withDeadlines hp)
    (.inr fun hi => Nat.le_of_lt (hp.uncut hi))

private theorem cleanly_withDeadlines {deadlines : Nat → Nat} (hf : s.Fresh) (hi : s.invocations[place]? = some inv)
    (ht : inv.start < time) (hp : Postponed s place time deadlines) (timeout : Option Span)
    (hq : IsQuietAt (e.advance (before time) s) time) (hw : e.WaitsAt s place time) :
    Cleanly e (e.withTimeout timeout) s (s.withDeadlines deadlines) place time
      ((e.withTimeout timeout).lateReport inv time) := by
  have hs : (s.withDeadlines deadlines).Sound (e.withTimeout timeout) := sound_of_fresh (fresh_withDeadlines hf _)
  obtain ⟨hupTo, htrail⟩ := lockstep_withDeadlines (e := e) hf hp timeout
  refine cleanly_of_severed (sound_of_fresh hf) hw (htrail place) ?_
  obtain ⟨waiting, hwi, hwaiting⟩ := hw
  obtain ⟨inv', hi', hinv⟩ := getElem?_of_upTo_eq hupTo hwi
  obtain ⟨same, hsame, hk⟩ := exists_advance (before time) hs (getElem?_withDeadlines deadlines hi)
  obtain rfl : inv' = same := Option.some.inj (hi'.symm.trans hsame)
  have hfrom : ((e.withTimeout timeout).advance (before time) (s.withDeadlines deadlines)).From time :=
    from_advance_before time _
  have hd : inv'.deadline = time := hk.deadline.trans hp.own
  have hnot' : inv'.stage ≠ .dormant := not_dormant_of_start_lt hfrom hi' (hk.start ▸ ht)
  have hnot : waiting.stage ≠ .dormant := stage_of_upTo_eq hinv hwaiting ▸ hnot'
  have hne : (e.withTimeout timeout).advance (before time) (s.withDeadlines deadlines) ≠ s.withDeadlines deadlines := by
    intro hsame
    rw [hsame] at hi'
    exact hnot' (fresh_withDeadlines hf _ _ (List.mem_of_getElem? hi'))
  have hnow' := now_advance_before_of_ne hs hne
  have hnow : (e.advance (before time) s).now ≤ time := by
    have hworld : ((e.advance (before time) s).upTo (upToDeadline place time)).now =
        (((e.withTimeout timeout).advance (before time) (s.withDeadlines deadlines)).upTo
          (upToDeadline place time)).now := by rw [hupTo]
    exact Nat.le_trans (Nat.le_of_eq hworld) (Nat.le_of_lt hnow')
  have hidle := idle_of_upTo_eq hq.from hnow hupTo hwi hwaiting hnot hinv hd
  obtain ⟨slot, hnext, hplace, hslot⟩ := next_of_idle hfrom (Nat.le_of_lt hnow') hi' hidle hd
    fun hj ho h => lt_time_of_upTo_eq hq.from hupTo hj ho h
  have hsevered := severed_of_idle (e := e.withTimeout timeout) (sound_advance _ hs) hnext hplace hi' hidle
    (hslot.trans hd.symm)
  rwa [hd, lateReport, hk.start] at hsevered

private theorem unnoticed_withDeadlines {deadlines : Nat → Nat} (hf : s.Fresh) (hp : Postponed s place time deadlines)
    (timeout : Option Span) (ho : e.IsOverAt s place time) :
    Unnoticed e (e.withTimeout timeout) s (s.withDeadlines deadlines) place := by
  obtain ⟨hupTo, htrail⟩ := lockstep_withDeadlines (e := e) hf hp timeout
  exact unnoticed_of_upTo_eq (sound_of_fresh hf) (sound_of_fresh (fresh_withDeadlines hf _)) ho (htrail place) hupTo

/-! ### Clean cuts -/

/-- What becomes of a run that is cut at a time, depending on how far it has come by then. -/
structure CutsCleanly (e : Engine) (s : Service) (place : Nat) (inv : Invocation) : Prop where
  /-- Cancelled while it waits, it has done what it had done before. -/
  cancelled {time : Nat} (ht : inv.start < time) (hw : e.WaitsAt s place time) :
    Cleanly e e s (s.cancelling inv.token time) place time (cancelledReport inv time)
  /-- Cancelled when it is over, it does not notice. -/
  cancelledLate {time : Nat} (ho : e.IsOverAt s place time) : Unnoticed e e s (s.cancelling inv.token time) place
  /-- Cancelled before it starts, it does nothing. -/
  cancelledEarly {time : Nat} (ht : time ≤ inv.start) :
    Severed e (s.cancelling inv.token time) place (cancelledReport inv inv.start)
  /-- With a timeout that ends while it waits, it has done what it had done before. -/
  timedOut {timeout : Option Span} {deadlines : Nat → Nat} {time : Nat}
    (hn : time = inv.start + (e.withTimeout timeout).deadline.ticks) (ht : inv.start < time)
    (hp : Postponed s place time deadlines) (hq : IsQuietAt (e.advance (before time) s) time)
    (hw : e.WaitsAt s place time) :
    Cleanly e (e.withTimeout timeout) s (s.withDeadlines deadlines) place time
      ((e.withTimeout timeout).lateReport inv time)
  /-- With a timeout that ends when it is over, it does not notice. -/
  timedOutLate {timeout : Option Span} {deadlines : Nat → Nat} {time : Nat}
    (hn : time = inv.start + (e.withTimeout timeout).deadline.ticks) (hp : Postponed s place time deadlines)
    (ho : e.IsOverAt s place time) : Unnoticed e (e.withTimeout timeout) s (s.withDeadlines deadlines) place

/-- Whatever a run waits for, and whatever other runs there are, a cut leaves of it what it had done before and says
why, or else it comes too late to be noticed. -/
theorem cut_cleanly (e : Engine) (hf : s.Fresh) (hi : s.invocations[place]? = some inv) : CutsCleanly e s place inv where
  cancelled ht hw := cleanly_cancelling hf hi ht hw
  cancelledLate ho := unnoticed_cancelling hf _ ho
  cancelledEarly ht := severed_cancelling hf hi ht
  timedOut _ ht hp hq hw := cleanly_withDeadlines hf hi ht hp _ hq hw
  timedOutLate _ hp ho := unnoticed_withDeadlines hf hp _ ho

/-- An engine whose store takes its time to load. -/
def sluggish : Engine where
  provider := { reply := fun _ _ => .now (.ok (.whole ⟨.ofAssistant "hello", none, "m"⟩)) }
  config := { defaultTemperature := .finite false 0 0 }
  store := some { ConversationStore.atOnce with
    load := fun _ kept command => ⟨100, .returns (kept.load command.session)⟩ }

def question : Invocation where
  command := { prompt := "hi" }
  token := 0
  start := 0
  deadline := 1000

def asking : Service where
  free := 1
  invocations := [question]

private theorem waitsAt_asking : sluggish.WaitsAt asking 0 50 := by
  have hn : asking.next? = some ⟨0, 0, 0⟩ := by decide +kernel
  obtain ⟨t, hstep⟩ := Option.isSome_iff_exists.1 (isSome_stepAt? (e := sluggish) hn)
  have hlater : ((sluggish.stepAt? asking ⟨0, 0, 0⟩).bind (·.next?)).map (·.time) = some 100 := by decide +kernel
  have hwaits : ((sluggish.stepAt? asking ⟨0, 0, 0⟩).bind (·.invocations[0]?)).map (·.stage.isWaiting) = some true := by
    decide +kernel
  rw [hstep, Option.bind_some] at hlater hwaits
  have hstop : sluggish.advance (before 50) t = t := by
    refine advance_of_stop fun slot h => ?_
    rw [h] at hlater
    have htime : slot.time = 100 := Option.some.inj hlater
    simp [before, htime]
  obtain ⟨inv, hi, hw⟩ := Option.map_eq_some_iff.1 hwaits
  refine ⟨inv, ?_, hw⟩
  rw [advance_of_step hn (by decide) hstep, hstop]
  exact hi

theorem cut_cleanly_asking : asking.Fresh ∧ asking.invocations[0]? = some question ∧
    Cleanly sluggish sluggish asking (asking.cancelling 0 50) 0 50
      ⟨.failure .unknown "execution cancelled" (.ofMilliseconds 50), 0⟩ := by
  have hf : asking.Fresh := by
    intro inv hi
    rw [List.mem_singleton.1 hi]
    rfl
  have hi : asking.invocations[0]? = some question := rfl
  exact ⟨hf, hi, (cut_cleanly sluggish hf hi).cancelled (by decide) waitsAt_asking⟩

end Engine

end AgentLoop
