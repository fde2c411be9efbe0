import AgentLoop.Proofs.Conversation
import AgentLoop.Proofs.Instant
import AgentLoop.Service.Step

/-!
# What one step of a service does

An invocation either goes on with its run, is cut, joins the queue for a permit, or, once its result is fixed, gets on
with closing.  `Step` lists the cases and `Resumed` what going on may come to.  The rest of the module says what of the
service each of them touches: the closing only writes about itself into the journal, and handing on a permit changes
nothing but the stage of the one who gets it.
-/

namespace AgentLoop

open Process

/-- The result is not fixed, and nothing has broken down. -/
def Stage.isWaiting : Stage → Bool
  | .dormant | .queued | .granted .. | .running _ => true
  | _ => false

/-- The run has begun or stands in the queue, and nothing that is under way was due before a time. -/
def Stage.DueFrom (now : Nat) : Stage → Prop
  | .dormant => False
  | .granted due _ => now ≤ due
  | .running (some p) => now ≤ p.due
  | .closing _ _ (some p) => now ≤ p.due
  | _ => True

/-- What stays the same about an invocation, however far it gets. -/
structure Invocation.Kin (a b : Invocation) : Prop where
  command : b.command = a.command
  streams : b.streams = a.streams
  token : b.token = a.token
  start : b.start = a.start
  deadline : b.deadline = a.deadline

theorem Invocation.Kin.refl (a : Invocation) : a.Kin a := ⟨rfl, rfl, rfl, rfl, rfl⟩

theorem Invocation.Kin.trans {a b c : Invocation} (h : a.Kin b) (h' : b.Kin c) : a.Kin c :=
  ⟨h'.command.trans h.command, h'.streams.trans h.streams, h'.token.trans h.token, h'.start.trans h.start,
    h'.deadline.trans h.deadline⟩

namespace Service

theorem invocations_noteDrop (s : Service) (inv : Invocation) :
    (s.noteDrop inv).invocations = s.invocations := by
  unfold Service.noteDrop
  split
  · split <;> rfl
  · rfl

theorem world_noteDrop (s : Service) (inv : Invocation) : (s.noteDrop inv).world = s.world := by
  unfold Service.noteDrop
  split
  · split <;> rfl
  · rfl

end Service

namespace Engine

variable {e : Engine} {s t : Service} {place : Nat} {inv : Invocation}

/-! ### The cases -/

/-- What an invocation goes on with at this instant, if its run goes on. -/
def goesOn? (e : Engine) (s : Service) (inv : Invocation) : Option (RunProcess (Except RunError Outcome)) :=
  if s.isCancelled inv.token then none
  else
    match inv.stage with
    | .dormant => if inv.start ≤ s.now ∧ 0 < s.free then some (e.run inv.command inv.streams) else none
    | .granted due _ => if due ≤ s.now then some (e.run inv.command inv.streams) else none
    | .running (some p) => if p.due ≤ s.now then some p.rest else none
    | _ => none

/-- Whatever else may change, the invocations stay as they are, except that some get a permit they have waited for. -/
structure Beside (s t : Service) : Prop where
  lap : t.lap = s.lap
  cancellations : t.cancellations = s.cancellations
  others {place : Nat} {inv : Invocation} (h : s.invocations[place]? = some inv) :
    t.invocations[place]? = some inv ∨ inv.stage = .queued ∧
      ∃ lap, t.invocations[place]? = some { inv with stage := .granted s.now lap }
  length : t.invocations.length = s.invocations.length

/-- Permits change hands, and nothing else changes. -/
structure Aside (s t : Service) : Prop extends Beside s t where
  world : t.world = s.world

inductive Step (e : Engine) (s : Service) (place : Nat) (inv : Invocation) : Service → Prop where
  | runs {rest : RunProcess (Except RunError Outcome)} {s₁ : Service} (h : e.goesOn? s inv = some rest)
    (ha : Aside s s₁) (hi : s₁.invocations = s.invocations) : Step e s place inv (e.resume s₁ place inv rest)
  | cancelled {s₁ : Service} (h : e.goesOn? s inv = none) (hw : inv.stage.isWaiting) (ha : Aside s s₁)
    (hq : inv.stage = .queued → s₁.invocations = s.invocations) (hc : s.isCancelled inv.token) :
    Step e s place inv (e.conclude s₁ place inv (reportOf s inv (.error .cancelled)))
  | timedOut {s₁ : Service} (h : e.goesOn? s inv = none) (hw : inv.stage.isWaiting) (ha : Aside s s₁)
    (hq : inv.stage = .queued → s₁.invocations = s.invocations) (hc : s.isCancelled inv.token = false)
    (hd : inv.deadline ≤ s.now) : Step e s place inv (e.conclude s₁ place inv (e.timedOutReport s inv))
  | queues {s₁ : Service} (h : e.goesOn? s inv = none) (hd : inv.stage = .dormant) (ha : Aside s s₁)
    (hi : s₁.invocations = s.invocations) (hc : s.isCancelled inv.token = false) :
    Step e s place inv (s₁.put place inv .queued)
  | closes {report : Report} {limit : Nat} {p : Pending Unit} (h : inv.stage = .closing report limit (some p)) :
    Step e s place inv (e.close s place inv report limit p.rest)
  | completes {report : Report} {limit : Nat} {pending : Option (Pending Unit)}
    (h : inv.stage = .closing report limit pending) : Step e s place inv (e.complete s place inv report)
  | marks {report : Report} {ended due : Nat} (h : inv.stage = .marking report ended due) :
    Step e s place inv (s.putMark place inv report ended)

/-- One that is beside a step was there before it, except that it may have got a permit by it. -/
theorem getElem?_of_others {now j : Nat} (hl : t.invocations.length = s.invocations.length)
    (ho : ∀ {other}, s.invocations[j]? = some other → t.invocations[j]? = some other ∨ other.stage = .queued ∧
      ∃ lap, t.invocations[j]? = some { other with stage := .granted now lap })
    {other : Invocation} (ht : t.invocations[j]? = some other) :
    s.invocations[j]? = some other ∨ ∃ old lap, s.invocations[j]? = some old ∧ old.stage = .queued ∧
      other = { old with stage := .granted now lap } := by
  have hlt : j < s.invocations.length := hl ▸ (List.getElem?_eq_some_iff.1 ht).1
  have hold := List.getElem?_eq_getElem hlt
  rcases ho hold with hsame | ⟨hq, lap, hg⟩
  · exact .inl (hold.trans (hsame.symm.trans ht))
  · exact .inr ⟨_, lap, hold, hq, Option.some.inj (ht.symm.trans hg)⟩

theorem Aside.refl (s : Service) : Aside s s := ⟨⟨rfl, rfl, .inl, rfl⟩, rfl⟩

private theorem aside_permits {free : Nat} {queue : List Nat} :
    Aside s { s with free, queue } := ⟨⟨rfl, rfl, .inl, rfl⟩, rfl⟩

private theorem aside_grant (s : Service) (place : Nat) : Aside s (s.grant place) := by
  unfold Service.grant
  split
  · exact .refl s
  · rename_i first hf
    split
    · rename_i hq
      refine ⟨⟨rfl, rfl, fun {place' inv} h => ?_, by simp [Service.put]⟩, rfl⟩
      by_cases hp : place' = place
      · subst hp
        obtain rfl : first = inv := Option.some.inj (hf.symm.trans h)
        have hlt := (List.getElem?_eq_some_iff.1 h).1
        exact .inr ⟨hq, _, List.getElem?_set_self hlt⟩
      · exact .inl ((List.getElem?_set_ne (Ne.symm hp)).trans h)
    · exact .refl s

theorem aside_release (s : Service) : Aside s s.release := by
  unfold Service.release
  split
  · exact ⟨⟨rfl, rfl, .inl, rfl⟩, rfl⟩
  · rename_i first rest _
    have h := aside_grant { s with queue := rest } first
    exact ⟨⟨h.lap, h.cancellations, h.others, h.length⟩, h.world⟩

private theorem step_of_cut? {leave : Service → Service} (h : e.goesOn? s inv = none) (hw : inv.stage.isWaiting)
    (ha : Aside s (leave s)) (hq : inv.stage = .queued → (leave s).invocations = s.invocations)
    (hp : e.cut? s place inv leave = some t) : Step e s place inv t := by
  unfold cut? at hp
  split at hp
  · rename_i hc
    exact Option.some.inj hp ▸ .cancelled h hw ha hq hc
  · rename_i hc
    split at hp
    · exact Option.some.inj hp ▸ .timedOut h hw ha hq (by simpa using hc) ‹_›
    · cases hp

theorem goesOn?_of_stage {stage : Stage} (h : inv.stage = stage) :
    e.goesOn? s inv = if s.isCancelled inv.token then none else
      match stage with
      | .dormant => if inv.start ≤ s.now ∧ 0 < s.free then some (e.run inv.command inv.streams) else none
      | .granted due _ => if due ≤ s.now then some (e.run inv.command inv.streams) else none
      | .running (some p) => if p.due ≤ s.now then some p.rest else none
      | _ => none := by
  rw [goesOn?, h]

/-- One that waits to start begins with its run, is cut, or joins the queue. -/
private theorem step_of_dormant (hstage : inv.stage = .dormant) (hstart : inv.start ≤ s.now)
    (h : (if s.isCancelled inv.token then some (e.conclude s place inv (reportOf s inv (.error .cancelled)))
      else if 0 < s.free then some (e.enter { s with free := s.free - 1 } place inv)
      else if inv.deadline ≤ s.now then some (e.conclude s place inv (e.timedOutReport s inv))
      else some ({ s with queue := s.queue ++ [place] }.put place inv .queued)) = some t) :
    Step e s place inv t := by
  have hgoes := goesOn?_of_stage (e := e) (s := s) hstage
  have hw : inv.stage.isWaiting := by rw [hstage]; rfl
  split at h
  · rename_i hc
    rw [if_pos hc] at hgoes
    exact Option.some.inj h ▸ .cancelled hgoes hw (.refl s) (fun _ => rfl) hc
  · rename_i hc
    rw [if_neg hc] at hgoes
    have hc : s.isCancelled inv.token = false := by simpa using hc
    split at h
    · rename_i hf
      exact Option.some.inj h ▸ .runs (hgoes.trans (if_pos ⟨hstart, hf⟩)) aside_permits rfl
    · rename_i hf
      have hgoes := hgoes.trans (if_neg fun hh => hf hh.2)
      split at h
      · exact Option.some.inj h ▸ .timedOut hgoes hw (.refl s) (fun _ => rfl) hc ‹_›
      · exact Option.some.inj h ▸ .queues hgoes hstage aside_permits rfl hc

private theorem step_of_released (hgoes : e.goesOn? s inv = none) (hw : inv.stage.isWaiting) (hq : inv.stage ≠ .queued)
    (h : e.cut? s place inv (·.release) = some t) : Step e s place inv t :=
  step_of_cut? hgoes hw (aside_release s) (fun hstage => absurd hstage hq) h

/-- One that has a permit goes on when that is due, and is cut otherwise. -/
private theorem step_of_due_or_cut {due : Nat} {rest : RunProcess (Except RunError Outcome)}
    (hgoes : e.goesOn? s inv = if s.isCancelled inv.token then none else if due ≤ s.now then some rest else none)
    (hw : inv.stage.isWaiting) (hq : inv.stage ≠ .queued)
    (h : (if !s.isCancelled inv.token && due ≤ s.now then some (e.resume s place inv rest)
      else e.cut? s place inv (·.release)) = some t) : Step e s place inv t := by
  split at h
  · rename_i hd
    obtain ⟨hc, hd⟩ : s.isCancelled inv.token = false ∧ due ≤ s.now := by simpa using hd
    exact Option.some.inj h ▸ .runs (hgoes.trans (by simp [hc, hd])) (.refl s) rfl
  · rename_i hd
    exact step_of_released (hgoes.trans (by simp at hd ⊢; simpa using hd)) hw hq h

/-- Everything an invocation can do. -/
theorem step_of_poll? (h : e.poll? s place inv = some t) : Step e (s.noteDrop inv) place inv t := by
  unfold poll? at h
  generalize s.noteDrop inv = s at h ⊢
  dsimp only at h
  have hgoes {stage : Stage} (hstage : inv.stage = stage) := goesOn?_of_stage (e := e) (s := s) hstage
  cases hstage : inv.stage with
  | dormant =>
    rw [hstage] at h
    dsimp only at h
    split at h
    · cases h
    · exact step_of_dormant hstage (Nat.not_lt.1 ‹_›) h
  | queued =>
    rw [hstage] at h
    exact step_of_cut? ((hgoes hstage).trans (by split <;> rfl)) (by rw [hstage]; rfl) aside_permits (fun _ => rfl) h
  | granted due lap =>
    rw [hstage] at h
    exact step_of_due_or_cut (hgoes hstage) (by rw [hstage]; rfl) (by rw [hstage]; simp) h
  | running pending =>
    rw [hstage] at h
    cases pending with
    | none =>
      exact step_of_released ((hgoes hstage).trans (by split <;> rfl)) (by rw [hstage]; rfl) (by rw [hstage]; simp) h
    | some p => exact step_of_due_or_cut (hgoes hstage) (by rw [hstage]; rfl) (by rw [hstage]; simp) h
  | closing report limit pending =>
    rw [hstage] at h
    cases pending with
    | none =>
      dsimp only at h
      split at h
      · exact Option.some.inj h ▸ .completes hstage
      · cases h
    | some p =>
      dsimp only at h
      split at h
      · exact Option.some.inj h ▸ .closes hstage
      · split at h
        · exact Option.some.inj h ▸ .completes hstage
        · cases h
  | marking report ended due =>
    rw [hstage] at h
    dsimp only at h
    split at h
    · exact Option.some.inj h ▸ .marks hstage
    · cases h
  | finished | broken => rw [hstage] at h; cases h

/-! ### Going on -/

/-- What going on may come to, by how far the run plays. -/
inductive Resumed (e : Engine) (s : Service) (place : Nat) (inv : Invocation)
    (rest : RunProcess (Except RunError Outcome)) : Stop (Except RunError Outcome) → Scene → Service → Prop where
  | concludes {r : Except RunError Outcome} {scene : Scene} :
    Resumed e s place inv rest (.finished r) scene
      (e.conclude { s with world := scene.world }.release place { inv with feed := scene.feed }
        (reportOf { s with world := scene.world } inv r))
  | breaks {message : String} {scene : Scene} {now : Nat} :
    Resumed e s place inv rest (.broke message) scene
      ({ s with world := scene.world }.release.put place { inv with feed := scene.feed } (.broken message now none))
  | timedOut {stop : Stop (Except RunError Outcome)} {scene : Scene} (h : ∀ r, stop ≠ .finished r)
    (hd : inv.deadline ≤ scene.world.now) :
    Resumed e s place inv rest stop scene
      (e.conclude { s with world := scene.world }.release place { inv with feed := scene.feed }
        (e.timedOutReport { s with world := scene.world } inv))
  | pauses {due lap : Nat} {rest' : RunProcess (Except RunError Outcome)} {scene : Scene} :
    Resumed e s place inv rest (.paused due rest') scene
      ({ s with world := scene.world }.put place { inv with feed := scene.feed } (.running (some ⟨due, lap, rest'⟩)))
  | hangs {scene : Scene} :
    Resumed e s place inv rest .stuck scene
      ({ s with world := scene.world }.put place { inv with feed := scene.feed } (.running none))

theorem resumed_resume (e : Engine) (s : Service) (place : Nat) (inv : Invocation)
    (rest : RunProcess (Except RunError Outcome)) :
    Resumed e s place inv rest (rest.play e.partners (some s.now) ⟨s.world, inv.feed⟩).1
      (rest.play e.partners (some s.now) ⟨s.world, inv.feed⟩).2 (e.resume s place inv rest) := by
  unfold resume
  generalize rest.play e.partners (some s.now) ⟨s.world, inv.feed⟩ = result
  obtain ⟨stop, scene⟩ := result
  cases stop with
  | finished r => exact .concludes
  | broke message => exact .breaks
  | paused due rest' =>
    dsimp only
    split
    · exact .timedOut (fun _ h => nomatch h) ‹_›
    · exact .pauses
  | stuck =>
    dsimp only
    split
    · exact .timedOut (fun _ h => nomatch h) ‹_›
    · exact .hangs

/-! ### Closing -/

/-- Whatever is left to do only closes the run. -/
def ClosesOnly (p : RunProcess Unit) : Prop := ∃ t, Keeps closeContract (fun _ _ => True) t p

private theorem closesOnly_afterComplete (e : Engine) (command : Command) (result : ExecutionResult) :
    ClosesOnly (e.afterComplete command result) := ⟨[], e.keeps_afterComplete command result⟩

private theorem ClosesOnly.of_leads {p q : RunProcess Unit} {u : RunTrace} (h : ClosesOnly p) (hl : Leads p u q) :
    ClosesOnly q := by
  obtain ⟨t, h⟩ := h
  exact ⟨t ++ u, h.of_leads hl fun _ _ => trivial⟩

private theorem ClosesOnly.note {p q : RunProcess Unit} {u : RunTrace} (h : ClosesOnly p) (hl : Leads p u q) :
    ∀ x ∈ u, ∃ entry, x.1 = .note entry ∧ entry.isClosing := by
  intro x hx
  obtain ⟨t, h⟩ := h
  obtain ⟨v, w, rfl⟩ := List.append_of_mem hx
  exact h.allows_of_leads hl fun _ _ => trivial

/-- A stage in which the result is fixed and what is left to do only closes the run. -/
structure ClosingStage (report : Report) (now : Nat) (stage : Stage) : Prop where
  report? : stage.report? = some report
  isWaiting : stage.isWaiting = false
  due : stage.DueFrom now
  rest {report : Report} {limit : Nat} {p : Pending Unit} (h : stage = .closing report limit (some p)) :
    ClosesOnly p.rest

/-- Entries of one instant that only close a run. -/
def ClosingAt (now : Nat) (told : Journal) : Prop := ∀ x ∈ told, x.1 = now ∧ x.2.isClosing

/-- The run is told about and brought to an end, with this result. -/
structure Tells (place : Nat) (inv : Invocation) (report : Report) (s t : Service) : Prop where
  journal : ∃ told : Journal, t.world.journal = s.world.journal ++ told ∧ ClosingAt s.now told
  store : t.world.store = s.world.store
  now : t.now = s.now
  lap : t.lap = s.lap
  cancellations : t.cancellations = s.cancellations
  invocations : ∃ inv', t.invocations = s.invocations.set place inv' ∧ inv.Kin inv' ∧
    ClosingStage report s.now inv'.stage

private theorem tells_put {stage : Stage} {report : Report} {feed : Feed} (h : ClosingStage report s.now stage) :
    Tells place inv report s (s.put place { inv with feed } stage) :=
  ⟨⟨[], by simp [Service.put], by simp [ClosingAt]⟩, rfl, rfl, rfl, rfl, _, rfl, ⟨rfl, rfl, rfl, rfl, rfl⟩, h⟩

private theorem closingStage_finished (report : Report) (now ended : Nat) :
    ClosingStage report now (.finished report ended) :=
  ⟨rfl, rfl, trivial, fun h => nomatch h⟩

private theorem closingStage_broken (report : Report) (message : String) (now : Nat) :
    ClosingStage report now (.broken message now (some report)) :=
  ⟨rfl, rfl, trivial, fun h => nomatch h⟩

private theorem closingStage_hung (report : Report) (now limit : Nat) :
    ClosingStage report now (.closing report limit none) :=
  ⟨rfl, rfl, trivial, fun h => nomatch h⟩

theorem tells_putMark {report : Report} {ended : Nat} :
    Tells place inv report s (s.putMark place inv report ended) := by
  unfold Service.putMark
  split <;> exact tells_put (closingStage_finished report _ ended)

private theorem tells_finish {report : Report} : Tells place inv report s (s.finish place inv report) := by
  unfold Service.finish
  split
  · exact tells_put ⟨rfl, rfl, trivial, fun h => nomatch h⟩
  · exact tells_putMark
  · exact tells_put (closingStage_finished report _ _)

/-- What was told before is part of the telling. -/
private theorem Tells.after {report : Report} {world : World} (told : Journal)
    (h : Tells place inv report { s with world } t)
    (hj : world.journal = s.world.journal ++ told) (ht : ClosingAt s.now told)
    (hs : world.store = s.world.store) (hn : world.now = s.world.now) : Tells place inv report s t := by
  have hnow : Service.now { s with world } = s.now := hn
  obtain ⟨more, hm, hc⟩ := h.journal
  obtain ⟨inv', hi, hk, hstage⟩ := h.invocations
  rw [hnow] at hc hstage
  refine ⟨⟨told ++ more, ?_, ?_⟩, h.store.trans hs, h.now.trans hn, h.lap, h.cancellations, ⟨inv', hi, hk, hstage⟩⟩
  · rw [hm, ← List.append_assoc, ← hj]
  · intro x hx
    exact (List.mem_append.1 hx).elim (ht x) (hc x)

theorem tells_complete {report : Report} : Tells place inv report s (e.complete s place inv report) := by
  unfold complete
  split
  · refine Tells.after [(s.now, .event (completed report.result report.toolCalls))] tells_finish rfl ?_ rfl rfl
    intro x hx
    exact List.mem_singleton.1 hx ▸ ⟨rfl, rfl⟩
  · exact tells_finish

theorem tells_close {report : Report} {limit : Nat} {rest : RunProcess Unit} (h : ClosesOnly rest) :
    Tells place inv report s (e.close s place inv report limit rest) := by
  have hl := leads_play e.partners (some s.now) rest ⟨s.world, inv.feed⟩
  have hnote := h.note hl
  have hjournal : (rest.play e.partners (some s.now) ⟨s.world, inv.feed⟩).2.world.journal = s.world.journal ++
      ((rest.exchanges e.partners (some s.now) ⟨s.world, inv.feed⟩).filterMap Exchange.entry?).map (s.now, ·) :=
    journal_play_now rest rfl
  have hnow : (rest.play e.partners (some s.now) ⟨s.world, inv.feed⟩).2.world.now = s.now := now_play rest rfl
  have hstore : (rest.play e.partners (some s.now) ⟨s.world, inv.feed⟩).2.world.store = s.world.store := by
    refine store_play fun x hx => ?_
    obtain ⟨entry, he, -⟩ := hnote x hx
    rw [he]
    rfl
  have htold : ClosingAt s.now (((rest.exchanges e.partners (some s.now) ⟨s.world, inv.feed⟩).filterMap
      Exchange.entry?).map (s.now, ·)) := by
    intro x hx
    obtain ⟨entry, he, rfl⟩ := List.mem_map.1 hx
    obtain ⟨y, hy, hye⟩ := List.mem_filterMap.1 he
    obtain ⟨entry', hn, hc⟩ := hnote y hy
    rw [Exchange.entry?, hn] at hye
    exact ⟨rfl, Option.some.inj hye ▸ hc⟩
  have hdue {due : Nat} {rest' : RunProcess Unit} (hp : (rest.play e.partners (some s.now) ⟨s.world, inv.feed⟩).1 =
      .paused due rest') : s.now ≤ due := due_play rfl hp
  unfold close
  generalize rest.play e.partners (some s.now) ⟨s.world, inv.feed⟩ = result at hl hjournal hnow hstore hdue
  obtain ⟨stop, scene⟩ := result
  have after {t : Service} (ht : Tells place inv report { s with world := scene.world } t) : Tells place inv report s t :=
    .after _ ht hjournal htold hstore hnow
  cases stop with
  | finished => exact after tells_complete
  | broke message => exact after (tells_put (closingStage_broken report message _))
  | paused due rest' =>
    dsimp only
    split
    · exact after tells_complete
    · refine after (tells_put ⟨rfl, rfl, ?_, fun hstage => ?_⟩)
      · exact Nat.le_trans (Nat.le_of_eq hnow) (hdue rfl)
      · cases hstage
        exact h.of_leads hl
  | stuck =>
    dsimp only
    split
    · exact after tells_complete
    · exact after (tells_put (closingStage_hung report _ limit))

theorem tells_conclude {report : Report} : Tells place inv report s (e.conclude s place inv report) :=
  tells_close (closesOnly_afterComplete ..)

end Engine

end AgentLoop
