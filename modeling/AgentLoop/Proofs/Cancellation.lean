import AgentLoop.Proofs.Account

/-!
# Who cancels a token

Invocations may be given one token.  It is cancelled by whoever holds it, and also by a consumer who leaves the stream
of an invocation that was given it, and that ends all the others with this token as well.  Nothing else cancels it: in
whatever other way an invocation comes to its end, all tokens stay as they are, and in no way does it cancel a token
that is not its own.
-/

namespace AgentLoop

open Process

/-! ### Consumers who leave -/

namespace Feed

/-- `g` is `f` after its consumer has read on. -/
structure Extends (f g : Feed) : Prop where
  consumer : g.consumer = f.consumer
  start : g.start = f.start
  readAt : f.readAt <+: g.readAt

variable {f g : Feed}

private theorem Extends.refl (f : Feed) : f.Extends f := ⟨rfl, rfl, List.prefix_rfl⟩

private theorem Extends.trans {h : Feed} (hf : f.Extends g) (hg : g.Extends h) : f.Extends h :=
  ⟨hg.consumer.trans hf.consumer, hg.start.trans hf.start, hf.readAt.trans hg.readAt⟩

private theorem extends_put (f : Feed) (now : Nat) (delta : String) : f.Extends (f.put now delta) :=
  ⟨rfl, rfl, List.prefix_append ..⟩

/-- Who has left stays away. -/
private theorem Extends.dropsAt (h : f.Extends g) {time : Nat} (hd : f.dropsAt = some time) :
    g.dropsAt = some time := by
  unfold Feed.dropsAt at hd ⊢
  rw [h.consumer, h.start]
  split at hd
  · cases hd
  · exact hd
  · obtain ⟨read, hread, rfl⟩ := Option.map_eq_some_iff.1 hd
    obtain ⟨rest, hrest⟩ := h.readAt
    rw [← hrest, List.getElem?_append_left (List.getElem?_eq_some_iff.1 hread).1, hread]
    rfl

end Feed

namespace Process

private theorem extends_play {α : Type} (partners : Partners) (limit : Option Nat) (p : RunProcess α) (s : Scene) :
    s.feed.Extends (p.play partners limit s).2.feed := by
  induction p generalizing s with
  | done | fault | hang => exact .refl _
  | act e next ih =>
    refine Feed.Extends.trans ?_ (ih (e.perform partners s).1 (e.perform partners s).2)
    cases e with
    | put delta => exact Feed.extends_put ..
    | _ => exact .refl _
  | wait n next ih =>
    unfold play
    split
    · exact ih _
    · dsimp only
      split
      · exact .refl _
      · exact ih (s.atTime (s.world.now + n))
  | yield next ih =>
    unfold play
    split
    · exact .refl _
    · exact ih _

end Process

private theorem Closes.extends {inv inv' : Invocation} {report : Report} {telling : RunProcess Unit}
    (h : Closes inv report telling inv') : inv.feed.Extends inv'.feed := by
  cases h with
  | marks => exact Feed.extends_put ..
  | _ => exact .refl _

namespace Engine

variable {e : Engine} {s t s₀ : Service} {place : Nat} {inv inv' : Invocation} {slot : Slot} {held : List (Nat × Nat)}

/-- An invocation keeps its token, and its consumer reads on. -/
structure Follows (inv inv' : Invocation) : Prop where
  kin : inv.Kin inv'
  feed : inv.feed.Extends inv'.feed

private theorem Becomes.follows (h : Becomes e s inv inv') : Follows inv inv' := by
  have played (rest : RunProcess (Except RunError Outcome)) : inv.feed.Extends (e.stopOf s inv rest).2.feed :=
    extends_play e.partners (some s.now) rest ⟨s.world, inv.feed⟩
  have same (feed : Feed) : inv.Kin { inv with feed } := ⟨rfl, rfl, rfl, rfl, rfl⟩
  cases h with
  | pauses | hangs | breaks => exact ⟨⟨rfl, rfl, rfl, rfl, rfl⟩, played _⟩
  | returns _ _ hc => exact ⟨(same _).trans hc.kin, (played _).trans hc.extends⟩
  | overruns _ _ _ hc => exact ⟨(same _).trans hc.kin, (played _).trans hc.extends⟩
  | cancelled _ _ _ hc => exact ⟨hc.kin, hc.extends⟩
  | timedOut _ _ _ hc => exact ⟨hc.kin, hc.extends⟩
  | queues => exact ⟨⟨rfl, rfl, rfl, rfl, rfl⟩, .refl _⟩
  | tells _ hc => exact ⟨hc.kin, hc.extends⟩
  | closes _ _ hc => exact ⟨hc.kin, hc.extends⟩

/-- Who has left stays away. -/
private theorem Follows.dropsAt (h : Follows inv inv') {time : Nat} (hd : inv.dropsAt = some time) :
    inv'.dropsAt = some time := by
  unfold Invocation.dropsAt at hd ⊢
  rw [h.kin.streams]
  split at hd
  · rename_i hstreams
    rw [if_pos hstreams]
    exact h.feed.dropsAt hd
  · cases hd

/-- So it is in every step, whoever takes it. -/
private theorem follows_of_stepAt? (hs : e.stepAt? s slot = some t) (hi : s.invocations[place]? = some inv) :
    ∃ inv', t.invocations[place]? = some inv' ∧ Follows inv inv' := by
  obtain ⟨own, hown, hpoll⟩ := Option.bind_eq_some_iff.1 hs
  have hinv := (s.atSlot slot).invocations_noteDrop own
  obtain ⟨s₁, hbeside, inv', hset, hbecomes⟩ := becomes_of_step (step_of_poll? hpoll)
  have hlength : s₁.invocations.length = s.invocations.length :=
    hbeside.length.trans (congrArg List.length hinv)
  by_cases hp : place = slot.place
  · subst hp
    obtain rfl : own = inv := Option.some.inj (hown.symm.trans hi)
    refine ⟨inv', ?_, hbecomes.follows⟩
    rw [hset, List.getElem?_set_self (hlength ▸ (List.getElem?_eq_some_iff.1 hi).1)]
  · rw [hset, List.getElem?_set_ne (Ne.symm hp)]
    rcases hbeside.others ((congrArg (·[place]?) hinv).trans hi) with h | ⟨-, lap, h⟩
    · exact ⟨inv, h, .refl _, .refl _⟩
    · exact ⟨_, h, ⟨rfl, rfl, rfl, rfl, rfl⟩, .refl _⟩

/-! ### Who cancels -/

/-- Callers start invocations and cancel tokens, time passes, and any invocation may take the next step; what the
callers cancel is listed, with the time of it. -/
inductive Held (e : Engine) (s₀ : Service) : List (Nat × Nat) → Service → Prop where
  | opened : Held e s₀ [] s₀
  | invoked {held : List (Nat × Nat)} {s : Service} (h : Held e s₀ held s) {inv : Invocation}
    (hd : inv.stage = .dormant) : Held e s₀ held { s with invocations := s.invocations ++ [inv] }
  | cancelled {held : List (Nat × Nat)} {s : Service} (h : Held e s₀ held s) (token time : Nat) :
    Held e s₀ (held ++ [(token, time)]) { s with cancellations := s.cancellations ++ [(token, time)] }
  | clock {held : List (Nat × Nat)} {s : Service} (h : Held e s₀ held s) (now lap : Nat) :
    Held e s₀ held { s with world := { s.world with now }, lap }
  | stepped {held : List (Nat × Nat)} {s t : Service} (h : Held e s₀ held s) {slot : Slot}
    (hs : e.stepAt? s slot = some t) : Held e s₀ held t

private theorem Held.course (h : Held e s₀ held s) : ∃ course, Course e s₀ course s := by
  induction h with
  | opened => exact ⟨[], .opened⟩
  | invoked _ hd ih =>
    obtain ⟨course, h⟩ := ih
    exact ⟨course, h.invoked hd⟩
  | cancelled _ token time ih =>
    obtain ⟨course, h⟩ := ih
    exact ⟨course, h.cancelled _⟩
  | clock _ now lap ih =>
    obtain ⟨course, h⟩ := ih
    exact ⟨course, h.clock now lap⟩
  | stepped _ hs ih =>
    obtain ⟨course, h⟩ := ih
    exact ⟨_, h.stepped hs⟩

/-- The consumer of an invocation that was given a token leaves at a time. -/
def LeavesAt (s : Service) (token time : Nat) : Prop :=
  ∃ (place : Nat) (inv : Invocation), s.invocations[place]? = some inv ∧ inv.token = token ∧ inv.dropsAt = some time

private theorem LeavesAt.stepped {token time : Nat} (h : LeavesAt s token time) (hs : e.stepAt? s slot = some t) :
    LeavesAt t token time := by
  obtain ⟨place, inv, hi, htoken, hd⟩ := h
  obtain ⟨inv', hi', hf⟩ := follows_of_stepAt? hs hi
  exact ⟨place, inv', hi', hf.kin.token.trans htoken, hf.dropsAt hd⟩

private theorem mem_cancellations_of_noteDrop {token time : Nat} (h : (token, time) ∈ (s.noteDrop inv).cancellations) :
    (token, time) ∈ s.cancellations ∨ token = inv.token ∧ inv.dropsAt = some time := by
  unfold Service.noteDrop at h
  split at h
  · rename_i left hd
    split at h
    · rcases List.mem_append.1 h with h | h
      · exact .inl h
      · obtain ⟨rfl, rfl⟩ : token = inv.token ∧ time = left := by simpa using h
        exact .inr ⟨rfl, hd⟩
    · exact .inl h
  · exact .inl h

/-- A consumer who has left is heard of when the invocation takes a step. -/
private theorem mem_cancellations_noteDrop_self {time : Nat} (hlive : inv.isLive = true) (hd : inv.dropsAt = some time)
    (ht : time ≤ s.now) : (inv.token, time) ∈ (s.noteDrop inv).cancellations := by
  unfold Service.noteDrop
  rw [hd]
  dsimp only
  split
  · exact List.mem_append_right _ (List.mem_singleton_self _)
  · rename_i h
    simpa [hlive, ht] using h

/-- Of the tokens that are or will be cancelled it is known who cancels them. -/
structure Accounted (held : List (Nat × Nat)) (s : Service) : Prop where
  kept {entry : Nat × Nat} (h : entry ∈ held) : entry ∈ s.cancellations
  known {token time : Nat} (h : (token, time) ∈ s.cancellations) : (token, time) ∈ held ∨ LeavesAt s token time

private theorem Accounted.stepped (h : Accounted held s) (hi : s.invocations[slot.place]? = some inv)
    (hc : t.cancellations = ((s.atSlot slot).noteDrop inv).cancellations) (hs : e.stepAt? s slot = some t) :
    Accounted held t where
  kept he := hc ▸ Service.mem_cancellations_noteDrop (s := s.atSlot slot) inv (h.kept he)
  known hm := by
    rw [hc] at hm
    rcases mem_cancellations_of_noteDrop hm with hm | ⟨rfl, hd⟩
    · exact (h.known hm).imp id (·.stepped hs)
    · exact .inr (LeavesAt.stepped ⟨_, inv, hi, rfl, hd⟩ hs)

private theorem stepped_of_traced {course : List (Nat × RunTrace)} (h : Traced e course s)
    (hs : e.stepAt? s slot = some t) :
    ∃ inv trace did, s.invocations[slot.place]? = some inv ∧
      Stepped e slot.place inv trace did ((s.atSlot slot).noteDrop inv) t := by
  obtain ⟨inv, hi, -⟩ := Option.bind_eq_some_iff.1 hs
  exact ⟨inv, _, _, hi, stepped_of_stepAt? hi (h.sound hi) hs⟩

private theorem accounted_held (hi : s₀.invocations = []) (hc : s₀.cancellations = []) (h : Held e s₀ held s) :
    Accounted held s := by
  induction h with
  | opened => exact { kept := fun hm => (nomatch hm), known := fun hm => by rw [hc] at hm; cases hm }
  | @invoked held s _ inv _ ih =>
    refine ⟨ih.kept, fun hm => (ih.known hm).imp id fun ⟨place, other, ho, hleaves⟩ => ⟨place, other, ?_, hleaves⟩⟩
    rw [List.getElem?_append_left (List.getElem?_eq_some_iff.1 ho).1, ho]
  | cancelled _ token time ih =>
    refine ⟨fun hm => ?_, fun hm => ?_⟩
    · exact List.mem_append.2 ((List.mem_append.1 hm).imp ih.kept id)
    · rcases List.mem_append.1 hm with hm | hm
      · exact (ih.known hm).imp (List.mem_append_left _) id
      · exact .inl (List.mem_append_right _ hm)
  | clock _ _ _ ih => exact ⟨ih.kept, ih.known⟩
  | stepped h hs ih =>
    obtain ⟨course, hcourse⟩ := h.course
    obtain ⟨inv, _, _, hown, hstepped⟩ := stepped_of_traced (traced_course hi hcourse) hs
    exact ih.stepped hown hstepped.cancellations hs

/-! ### What a step cancels -/

private theorem mem_cancelTimes_iff {token time : Nat} : time ∈ s.cancelTimes token ↔ (token, time) ∈ s.cancellations ∨
    ∃ (place : Nat) (inv : Invocation), s.invocations[place]? = some inv ∧ inv.isLive = true ∧ inv.token = token ∧
      inv.dropsAt = some time := by
  unfold Service.cancelTimes
  rw [List.mem_append, List.mem_filterMap, List.mem_filterMap]
  refine or_congr ⟨?_, fun h => ⟨_, h, by simp⟩⟩ ⟨?_, ?_⟩
  · rintro ⟨⟨token', time'⟩, h, ht⟩
    obtain ⟨rfl, rfl⟩ : token' = token ∧ time' = time := by simpa using ht
    exact h
  · rintro ⟨inv, hm, hd⟩
    obtain ⟨place, hi⟩ := List.mem_iff_getElem?.1 hm
    obtain ⟨⟨hlive, htoken⟩, hd⟩ : (inv.isLive = true ∧ inv.token = token) ∧ inv.dropsAt = some time := by
      simpa using hd
    exact ⟨place, inv, hi, hlive, htoken, hd⟩
  · rintro ⟨place, inv, hi, hlive, rfl, hd⟩
    exact ⟨inv, List.mem_of_getElem? hi, by simp [hlive, hd]⟩

section

variable {trace did : RunTrace} (hi : s.invocations[slot.place]? = some inv)
  (h : Stepped e slot.place inv trace did ((s.atSlot slot).noteDrop inv) t)

include h

private theorem now_of_stepped : t.now = slot.time :=
  h.now.trans (congrArg World.now ((s.atSlot slot).world_noteDrop inv))

include hi

/-- Whatever the step of an invocation is, it cancels no token but its own, and that only if its consumer leaves. -/
private theorem leaves_of_stepped (hs : e.stepAt? s slot = some t) {token : Nat} (hc : t.isCancelled token = true) :
    (s.atSlot slot).isCancelled token = true ∨ token = inv.token ∧
      ∃ inv' time, t.invocations[slot.place]? = some inv' ∧ inv'.dropsAt = some time ∧ time ≤ slot.time := by
  have hinv := (s.atSlot slot).invocations_noteDrop inv
  obtain ⟨inv', hi', hfollows⟩ := follows_of_stepAt? hs hi
  obtain ⟨time, hm, hle⟩ := Service.isCancelled_iff.1 hc
  rw [now_of_stepped h] at hle
  have before (hm : time ∈ (s.atSlot slot).cancelTimes token) : (s.atSlot slot).isCancelled token = true :=
    Service.isCancelled_iff.2 ⟨time, hm, hle⟩
  rcases mem_cancelTimes_iff.1 hm with hm | ⟨place, other, ho, hlive, rfl, hd⟩
  · rw [h.cancellations] at hm
    rcases mem_cancellations_of_noteDrop hm with hm | ⟨rfl, hd⟩
    · exact .inl (before (mem_cancelTimes_iff.2 (.inl hm)))
    · exact .inr ⟨rfl, inv', time, hi', hfollows.dropsAt hd, hle⟩
  · by_cases hp : place = slot.place
    · subst hp
      obtain rfl : inv' = other := Option.some.inj (hi'.symm.trans ho)
      exact .inr ⟨hfollows.kin.token, inv', time, hi', hd, hle⟩
    · refine .inl (before (mem_cancelTimes_iff.2 (.inr ?_)))
      rcases getElem?_of_others h.length (h.others hp) ho with hold | ⟨old, lap, hold, hq, rfl⟩
      · exact ⟨place, other, hinv ▸ hold, hlive, rfl, hd⟩
      · exact ⟨place, old, hinv ▸ hold, by rw [Invocation.isLive, hq], rfl, hd⟩

/-- What is cancelled stays cancelled. -/
private theorem isCancelled_stepped {token : Nat} (hc : (s.atSlot slot).isCancelled token = true) :
    t.isCancelled token = true := by
  have hinv := (s.atSlot slot).invocations_noteDrop inv
  obtain ⟨time, hm, hle⟩ := Service.isCancelled_iff.1 hc
  refine Service.isCancelled_iff.2 ⟨time, ?_, (now_of_stepped h).symm ▸ hle⟩
  rcases mem_cancelTimes_iff.1 hm with hm | ⟨place, other, ho, hlive, rfl, hd⟩
  · exact Service.mem_cancelTimes (h.cancellations ▸ Service.mem_cancellations_noteDrop inv hm)
  · by_cases hp : place = slot.place
    · subst hp
      obtain rfl : inv = other := Option.some.inj (hi.symm.trans ho)
      exact Service.mem_cancelTimes (h.cancellations ▸ mem_cancellations_noteDrop_self hlive hd hle)
    · rcases h.others hp (hinv.symm ▸ ho) with hnew | ⟨hq, lap, hnew⟩
      · exact mem_cancelTimes_iff.2 (.inr ⟨place, other, hnew, hlive, rfl, hd⟩)
      · exact mem_cancelTimes_iff.2 (.inr ⟨place, _, hnew, rfl, rfl, hd⟩)

end

/-! ### Isolation -/

/-- The invocation is read to its end, if it streams at all. -/
def ReadOn (inv : Invocation) : Prop := inv.streams = false ∨ inv.feed.consumer.take = none

private theorem ReadOn.dropsAt (h : ReadOn inv) : inv.dropsAt = none := by
  unfold Invocation.dropsAt
  rcases h with h | h
  · rw [h]
    rfl
  · split
    · unfold Feed.dropsAt
      rw [h]
    · rfl

/-- What the invocations with a token have to do with each other. -/
structure Isolated (e : Engine) (held : List (Nat × Nat)) (s : Service) : Prop where
  /-- What a caller cancels is cancelled from then on. -/
  heeded {token time : Nat} (h : (token, time) ∈ held) (ht : time ≤ s.now) : s.isCancelled token = true
  /-- Nothing else is, except by a consumer who has left the stream of an invocation with that token. -/
  caused {token : Nat} (h : s.isCancelled token = true) :
    ∃ time ≤ s.now, (token, time) ∈ held ∨ LeavesAt s token time
  /-- If all that have it are read on, then a token is the caller's alone. -/
  own {token : Nat} (h : ∀ (place : Nat) (inv : Invocation), s.invocations[place]? = some inv → inv.token = token →
    ReadOn inv) : s.isCancelled token = true ↔ ∃ time ≤ s.now, (token, time) ∈ held
  /-- Whatever an invocation does in a step, and however it comes to its end by it: no token is cancelled by that but
  its own, and that only by its consumer. -/
  step {slot : Slot} {inv : Invocation} {t : Service} (hi : s.invocations[slot.place]? = some inv)
    (hs : e.stepAt? s slot = some t) {token : Nat} (h : t.isCancelled token = true) :
    (s.atSlot slot).isCancelled token = true ∨ token = inv.token ∧
      ∃ inv' time, t.invocations[slot.place]? = some inv' ∧ inv'.dropsAt = some time ∧ time ≤ slot.time
  /-- What is cancelled stays cancelled. -/
  stays {slot : Slot} {t : Service} (hs : e.stepAt? s slot = some t) {token : Nat}
    (h : (s.atSlot slot).isCancelled token = true) : t.isCancelled token = true

theorem held_isolated {store : Store} (ho : e.open? store = some s₀) (h : Held e s₀ held s) : Isolated e held s := by
  obtain ⟨-, rfl⟩ := open?_eq_some.1 ho
  have ha := accounted_held rfl rfl h
  obtain ⟨course, hcourse⟩ := h.course
  have ht := traced_course rfl hcourse
  have heeded {token time : Nat} (h : (token, time) ∈ held) (ht : time ≤ s.now) : s.isCancelled token = true :=
    Service.isCancelled_iff.2 ⟨time, Service.mem_cancelTimes (ha.kept h), ht⟩
  have caused {token : Nat} (h : s.isCancelled token = true) :
      ∃ time ≤ s.now, (token, time) ∈ held ∨ LeavesAt s token time := by
    obtain ⟨time, hm, hle⟩ := Service.isCancelled_iff.1 h
    refine ⟨time, hle, ?_⟩
    rcases mem_cancelTimes_iff.1 hm with hm | ⟨place, inv, hi, -, htoken, hd⟩
    · exact ha.known hm
    · exact .inr ⟨place, inv, hi, htoken, hd⟩
  refine ⟨heeded, caused, fun hread => ⟨fun h => ?_, fun ⟨time, hle, hm⟩ => heeded hm hle⟩,
    fun hi hs _ h => ?_, fun hs _ h => ?_⟩
  · obtain ⟨time, hle, hm | ⟨place, inv, hi, htoken, hd⟩⟩ := caused h
    · exact ⟨time, hle, hm⟩
    · rw [(hread place inv hi htoken).dropsAt] at hd
      cases hd
  · obtain ⟨inv, _, _, hown, hstepped⟩ := stepped_of_traced ht hs
    obtain rfl : inv = _ := Option.some.inj (hown.symm.trans hi)
    exact leaves_of_stepped hi hstepped hs h
  · obtain ⟨inv, _, _, hown, hstepped⟩ := stepped_of_traced ht hs
    exact isCancelled_stepped hown hstepped h

/-- A model that takes its time. -/
def parlour : Engine :=
  { greeter with provider := { reply := fun _ _ => ⟨5, .returns (.ok (.whole ⟨.ofAssistant "hello", none, "m"⟩))⟩ } }

/-- An invocation that has no time for that. -/
def hasty : Invocation := { greeting with deadline := 3 }

/-- Two invocations with one token. -/
def couple : Service where
  world := { store := { kind := .inMemory none } }
  free := parlour.permits
  invocations := [hasty, greeting]

/-- One of them is cut at its deadline, and the other goes on to its answer: the token is not cancelled by that. -/
theorem held_isolated_company : ∃ store s₀ s, parlour.open? store = some s₀ ∧ Held parlour s₀ [] s ∧
    (∃ inv report, s.invocations[0]? = some inv ∧ inv.token = 0 ∧ inv.stage.report? = some report ∧
      report.result.code = some .timeout) ∧
    (∃ inv report, s.invocations[1]? = some inv ∧ inv.token = 0 ∧ inv.stage.report? = some report ∧
      report.result.content = some "hello") ∧
    s.isCancelled 0 = false ∧ Isolated parlour [] s := by
  have hopen : parlour.open? couple.world.store = some { couple with invocations := [] } :=
    open?_eq_some.2 ⟨by decide +kernel, rfl⟩
  have hheld : Held parlour { couple with invocations := [] } [] couple := .invoked (.invoked .opened rfl) rfl
  have hsteps : ((((parlour.stepAt? couple ⟨0, 0, 0⟩).bind (parlour.stepAt? · ⟨0, 0, 1⟩)).bind
      (parlour.stepAt? · ⟨3, 0, 0⟩)).bind (parlour.stepAt? · ⟨5, 0, 1⟩)).any (fun s =>
        !s.isCancelled 0 &&
        (s.invocations[0]?.any fun inv => inv.token == 0 &&
          inv.stage.report?.any (·.result.code == some .timeout)) &&
        s.invocations[1]?.any fun inv => inv.token == 0 &&
          inv.stage.report?.any (·.result.content == some "hello")) = true := by decide +kernel
  simp only [Option.any_eq_true, Option.bind_eq_some_iff, Bool.and_eq_true, Bool.not_eq_true', beq_iff_eq] at hsteps
  obtain ⟨s, ⟨s₃, ⟨s₂, ⟨s₁, hfirst, hsecond⟩, hthird⟩, hfourth⟩, ⟨hopenToken, hcut⟩, hanswered⟩ := hsteps
  obtain ⟨inv, hi, htoken, report, hr, hcode⟩ := hcut
  obtain ⟨inv', hi', htoken', report', hr', hcontent⟩ := hanswered
  have h := (((hheld.stepped hfirst).stepped hsecond).stepped hthird).stepped hfourth
  exact ⟨_, _, s, hopen, h, ⟨inv, report, hi, htoken, hr, hcode⟩, ⟨inv', report', hi', htoken', hr', hcontent⟩,
    hopenToken, held_isolated hopen h⟩

/-- A stream that nobody stays to read. -/
def overture : Invocation :=
  { greeting with
    streams := true
    start := 2
    feed := { capacity := some bufferSize, consumer := { take := some 0 }, start := 2 } }

/-- Such a stream beside a plain invocation with the same token. -/
def company : Service where
  world := { store := { kind := .inMemory none } }
  free := parlour.permits
  invocations := [overture, greeting]

/-- A consumer who does not stay ends the run of another invocation as well, though nobody else cancels anything. -/
theorem not_isolated_company : ∃ store s₀ s, parlour.open? store = some s₀ ∧ Held parlour s₀ [] s ∧
    s.isCancelled 0 = true ∧ ∃ inv report, s.invocations[1]? = some inv ∧ inv.streams = false ∧
      inv.stage.report? = some report ∧ report.result.error = some ⟨.unknown, cancelledText⟩ := by
  have hopen : parlour.open? company.world.store = some { company with invocations := [] } :=
    open?_eq_some.2 ⟨by decide +kernel, rfl⟩
  have hheld : Held parlour { company with invocations := [] } [] company := .invoked (.invoked .opened rfl) rfl
  -- the plain one waits for the model when the stream is started and left
  have hsteps : (((parlour.stepAt? company ⟨0, 0, 1⟩).bind (parlour.stepAt? · ⟨2, 1, 0⟩)).bind
      (parlour.stepAt? · ⟨2, 2, 1⟩)).any (fun s => s.isCancelled 0 && s.invocations[1]?.any fun inv =>
        !inv.streams && inv.stage.report?.any (·.result.error == some ⟨.unknown, cancelledText⟩)) = true := by
    decide +kernel
  obtain ⟨s, hsteps, hs⟩ := (Option.any_eq_true ..).1 hsteps
  obtain ⟨s₂, hsteps, hthird⟩ := Option.bind_eq_some_iff.1 hsteps
  obtain ⟨s₁, hfirst, hsecond⟩ := Option.bind_eq_some_iff.1 hsteps
  rw [Bool.and_eq_true] at hs
  obtain ⟨inv, hinv, hcut⟩ := (Option.any_eq_true ..).1 hs.2
  rw [Bool.and_eq_true] at hcut
  obtain ⟨report, hreport, herror⟩ := (Option.any_eq_true ..).1 hcut.2
  exact ⟨_, _, s, hopen, ((hheld.stepped hfirst).stepped hsecond).stepped hthird, hs.1, inv, report, hinv,
    by simpa using hcut.1, hreport, eq_of_beq herror⟩

end Engine

end AgentLoop
