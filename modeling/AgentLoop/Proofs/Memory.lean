import AgentLoop.Proofs.History
import AgentLoop.Service.Scenario

/-!
# Only finished invocations are remembered

At every moment what is stored of a session is one turn, a prompt and its answer, for each invocation of the session
that has succeeded by then, in the order of saving.  Nothing else an invocation does leaves a mark in the store.  The
model is sent what was stored of the session when the invocation looked, unless the command brings its own history.
Whatever is done with an engine takes such a course.
-/

namespace AgentLoop.Engine

variable {e : Engine} {s₀ s t : Service} {course : List (Nat × RunTrace)} {place : Nat} {inv : Invocation}
  {trace : RunTrace}

/-! ### What is sent -/

private theorem mem_traceOf {x : Exchange runEffects} (h : x ∈ traceOf course place) :
    ∃ pre did post, course = pre ++ (place, did) :: post ∧ x ∈ did := by
  obtain ⟨⟨p, did⟩, hstep, hx⟩ := List.mem_flatMap.1 h
  obtain ⟨pre, post, rfl⟩ := List.append_of_mem hstep
  dsimp only at hx
  split at hx
  · rename_i hp
    subst hp
    exact ⟨pre, did, post, rfl, hx⟩
  · cases hx

/-- The history from which an invocation of a command goes on in a course that has come to `s`: its own, or else what
was stored of its session at the step in which it looked. -/
inductive Recalls (e : Engine) (s₀ s : Service) (course : List (Nat × RunTrace)) (place : Nat) (command : Command) :
    List Message → Prop where
  | own (h : command.history ≠ []) : Recalls e s₀ s course place command command.history
  | stored {pre post : List (Nat × RunTrace)} {did : RunTrace} {session : String}
    {answer : Reaction (Except StoreError (List Message))} (h : command.history = [])
    (hs : command.session = some session) (hc : course = pre ++ (place, did) :: post)
    (hl : ⟨.load command, answer⟩ ∈ did) :
    Recalls e s₀ s course place command (e.storedAfter s₀ s (savedIn pre) session)
  | nothing (h : command.history = []) (hs : command.session = none) : Recalls e s₀ s course place command []

/-- What a conversation sends belongs to a loop that goes on from a history it has come by before. -/
private theorem Spoken.asked {command : Command} {streams : Bool} (h : e.Spoken command streams trace)
    {request : Request}
    {answer : Reaction (Except ProviderError Reply)} (hx : ⟨.ask request, answer⟩ ∈ trace) :
    ∃ before input rounds arrived since, (∀ x ∈ before, x ∈ trace) ∧ e.LoopFrom command before input ∧
      (e.loop command streams).InTurn input arrived rounds since request := by
  obtain ⟨said, saved, q, rfl, hl, hsaved⟩ := h
  rcases List.mem_append.1 hx with hx | hx
  · obtain ⟨u, v, rfl⟩ := List.append_of_mem hx
    obtain ⟨before, arrived, input, rfl, hfrom, rounds, since, hturn, -⟩ := allows_of_leads_converse hl
    refine ⟨before, input, rounds, arrived, since, fun x hx => ?_, hfrom, hturn⟩
    simp [hx]
  · exact absurd (hsaved _ hx) (by simp [Effect.isSave])

private theorem Tracked.recalls (h : Tracked e s₀ course s) (hk : e.store = some .atOnce) {command : Command}
    {before : RunTrace} {history : List Message} (hb : ∀ x ∈ before, x ∈ traceOf course place)
    (hh : e.HistoryAfter command before history) : e.Recalls s₀ s course place command history := by
  cases hh with
  | own hown => exact .own hown
  | none _ hf =>
    rw [keepsHistory, hk] at hf
    cases hf
  | @loaded answer loaded hown _ hl hr =>
    -- the load belongs to one of the steps, and came up with what was stored then
    obtain ⟨pre, did, post, hc, hload⟩ := mem_traceOf (hb _ hl)
    have ha := h.loaded hc hload
    subst ha
    obtain rfl := Ending.returns.inj hr
    cases hs : command.session with
    | none => exact .nothing hown hs
    | some session => exact .stored hown hs hc hload

/-! ### Whatever is done takes its course -/

/-- A service that is opened has done nothing yet. -/
theorem open?_eq_some {store : Store} :
    e.open? store = some s ↔ e.isBuildable = true ∧ s = { world := { store }, free := e.permits } := by
  unfold open?
  split
  · rename_i hb
    simp [hb, eq_comm]
  · rename_i hb
    simp [hb]

theorem course_advance (wanted : Service → Slot → Bool) (h : Course e s₀ course s) :
    ∃ more, Course e s₀ (course ++ more) (advance e wanted s) := by
  fun_induction advance e wanted s generalizing course with
  | case1 | case2 | case4 => exact ⟨[], by rwa [List.append_nil]⟩
  | case3 s slot _ _ s' hstep ih =>
    obtain ⟨more, hm⟩ := ih (h.stepped hstep)
    exact ⟨_ :: more, by simpa using hm⟩

mutual

theorem course_start {s : Service} (time : Nat) (action : Action) (h : Course e s₀ course s) :
    Course e s₀ course (e.start time action s).2 := by
  cases action with
  | invoke delay command reader cancelAfter =>
    unfold start
    exact (h.invoked rfl).cancelled _
  | look delay session => unfold start; exact h
  | together delay actions => unfold start; exact course_startAll (time + delay) actions h

theorem course_startAll {s : Service} (time : Nat) (actions : List Action) (h : Course e s₀ course s) :
    Course e s₀ course (e.startAll time actions s).2 := by
  cases actions with
  | nil => unfold startAll; exact h
  | cons action rest => unfold startAll; exact course_startAll time rest (course_start time action h)

end

private theorem course_takeLooks (looks : List Look) (h : Course e s₀ course s) :
    ∃ more, Course e s₀ (course ++ more) (e.takeLooks looks s).2 := by
  induction looks generalizing course s with
  | nil => exact ⟨[], by rwa [List.append_nil]⟩
  | cons look rest ih =>
    obtain ⟨more, hm⟩ := course_advance (fun _ slot => slot.before ⟨look.time, 0, look.place⟩) h
    obtain ⟨more', hm'⟩ := ih hm
    exact ⟨more ++ more', by rwa [← List.append_assoc]⟩

/-- Whoever does something with an engine and gets an answer only takes the course of the service further. -/
theorem course_perform {action : Action} {answer : Answer} (h : Course e s₀ course s)
    (hp : e.perform action s = .ok (answer, t)) : ∃ more, Course e s₀ (course ++ more) t := by
  unfold perform at hp
  dsimp only [bind, Except.bind, pure, Except.pure] at hp
  split at hp
  · cases hp
  · split at hp
    · cases hp
    · obtain rfl := (Prod.mk.inj (Except.ok.inj hp)).2
      obtain ⟨looking, hl⟩ := course_takeLooks _ (course_start _ action (h.clock s.now 0))
      obtain ⟨waiting, hw⟩ := course_advance _ hl
      exact ⟨looking ++ waiting, by rw [← List.append_assoc]; exact hw.clock _ _⟩

/-! ### What is remembered -/

/-- What the store and the model get to see of the invocations, in a course that has come to `s`. -/
structure Remembers (e : Engine) (s₀ : Service) (course : List (Nat × RunTrace)) (s : Service) : Prop where
  /-- Nobody saves twice, -/
  nodup : (savedIn course).Nodup
  /-- and those who have saved are those who have succeeded. -/
  succeeded (place : Nat) : place ∈ savedIn course ↔ s.Succeeded place
  /-- What is stored of a session is their turns, in the order of saving. -/
  log (session : String) : s.world.store.log session = e.storedAfter s₀ s (savedIn course) session
  /-- A step that is not the success of its invocation leaves the store as it was. -/
  step {slot : Slot} {t : Service} (hs : e.stepAt? s slot = some t) :
    t.world.store = s.world.store ∨ ¬ s.Succeeded slot.place ∧ t.Succeeded slot.place
  /-- Each request goes on from the history that was recalled, with the prompt that is stored if it succeeds. -/
  asked {place : Nat} {inv : Invocation} (hi : s.invocations[place]? = some inv) {request : Request}
    {answer : Reaction (Except ProviderError Reply)} (ha : ⟨.ask request, answer⟩ ∈ traceOf course place) :
    ∃ input rounds arrived since, input.user = .ofUser (e.promptOf inv.command) ∧
      e.Recalls s₀ s course place inv.command input.history ∧
      (e.loop inv.command inv.streams).InTurn input arrived rounds since request

private theorem Tracked.step (h : Tracked e s₀ course s) (hk : e.store = some .atOnce) {slot : Slot}
    (hs : e.stepAt? s slot = some t) :
    t.world.store = s.world.store ∨ ¬ s.Succeeded slot.place ∧ t.Succeeded slot.place := by
  obtain ⟨inv, hi, hstepped⟩ := h.traced.stepAt hs
  have hinv := Service.invocations_noteDrop (s.atSlot slot) inv
  have hstore := congrArg World.store (Service.world_noteDrop (s.atSlot slot) inv)
  have hsucceeded : ((s.atSlot slot).noteDrop inv).Succeeded slot.place ↔ s.Succeeded slot.place := by
    rw [Service.Succeeded, hinv]
    rfl
  have hsaves : inv.stage.isWaiting → e.SavesAtOnce (traceOf course slot.place) := h.savesAtOnce hk hi
  rcases hstepped.unsaved_or_saved ((congrArg (·[slot.place]?) hinv).trans hi) hsaves with hu | hv
  · exact .inl (hu.store.trans hstore)
  · exact .inr ⟨fun hp => hv.before (hsucceeded.2 hp), hv.after⟩

/-- An engine with a store in memory that has no cap and answers at once: whatever invocations there are, and however
their steps are interleaved, exactly those that succeed are remembered, each with its whole turn. -/
theorem course_remembers (hk : e.store = some .atOnce) (hi : s₀.invocations = [])
    (hs : s₀.world.store.kind = .inMemory none) (h : Course e s₀ course s) : Remembers e s₀ course s := by
  have ht := tracked_course hk hi hs h
  refine ⟨ht.nodup, fun place => ht.mem, ht.log, ht.step hk, fun hi _ _ ha => ?_⟩
  obtain ⟨before, input, rounds, arrived, since, hb, hfrom, hturn⟩ := (ht.sound hi).spoken.asked ha
  exact ⟨input, rounds, arrived, since, hfrom.user, ht.recalls hk hb hfrom.history, hturn⟩

/-- An engine whose model always says the same. -/
def greeter : Engine where
  provider := { reply := fun _ _ => .now (.ok (.whole ⟨.ofAssistant "hello", none, "m"⟩)) }
  config := { defaultTemperature := .finite false 0 0 }
  store := some .atOnce

def greeted : Service where
  world := { store := { kind := .inMemory none } }
  free := 1

def greeting : Invocation where
  command := { prompt := "hi", metadata := [(sessionKey, "s")] }
  token := 0
  start := 0
  deadline := 1000

theorem course_remembers_greeting : greeter.store = some .atOnce ∧ greeted.invocations = [] ∧
    greeted.world.store.kind = .inMemory none ∧ ∃ course s, Course greeter greeted course s ∧ s.Succeeded 0 ∧
      Remembers greeter greeted course s := by
  have hs : (greeter.stepAt? { greeted with invocations := [greeting] } ⟨0, 0, 0⟩).isSome = true := by decide +kernel
  obtain ⟨s, hstep⟩ := Option.isSome_iff_exists.1 hs
  have hinvoked : Course greeter greeted [] { greeted with invocations := [greeting] } := .invoked .opened rfl
  have h := hinvoked.stepped hstep
  have hr := course_remembers rfl rfl rfl h
  refine ⟨rfl, rfl, rfl, _, s, h, (hr.succeeded 0).1 ?_, hr⟩
  decide +kernel

end AgentLoop.Engine
