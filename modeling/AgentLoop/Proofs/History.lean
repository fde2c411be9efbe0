import AgentLoop.Proofs.Progress

/-!
# What the history keeps

A `Course` is everything that may happen to a service: invocations are added at any time, tokens are cancelled, the
clock is set, and the invocations take their steps in any order.  All along, what the store holds of a session is what
it held at first and then, for each invocation of that session that succeeded, its prompt and its answer, in the order
in which they were saved.  What an invocation sends to the model goes on from what the store held when it looked.  This
is so if the messages are kept in memory without a cap, and if they are loaded and saved at once.
-/

namespace AgentLoop

open Process

/-! ### The store -/

namespace Store

theorem lookup_cons_eq {α : Type} (name other : String) (value : α) (rest : List (String × α)) :
    ((name, value) :: rest).lookup other = if other = name then some value else rest.lookup other := by
  by_cases h : other = name
  · simp [h]
  · have hb : (other == name) = false := by simpa using h
    rw [List.lookup_cons, hb, if_neg h]

theorem lookup_putLog (session other : String) (log : List Message) (sessions : List (String × List Message)) :
    (putLog session log sessions).lookup other = if other = session then some log else sessions.lookup other := by
  induction sessions with
  | nil => exact lookup_cons_eq ..
  | cons entry rest ih =>
    obtain ⟨s, old⟩ := entry
    unfold putLog
    split
    · rename_i h
      subst h
      rw [lookup_cons_eq, lookup_cons_eq]
      by_cases h : other = s <;> simp [h]
    · rename_i hne
      rw [lookup_cons_eq, lookup_cons_eq, ih]
      by_cases h : other = s
      · simp [h, hne]
      · simp [h]

/-- Messages that are saved without a cap go to the end of their session. -/
private theorem log_save {s : Store} (h : s.kind = .inMemory none) (session : Option String) (messages : List Message)
    (other : String) :
    (s.save session messages).2.log other =
      s.log other ++ if session = some other then messages else [] := by
  cases session with
  | none => simp [save_none h]
  | some id =>
    simp only [save_some h, log, lookup_putLog, lastUpTo, Option.some.injEq]
    by_cases ho : other = id
    · simp [ho]
    · simp [ho, Ne.symm ho]

end Store

namespace Engine

/-! ### Courses -/

/-- What an invocation does in its run in the step at a slot. -/
def didAt (e : Engine) (s : Service) (slot : Slot) : RunTrace :=
  match s.invocations[slot.place]? with
  | some inv => e.did ((s.atSlot slot).noteDrop inv) inv
  | none => []

/-- Anything may happen to a service, and any invocation may take the next step.  The steps are listed with what was
done in them. -/
inductive Course (e : Engine) (s₀ : Service) : List (Nat × RunTrace) → Service → Prop where
  | opened : Course e s₀ [] s₀
  | invoked {course : List (Nat × RunTrace)} {s : Service} (h : Course e s₀ course s) {inv : Invocation}
    (hd : inv.stage = .dormant) : Course e s₀ course { s with invocations := s.invocations ++ [inv] }
  | cancelled {course : List (Nat × RunTrace)} {s : Service} (h : Course e s₀ course s)
    (cancellations : List (Nat × Nat)) : Course e s₀ course { s with cancellations }
  | clock {course : List (Nat × RunTrace)} {s : Service} (h : Course e s₀ course s) (now lap : Nat) :
    Course e s₀ course { s with world := { s.world with now }, lap }
  | stepped {course : List (Nat × RunTrace)} {s t : Service} (h : Course e s₀ course s) {slot : Slot}
    (hs : e.stepAt? s slot = some t) : Course e s₀ (course ++ [(slot.place, e.didAt s slot)]) t

/-- Everything that an invocation did in a course. -/
def traceOf (course : List (Nat × RunTrace)) (place : Nat) : RunTrace :=
  course.flatMap fun (p, did) => if p = place then did else []

/-- The invocations that saved something, in the order of saving. -/
def savedIn (course : List (Nat × RunTrace)) : List Nat :=
  course.filterMap fun (p, did) => if did.any (·.1.isSave) then some p else none

end Engine

/-- The result of an invocation is fixed, and it is a success. -/
def Service.Succeeded (s : Service) (place : Nat) : Prop :=
  ∃ inv report, s.invocations[place]? = some inv ∧ inv.stage.report? = some report ∧ report.result.success = true

/-- What an invocation that succeeded leaves in the history of a session: nothing, unless it belongs to it. -/
def Service.turnIn (e : Engine) (s : Service) (session : String) (place : Nat) : List Message :=
  match s.invocations[place]? with
  | none => []
  | some inv =>
    if inv.command.session = some session then
      e.turnOf inv.command ((inv.stage.report?.bind (·.result.content)).getD "")
    else []

namespace Engine

variable {e : Engine} {s₀ s t : Service} {course : List (Nat × RunTrace)} {place : Nat} {inv : Invocation}
  {trace did : RunTrace}

theorem traceOf_append (course : List (Nat × RunTrace)) (p place : Nat) (did : RunTrace) :
    traceOf (course ++ [(p, did)]) place = traceOf course place ++ if p = place then did else [] := by
  simp [traceOf]

private theorem savedIn_append (course : List (Nat × RunTrace)) (p : Nat) (did : RunTrace) :
    savedIn (course ++ [(p, did)]) = savedIn course ++ if did.any (·.1.isSave) then [p] else [] := by
  simp only [savedIn, List.filterMap_append, List.filterMap_cons, List.filterMap_nil]
  cases did.any (·.1.isSave) <;> rfl

private theorem savedIn_append_of_unsaved (p : Nat) (hd : ∀ x ∈ did, x.1.isSave = false) :
    savedIn (course ++ [(p, did)]) = savedIn course := by
  have hnone : did.any (·.1.isSave) = false := List.any_eq_false.2 fun x hx => Bool.not_eq_true _ ▸ hd x hx
  rw [savedIn_append, hnone, if_neg Bool.false_ne_true, List.append_nil]

private theorem savedIn_append_of_saved (p : Nat) (hd : ∃ x ∈ did, x.1.isSave) :
    savedIn (course ++ [(p, did)]) = savedIn course ++ [p] := by
  rw [savedIn_append, if_pos (List.any_eq_true.2 hd)]

/-- Who is not among those has saved nothing. -/
private theorem mem_savedIn_of_mem {x : Exchange runEffects} (hx : x ∈ traceOf course place) (hsave : x.1.isSave) :
    place ∈ savedIn course := by
  obtain ⟨⟨p, did⟩, hstep, hx⟩ := List.mem_flatMap.1 hx
  dsimp only at hx
  split at hx
  · rename_i hp
    have hany : did.any (·.1.isSave) = true := List.any_eq_true.2 ⟨x, hx, hsave⟩
    exact List.mem_filterMap.2 ⟨(p, did), hstep, by simp [hany, hp]⟩
  · cases hx

theorem report?_of_isWaiting {stage : Stage} (h : stage.isWaiting) : stage.report? = none := by
  cases stage <;> first | rfl | cases h

/-! ### Steps and successes -/

/-- A fixed result stays. -/
private theorem Stepped.report? (h : Stepped e place inv trace did s t) (hi : s.invocations[place]? = some inv)
    {j : Nat}
    {other : Invocation} (hj : s.invocations[j]? = some other) {report : Report}
    (hr : other.stage.report? = some report) :
    ∃ other', t.invocations[j]? = some other' ∧ other.Kin other' ∧ other'.stage.report? = some report := by
  by_cases hjp : j = place
  · subst hjp
    obtain rfl : inv = other := Option.some.inj (hi.symm.trans hj)
    obtain ⟨inv', hi', hk, -, -, hfate⟩ := h.own
    refine ⟨inv', hi', hk, ?_⟩
    cases hfate with
    | closes hw hr' hc =>
      rw [← hr, hr']
      exact hc.report?
    | waits hw | breaks hw | fails hw | succeeds hw =>
      rw [report?_of_isWaiting hw] at hr
      cases hr
  · rcases h.others hjp hj with hsame | ⟨hq, lap, hg⟩
    · exact ⟨other, hsame, .refl other, hr⟩
    · rw [hq] at hr
      cases hr

private theorem Stepped.succeeded (h : Stepped e place inv trace did s t) (hi : s.invocations[place]? = some inv)
    {j : Nat}
    (hs : s.Succeeded j) : t.Succeeded j ∧ ∀ session, t.turnIn e session j = s.turnIn e session j := by
  obtain ⟨other, report, hj, hr, hsuccess⟩ := hs
  obtain ⟨other', hj', hk, hr'⟩ := h.report? hi hj hr
  refine ⟨⟨other', report, hj', hr', hsuccess⟩, fun session => ?_⟩
  simp only [Service.turnIn, hj, hj', hr, hr', hk.command, turnOf]

/-- Who has succeeded had succeeded before, unless this was the step. -/
private theorem Stepped.succeeded_of_ne (h : Stepped e place inv trace did s t) {j : Nat} (hj : j ≠ place)
    (ht : t.Succeeded j) : s.Succeeded j := by
  obtain ⟨other, report, hj', hr, hsuccess⟩ := ht
  rcases getElem?_of_others h.length (h.others hj) hj' with hs | ⟨old, lap, -, -, rfl⟩
  · exact ⟨other, report, hs, hr, hsuccess⟩
  · cases hr

/-- A step in which an invocation does not succeed saves nothing. -/
structure Unsaved (s : Service) (did : RunTrace) (t : Service) : Prop where
  did : ∀ x ∈ did, x.1.isSave = false
  store : t.world.store = s.world.store
  succeeded {j : Nat} (h : t.Succeeded j) : s.Succeeded j

/-- A step in which an invocation succeeds saves its turn. -/
structure Saved (e : Engine) (place : Nat) (inv : Invocation) (s : Service) (did : RunTrace) (t : Service) : Prop where
  did : ∃ x ∈ did, x.1.isSave
  before : ¬ s.Succeeded place
  after : t.Succeeded place
  store : ∃ answer, t.world.store = (s.world.store.save inv.command.session (e.turnOf inv.command answer)).2 ∧
    ∀ session, t.turnIn e session place =
      if inv.command.session = some session then e.turnOf inv.command answer else []

/-- If the store answers at once and nothing was saved before, saving and success come in the same step. -/
theorem Stepped.unsaved_or_saved (h : Stepped e place inv trace did s t) (hi : s.invocations[place]? = some inv)
    (hat : inv.stage.isWaiting → e.SavesAtOnce trace) : Unsaved s did t ∨ Saved e place inv s did t := by
  obtain ⟨inv', hi', hkin, -, -, hfate⟩ := h.own
  have unsaved (hd : ∀ x ∈ did, x.1.isSave = false)
      (hp : ∀ report, inv'.stage.report? = some report → report.result.success = true → s.Succeeded place) :
      Unsaved s did t := by
    refine ⟨hd, h.store hd, fun {j} ht => ?_⟩
    by_cases hj : j = place
    · subst hj
      obtain ⟨other, report, hj', hr, hsuccess⟩ := ht
      obtain rfl : inv' = other := Option.some.inj (hi'.symm.trans hj')
      exact hp report hr hsuccess
    · exact h.succeeded_of_ne hj ht
  cases hfate with
  | waits hw hw' _ hd =>
    exact .inl (unsaved (hd (hat hw)) fun report hr _ => by rw [report?_of_isWaiting hw'] at hr; cases hr)
  | breaks hw _ hr' _ hd =>
    exact .inl (unsaved (hd (hat hw)) fun report hr _ => by rw [hr'] at hr; cases hr)
  | fails hw hc hf _ _ hd =>
    refine .inl (unsaved (hd (hat hw)) fun report hr hsuccess => ?_)
    obtain rfl := Option.some.inj (hc.report?.symm.trans hr)
    rw [hf] at hsuccess
    cases hsuccess
  | closes _ hr hc _ _ hd =>
    refine .inl (unsaved (by simp [hd]) fun report hr' hsuccess => ?_)
    obtain rfl := Option.some.inj (hc.report?.symm.trans hr')
    exact ⟨inv, _, hi, hr, hsuccess⟩
  | @succeeds report told answer hw hc hsuccess ha _ _ hd =>
    obtain ⟨hsaved, hst⟩ := hd (hat hw)
    refine .inr ⟨hsaved, ?_, ⟨inv', report, hi', hc.report?, hsuccess⟩, answer, hst, fun session => ?_⟩
    · rintro ⟨other, report', hj, hr, -⟩
      obtain rfl : inv = other := Option.some.inj (hi.symm.trans hj)
      rw [report?_of_isWaiting hw] at hr
      cases hr
    · simp only [Service.turnIn, hi', hc.report?, hkin.command, Option.bind_some, ha, Option.getD_some, turnOf]

/-! ### Along a course -/

private theorem getElem?_invoked {other : Invocation} (h : (s.invocations ++ [inv])[place]? = some other) :
    s.invocations[place]? = some other ∨ place = s.invocations.length ∧ inv = other := by
  by_cases hp : place < s.invocations.length
  · exact .inl ((List.getElem?_append_left hp).symm.trans h)
  · have hlt := (List.getElem?_eq_some_iff.1 h).1
    have hlast : place = s.invocations.length := by
      simp only [List.length_append, List.length_singleton] at hlt
      omega
    subst hlast
    exact .inr ⟨rfl, by simpa using h⟩

/-- What an invocation is left with always agrees with what it has done, and who is not there has done nothing. -/
structure Traced (e : Engine) (course : List (Nat × RunTrace)) (s : Service) : Prop where
  sound {place : Nat} {inv : Invocation} (h : s.invocations[place]? = some inv) : e.Sound inv (traceOf course place)
  idle {place : Nat} (h : s.invocations.length ≤ place) : traceOf course place = []

private theorem traced_opened (hi : s₀.invocations = []) : Traced e [] s₀ where
  sound h := by simp [hi] at h
  idle _ := rfl

private theorem Traced.invoked (h : Traced e course s) (hd : inv.stage = .dormant) :
    Traced e course { s with invocations := s.invocations ++ [inv] } where
  sound ho := by
    rcases getElem?_invoked ho with ho | ⟨rfl, rfl⟩
    · exact h.sound ho
    · rw [h.idle (Nat.le_refl _)]
      exact sound_of_isFresh (by rw [hd]; rfl)
  idle hp := by
    simp only [List.length_append, List.length_singleton] at hp
    exact h.idle (by omega)

/-- The steps of an invocation go on from what it has done, also after those of another that let it in. -/
private theorem Traced.stepped (h : Traced e course s) (hi : s.invocations[place]? = some inv)
    (hstep : Stepped e place inv (traceOf course place) did s t) : Traced e (course ++ [(place, did)]) t where
  sound {j other} hj := by
    rw [traceOf_append]
    by_cases hjp : j = place
    · subst hjp
      obtain ⟨inv', hi', -, -, hs, -⟩ := hstep.own
      obtain rfl := Option.some.inj (hi'.symm.trans hj)
      rwa [if_pos rfl]
    · rw [if_neg (Ne.symm hjp), List.append_nil]
      rcases getElem?_of_others hstep.length (hstep.others hjp) hj with hs | ⟨old, lap, hs, hq, rfl⟩
      · exact h.sound hs
      · -- who is let in from the queue has done nothing yet
        rw [(h.sound hs).fresh (by rw [hq]; rfl)]
        exact sound_of_isFresh rfl
  idle {j} hj := by
    have hlt := (List.getElem?_eq_some_iff.1 hi).1
    have hlength := hstep.length
    rw [traceOf_append, h.idle (by omega), if_neg (by omega), List.append_nil]

/-- Clock, laps, tokens, permits and the store have no part in this. -/
private theorem Traced.of_eq (h : Traced e course s) (hi : t.invocations = s.invocations) : Traced e course t :=
  ⟨fun hp => h.sound (hi ▸ hp), fun hp => h.idle (hi ▸ hp)⟩

theorem Traced.stepAt {slot : Slot} (h : Traced e course s) (hs : e.stepAt? s slot = some t) :
    ∃ inv, s.invocations[slot.place]? = some inv ∧ Stepped e slot.place inv (traceOf course slot.place)
      (e.didAt s slot) ((s.atSlot slot).noteDrop inv) t := by
  obtain ⟨inv, hi, -⟩ := Option.bind_eq_some_iff.1 hs
  have hdid : e.didAt s slot = e.did ((s.atSlot slot).noteDrop inv) inv := by rw [didAt, hi]
  exact ⟨inv, hi, hdid ▸ stepped_of_stepAt? hi (h.sound hi) hs⟩

theorem traced_course (hi : s₀.invocations = []) (h : Course e s₀ course s) : Traced e course s := by
  induction h with
  | opened => exact traced_opened hi
  | invoked _ hd ih => exact ih.invoked hd
  | cancelled _ _ ih => exact ih.of_eq rfl
  | clock _ _ _ ih => exact ih.of_eq rfl
  | @stepped course s t _ slot hstep ih =>
    obtain ⟨inv, hi, hstepped⟩ := ih.stepAt hstep
    have hinv := Service.invocations_noteDrop (s.atSlot slot) inv
    exact (ih.of_eq hinv).stepped ((congrArg (·[slot.place]?) hinv).trans hi) hstepped

/-- What is stored of a session after these have saved their turns. -/
def storedAfter (e : Engine) (s₀ s : Service) (places : List Nat) (session : String) : List Message :=
  s₀.world.store.log session ++ places.flatMap (s.turnIn e session)

/-- What the store comes up with then. -/
def loadedAfter (e : Engine) (s₀ s : Service) (places : List Nat) : Option String → Except StoreError (List Message)
  | none => .error .missingSession
  | some session => .ok (e.storedAfter s₀ s places session)

/-- What a course and a service tell about each other. -/
structure Tracked (e : Engine) (s₀ : Service) (course : List (Nat × RunTrace)) (s : Service) : Prop where
  store : s.world.store.kind = .inMemory none
  sound {place : Nat} {inv : Invocation} (h : s.invocations[place]? = some inv) : e.Sound inv (traceOf course place)
  idle {place : Nat} (h : s.invocations.length ≤ place) : traceOf course place = []
  nodup : (savedIn course).Nodup
  mem {place : Nat} : place ∈ savedIn course ↔ s.Succeeded place
  log (session : String) : s.world.store.log session = e.storedAfter s₀ s (savedIn course) session
  loaded {pre post : List (Nat × RunTrace)} {place : Nat} {did : RunTrace} {command : Command}
    {answer : Reaction (Except StoreError (List Message))} (h : course = pre ++ (place, did) :: post)
    (hl : ⟨.load command, answer⟩ ∈ did) : answer = .now (e.loadedAfter s₀ s (savedIn pre) command.session)

private theorem mem_savedIn_of_append {pre post : List (Nat × RunTrace)} (h : course = pre ++ post) {place : Nat}
    (hp : place ∈ savedIn pre) : place ∈ savedIn course := by
  subst h
  rw [savedIn, List.filterMap_append]
  exact List.mem_append_left _ hp

/-- Turns of those that have succeeded are the same in services that agree about them. -/
private theorem storedAfter_congr {places : List Nat} {session : String}
    (h : ∀ place ∈ places, t.turnIn e session place = s.turnIn e session place) :
    e.storedAfter s₀ t places session = e.storedAfter s₀ s places session := by
  rw [storedAfter, storedAfter, List.flatMap_def, List.flatMap_def, List.map_congr_left h]

private theorem loadedAfter_congr {places : List Nat} {session : Option String}
    (h : ∀ session, ∀ place ∈ places, t.turnIn e session place = s.turnIn e session place) :
    e.loadedAfter s₀ t places session = e.loadedAfter s₀ s places session := by
  cases session with
  | none => rfl
  | some id => rw [loadedAfter, loadedAfter, storedAfter_congr (h id)]

private theorem tracked_opened (hi : s₀.invocations = []) (hs : s₀.world.store.kind = .inMemory none) :
    Tracked e s₀ [] s₀ where
  store := hs
  sound h := by simp [hi] at h
  idle _ := rfl
  nodup := .nil
  mem := by
    refine ⟨fun h => (nomatch h), ?_⟩
    rintro ⟨inv, report, h, -⟩
    simp [hi] at h
  log session := by simp [savedIn, storedAfter]
  loaded h _ := by simp at h

theorem Tracked.traced (h : Tracked e s₀ course s) : Traced e course s := ⟨h.sound, h.idle⟩

private theorem Tracked.invoked (h : Tracked e s₀ course s) (hd : inv.stage = .dormant) :
    Tracked e s₀ course { s with invocations := s.invocations ++ [inv] } := by
  have old {place : Nat} (hp : s.Succeeded place) (session : String) :
      Service.turnIn e { s with invocations := s.invocations ++ [inv] } session place =
        s.turnIn e session place := by
    obtain ⟨other, report, ho, -⟩ := hp
    have hlt := (List.getElem?_eq_some_iff.1 ho).1
    simp only [Service.turnIn, List.getElem?_append_left hlt]
  have hmem {place : Nat} : Service.Succeeded { s with invocations := s.invocations ++ [inv] } place ↔
      s.Succeeded place := by
    constructor
    · rintro ⟨other, report, ho, hr, hsuccess⟩
      rcases getElem?_invoked ho with ho | ⟨-, rfl⟩
      · exact ⟨other, report, ho, hr, hsuccess⟩
      · rw [hd] at hr
        cases hr
    · rintro ⟨other, report, ho, hr, hsuccess⟩
      have hlt := (List.getElem?_eq_some_iff.1 ho).1
      exact ⟨other, report, (List.getElem?_append_left hlt).trans ho, hr, hsuccess⟩
  have ht := h.traced.invoked hd
  refine ⟨h.store, ht.sound, ht.idle, h.nodup, h.mem.trans hmem.symm, fun session => ?_, fun hc hl => ?_⟩
  · rw [storedAfter_congr fun place hp => old (h.mem.1 hp) session]
    exact h.log session
  · rw [h.loaded hc hl]
    exact congrArg Reaction.now
      (loadedAfter_congr fun id place hp => old (h.mem.1 (mem_savedIn_of_append hc hp)) id).symm

/-- What the steps so far tell is not changed by the next one. -/
private theorem Tracked.loaded_of_step (h : Tracked e s₀ course s)
    (hs : ∀ {j}, s.Succeeded j → ∀ session, t.turnIn e session j = s.turnIn e session j)
    (hload : ∀ {command answer}, ⟨.load command, answer⟩ ∈ did → answer = .now (s.world.store.load command.session))
    {pre post : List (Nat × RunTrace)} {p : Nat} {did' : RunTrace} {command : Command}
    {answer : Reaction (Except StoreError (List Message))} (hc : course ++ [(place, did)] = pre ++ (p, did') :: post)
    (hl : ⟨.load command, answer⟩ ∈ did') : answer = .now (e.loadedAfter s₀ t (savedIn pre) command.session) := by
  rcases List.eq_nil_or_concat post with rfl | ⟨post', last, rfl⟩
  · -- the load of this step
    obtain ⟨rfl, hlast⟩ := List.append_inj' hc rfl
    obtain ⟨rfl, rfl⟩ : place = p ∧ did = did' := by simpa using hlast
    rw [hload hl, loadedAfter_congr fun id j hj => hs (h.mem.1 hj) id]
    cases command.session with
    | none => rw [Store.load_none h.store, loadedAfter]
    | some id => rw [Store.load_some h.store, h.log, loadedAfter]
  · rw [List.concat_eq_append, ← List.cons_append, ← List.append_assoc] at hc
    obtain ⟨hc, -⟩ := List.append_inj' hc rfl
    rw [h.loaded hc hl]
    exact congrArg Reaction.now
      (loadedAfter_congr fun id j hj => hs (h.mem.1 (mem_savedIn_of_append hc hj)) id).symm

/-- Who waits has saved nothing. -/
theorem Tracked.savesAtOnce (h : Tracked e s₀ course s) (hk : e.store = some .atOnce)
    (hi : s.invocations[place]? = some inv) (hw : inv.stage.isWaiting) : e.SavesAtOnce (traceOf course place) := by
  refine ⟨hk, fun x hx => Bool.eq_false_iff.2 fun hsave => ?_⟩
  obtain ⟨other, report, hj, hr, -⟩ := h.mem.1 (mem_savedIn_of_mem hx hsave)
  obtain rfl : inv = other := Option.some.inj (hi.symm.trans hj)
  rw [report?_of_isWaiting hw] at hr
  cases hr

private theorem Tracked.stepped (h : Tracked e s₀ course s) (hk : e.store = some .atOnce)
    (hi : s.invocations[place]? = some inv) (hstep : Stepped e place inv (traceOf course place) did s t) :
    Tracked e s₀ (course ++ [(place, did)]) t := by
  have hturns {j : Nat} (hj : s.Succeeded j) : t.Succeeded j ∧ ∀ session, t.turnIn e session j = s.turnIn e session j :=
    hstep.succeeded hi hj
  have hloaded {pre post : List (Nat × RunTrace)} {p : Nat} {did' : RunTrace} {command : Command}
      {answer : Reaction (Except StoreError (List Message))} (hc : course ++ [(place, did)] = pre ++ (p, did') :: post)
      (hl : ⟨.load command, answer⟩ ∈ did') : answer = .now (e.loadedAfter s₀ t (savedIn pre) command.session) :=
    h.loaded_of_step (fun hj => (hturns hj).2) (hstep.loaded hk) hc hl
  have ht := h.traced.stepped hi hstep
  rcases hstep.unsaved_or_saved hi (h.savesAtOnce hk hi) with hu | hv
  · -- nothing is saved, and nobody succeeds
    have hsaved : savedIn (course ++ [(place, did)]) = savedIn course := savedIn_append_of_unsaved place hu.did
    refine ⟨hu.store ▸ h.store, ht.sound, ht.idle, hsaved ▸ h.nodup, ?_,
      fun session => ?_, hloaded⟩
    · intro j
      rw [hsaved, h.mem]
      exact ⟨fun hj => (hturns hj).1, hu.succeeded⟩
    · rw [hsaved, hu.store, h.log, storedAfter_congr fun j hj => (hturns (h.mem.1 hj)).2 session]
  · -- one turn is saved, after those of everybody who has succeeded before
    obtain ⟨answer, hstore, hturn⟩ := hv.store
    have hsaved : savedIn (course ++ [(place, did)]) = savedIn course ++ [place] :=
      savedIn_append_of_saved place hv.did
    refine ⟨hstore ▸ (Store.kind_save ..).trans h.store, ht.sound, ht.idle, ?_, ?_,
      fun session => ?_, hloaded⟩
    · rw [hsaved]
      refine List.nodup_append.2 ⟨h.nodup, by simp, ?_⟩
      intro a ha b hb
      rcases List.mem_singleton.1 hb with rfl
      exact fun hab => hv.before (h.mem.1 (hab ▸ ha))
    · intro j
      rw [hsaved, List.mem_append, List.mem_singleton, h.mem]
      constructor
      · rintro (hj | rfl)
        · exact (hturns hj).1
        · exact hv.after
      · intro hj
        by_cases hjp : j = place
        · exact .inr hjp
        · exact .inl (hstep.succeeded_of_ne hjp hj)
    · rw [hsaved, hstore, Store.log_save h.store, h.log, ← storedAfter_congr fun j hj => (hturns (h.mem.1 hj)).2 session]
      simp [storedAfter, hturn]

/-- Clock, laps, tokens and permits have no part in this. -/
private theorem Tracked.of_eq (h : Tracked e s₀ course s) (hi : t.invocations = s.invocations)
    (hs : t.world.store = s.world.store) : Tracked e s₀ course t := by
  obtain ⟨⟨now, journal, asked, operations, store⟩, lap, free, queue, invocations, cancellations⟩ := t
  subst hi hs
  exact ⟨h.store, h.sound, h.idle, h.nodup, h.mem, h.log, h.loaded⟩

/-- A course and where it leads always tell the same. -/
theorem tracked_course (hk : e.store = some .atOnce) (hi : s₀.invocations = [])
    (hs : s₀.world.store.kind = .inMemory none) (h : Course e s₀ course s) : Tracked e s₀ course s := by
  induction h with
  | opened => exact tracked_opened hi hs
  | invoked _ hd ih => exact ih.invoked hd
  | cancelled _ _ ih => exact ih.of_eq rfl rfl
  | clock _ _ _ ih => exact ih.of_eq rfl rfl
  | @stepped course s t _ slot hstep ih =>
    obtain ⟨inv, hi, hstepped⟩ := ih.traced.stepAt hstep
    have hinv := Service.invocations_noteDrop (s.atSlot slot) inv
    have hstore := congrArg World.store (Service.world_noteDrop (s.atSlot slot) inv)
    exact (ih.of_eq hinv hstore).stepped hk ((congrArg (·[slot.place]?) hinv).trans hi) hstepped

end Engine

end AgentLoop
