import AgentLoop.Proofs.Instant
import AgentLoop.Proofs.Timelines

/-!
# Notes on the clock of a service

A service plays a process from one wait to the next.  Of a process that does nothing but take notes and wait, each of
these stretches leaves the notes of one instant in the journal, and the timeline of what is left is the timeline of all
without them.  So it is enough to follow the timeline, also if the process is cut at some time.
-/

namespace AgentLoop

namespace Timeline

variable {ν α : Type} {t : Timeline ν α} {limit : Nat}

/-- It has come to an end by an instant. -/
def isOverBy (limit : Nat) (t : Timeline ν α) : Bool :=
  match t.ending with
  | .hangs => false
  | .returns _ | .faults _ => t.length ≤ limit

/-- The timeline if it is cut right after an instant: without a value, unless it is over by then. -/
def through (limit : Nat) (t : Timeline ν α) : Timeline ν (Option α) :=
  if t.isOverBy limit then ⟨t.beats, t.length, t.ending.map some⟩
  else ⟨t.beats.takeWhile fun beat => beat.1 ≤ limit, limit, .returns none⟩

private theorem length_le_of_isOverBy {t : Timeline ν α} (h : t.isOverBy limit = true) : t.length ≤ limit := by
  unfold isOverBy at h
  split at h
  · cases h
  · exact of_decide_eq_true h
  · exact of_decide_eq_true h

theorem through_of_isOverBy (h : t.isOverBy limit = true) : t.through limit = ⟨t.beats, t.length, t.ending.map some⟩ :=
  if_pos h

theorem length_through_le (limit : Nat) (t : Timeline ν α) : (t.through limit).length ≤ limit := by
  unfold through
  split_ifs with hover
  · show t.length ≤ limit
    exact length_le_of_isOverBy hover
  · exact Nat.le_refl limit

theorem through_after {earlier : List (Nat × ν)} (h : ∀ beat ∈ earlier, beat.1 ≤ limit) :
    (t.after earlier).through limit = (t.through limit).after earlier := by
  have hover : (t.after earlier).isOverBy limit = t.isOverBy limit := rfl
  unfold through
  rw [hover]
  split
  · rfl
  · have htake : (earlier ++ t.beats).takeWhile (fun beat => decide (beat.1 ≤ limit)) =
        earlier ++ t.beats.takeWhile fun beat => decide (beat.1 ≤ limit) :=
      List.takeWhile_append_of_pos fun beat hbeat => decide_eq_true (h beat hbeat)
    exact congrArg (fun beats => (⟨beats, limit, .returns none⟩ : Timeline ν (Option α))) htake

/-- Of what would only come later nothing is left. -/
private theorem through_of_later (hb : ∀ beat ∈ t.beats, limit < beat.1) (hl : limit < t.length) :
    t.through limit = ⟨[], limit, .returns none⟩ := by
  have hover : ¬ t.isOverBy limit = true := fun h => Nat.not_le.2 hl (length_le_of_isOverBy h)
  have htake : t.beats.takeWhile (fun beat => decide (beat.1 ≤ limit)) = [] := by
    cases hbeats : t.beats with
    | nil => rfl
    | cons first rest =>
      have hlate := hb first (hbeats ▸ List.mem_cons_self ..)
      exact List.takeWhile_cons_of_neg (by simpa using hlate)
  rw [through, if_neg hover, htake]

/-- What breaks down only does so if it has the time to. -/
theorem faults_of_through {message : String} (h : (t.through limit).ending = .faults message) :
    t.ending = .faults message := by
  unfold through at h
  split at h
  · cases hending : t.ending with
    | faults => simpa [hending, Ending.map] using h
    | returns | hangs => simp [hending, Ending.map] at h
  · cases h

end Timeline

namespace Process

variable {ν α β : Type}

/-! ### Processes that only take notes -/

/-- It never lets others have their turn at an instant; only the clock keeps it waiting. -/
def Swift : Process (.notes ν) α → Prop
  | act _ next => (next ()).Swift
  | wait _ next => next.Swift
  | yield _ => False
  | done _ | fault _ | hang => True

theorem Swift.bind {p : Process (.notes ν) α} {f : α → Process (.notes ν) β} (hp : p.Swift) (hf : ∀ a, (f a).Swift) :
    (p >>= f).Swift := by
  show (p.bind f).Swift
  induction p with
  | done a => exact hf a
  | act n next ih => exact ih () hp
  | wait n next ih => exact ih hp
  | yield next => exact hp.elim
  | fault | hang => trivial

theorem swift_react (r : Reaction α) : (react r : Process (.notes ν) α).Swift := by
  unfold react
  cases r.ending <;> trivial

theorem mapNotes_bind {S : Signature} (take : ν → Process S Unit) (p : Process (.notes ν) α)
    (f : α → Process (.notes ν) β) : (p >>= f).mapNotes take = p.mapNotes take >>= fun a => (f a).mapNotes take := by
  show (p.bind f).mapNotes take = (p.mapNotes take).bind fun a => (f a).mapNotes take
  induction p with
  | done | fault | hang => rfl
  | act n next ih =>
    have hnext (answer : Unit) := ih answer
    simp only [Process.bind, mapNotes, hnext, bind_assoc]
  | wait n next ih => exact congrArg (wait n) ih
  | yield next ih => exact congrArg yield ih

theorem mapNotes_react {S : Signature} (take : ν → Process S Unit) (r : Reaction α) :
    (react r).mapNotes take = react r := by
  unfold react
  cases r.ending <;> rfl

private theorem le_length_timelineFrom (p : Process (.notes ν) α) (now : Nat) : now ≤ (p.timelineFrom now).length := by
  induction p generalizing now with
  | done | fault | hang => exact Nat.le_refl now
  | act n next ih => exact ih () now
  | wait n next ih => exact Nat.le_trans (Nat.le_add_right now n) (ih (now + n))
  | yield next ih => exact ih now

/-- What is left of a timeline at a time is beyond any earlier one. -/
theorem through_timelineFrom (p : Process (.notes ν) α) {limit now : Nat} (h : limit < now) :
    (p.timelineFrom now).through limit = ⟨[], limit, .returns none⟩ := by
  refine Timeline.through_of_later (fun beat hbeat => ?_) ?_
  · exact Nat.lt_of_lt_of_le h ((p.pairwise_timelineFrom now).2 beat hbeat)
  · exact Nat.lt_of_lt_of_le h (p.le_length_timelineFrom now)

/-! ### Playing them -/

/-- Where a process with this timeline stops that is played at an instant, after these notes: the timeline of what is
left of it is what is left of the timeline. -/
inductive Halts (now : Nat) (t : Timeline Entry α) (noted : Journal) : Stop α → Prop where
  | finished {a : α} (h : t = ⟨noted, now, .returns a⟩) : Halts now t noted (.finished a)
  | broke {message : String} (h : t = ⟨noted, now, .faults message⟩) : Halts now t noted (.broke message)
  | paused {due : Nat} {rest : Process (.notes Entry) α} (hd : now < due) (hs : rest.Swift)
    (h : t = (rest.timelineFrom due).after noted) : Halts now t noted (.paused due (rest.mapNotes RunProcess.note))
  | stuck (h : t = ⟨noted, now, .hangs⟩) : Halts now t noted .stuck

private theorem Halts.after {now : Nat} {t : Timeline Entry α} {noted : Journal} {stop : Stop α}
    (h : Halts now t noted stop)
    (earlier : Journal) : Halts now (t.after earlier) (earlier ++ noted) stop := by
  cases h with
  | finished h => exact .finished (by rw [h]; rfl)
  | broke h => exact .broke (by rw [h]; rfl)
  | paused hd hs h => exact .paused hd hs (by rw [h, Timeline.after_after])
  | stuck h => exact .stuck (by rw [h]; rfl)

/-- A process that only takes notes goes on until it has to wait. -/
theorem halts_play (partners : Partners) {p : Process (.notes Entry) α} {now : Nat} {s : Scene} (hp : p.Swift)
    (hnow : s.world.now = now) : ∃ noted : Journal,
      Halts now (p.timelineFrom now) noted ((p.mapNotes RunProcess.note).play partners (some now) s).1 ∧
      ((p.mapNotes RunProcess.note).play partners (some now) s).2.world.journal = s.world.journal ++ noted ∧
      ∀ x ∈ noted, x.1 = now := by
  induction p generalizing s with
  | done a => exact ⟨[], .finished rfl, (List.append_nil _).symm, fun _ h => nomatch h⟩
  | fault message => exact ⟨[], .broke rfl, (List.append_nil _).symm, fun _ h => nomatch h⟩
  | hang => exact ⟨[], .stuck rfl, (List.append_nil _).symm, fun _ h => nomatch h⟩
  | yield next => exact hp.elim
  | act entry next ih =>
    obtain ⟨noted, hhalts, hjournal, htimes⟩ := ih () hp (s := s.note entry) hnow
    refine ⟨(now, entry) :: noted, hhalts.after [(now, entry)], hjournal.trans ?_, fun x hx => ?_⟩
    · simp [Scene.note, hnow]
    · rcases List.mem_cons.1 hx with rfl | hx
      · rfl
      · exact htimes x hx
  | wait n next ih =>
    by_cases hn : n = 0
    · subst hn
      exact ih hp hnow
    · -- the wait is beyond the instant
      have hplay : ((wait n next : Process (.notes Entry) α).mapNotes RunProcess.note).play partners (some now) s =
          (.paused (now + n) (next.mapNotes RunProcess.note), s) := by
        simp [mapNotes, play, hn, hnow]
      rw [hplay]
      exact ⟨[], .paused (by omega) hp rfl, (List.append_nil _).symm, fun _ h => nomatch h⟩

end Process

end AgentLoop
