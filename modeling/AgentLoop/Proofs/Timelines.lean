import AgentLoop.Proofs.Played
import AgentLoop.Round
import Mathlib.Data.List.Basic

/-!
# Timelines

A process that goes on with another has the beats of both, those of the second from the instant at which the first
returns.  Beats come in the order of their times; where timelines are interleaved they still do, and those of one
instant come in the order of their timelines.
-/

namespace AgentLoop

/-- The same ending, with another value. -/
def Ending.map {α β : Type} (f : α → β) : Ending α → Ending β
  | .returns a => .returns (f a)
  | .faults message => .faults message
  | .hangs => .hangs

namespace Timeline

variable {ν α : Type} {t : Timeline ν α} {limit : Nat}

/-- With beats that come before its own. -/
def after (earlier : List (Nat × ν)) (t : Timeline ν α) : Timeline ν α := { t with beats := earlier ++ t.beats }

theorem after_after (earlier later : List (Nat × ν)) (t : Timeline ν α) :
    (t.after later).after earlier = t.after (earlier ++ later) :=
  congrArg (fun beats => (⟨beats, t.length, t.ending⟩ : Timeline ν α)) (List.append_assoc ..).symm

/-! ### Cutting a timeline -/

theorem takeWhile_eq_filter {beats : List (Nat × ν)} (h : beats.Pairwise fun a b => a.1 ≤ b.1) (limit : Nat) :
    (beats.takeWhile fun beat => beat.1 < limit) = beats.filter fun beat => beat.1 < limit := by
  induction beats with
  | nil => rfl
  | cons first rest ih =>
    obtain ⟨hfirst, hrest⟩ := List.pairwise_cons.1 h
    by_cases hlt : first.1 < limit
    · rw [List.takeWhile_cons_of_pos (by simpa using hlt), List.filter_cons_of_pos (by simpa using hlt), ih hrest]
    · rw [List.takeWhile_cons_of_neg (by simpa using hlt), List.filter_cons_of_neg (by simpa using hlt), eq_comm,
        List.filter_eq_nil_iff]
      intro beat hbeat
      have hle := hfirst beat hbeat
      simp only [decide_eq_true_eq]
      omega

/-- What is not over before it is cut is left without a value. -/
theorem upTo_of_le (h : t.ending = .hangs ∨ limit ≤ t.length) :
    t.upTo (some limit) = ⟨t.before limit, limit, .returns none⟩ := by
  unfold upTo
  cases hending : t.ending with
  | hangs => rfl
  | returns | faults =>
    rw [hending] at h
    have hle : limit ≤ t.length := h.resolve_left (by simp)
    simp [hle]

/-- What is over before it would be cut stays as it is. -/
theorem upTo_of_over {limit : Option Nat} (h : ∀ n, limit = some n → t.ending ≠ .hangs ∧ t.length < n) :
    t.upTo limit = ⟨t.beats, t.length, t.ending.map some⟩ := by
  unfold upTo
  cases limit with
  | none => cases t.ending <;> rfl
  | some n =>
    obtain ⟨hending, hlt⟩ := h n rfl
    have hlater : ¬ n ≤ t.length := by omega
    cases he : t.ending with
    | hangs => exact absurd he hending
    | returns | faults => simp [hlater, Ending.map]

end Timeline

/-! ### One process after another -/

namespace Timeline

variable {ν α β : Type}

/-- What follows once a timeline has returned, at that instant. -/
def andThen (t : Timeline ν α) (next : α → Nat → Timeline ν β) : Timeline ν β :=
  match t.ending with
  | .returns a => (next a t.length).after t.beats
  | .faults message => ⟨t.beats, t.length, .faults message⟩
  | .hangs => ⟨t.beats, t.length, .hangs⟩

theorem andThen_of_returns {t : Timeline ν α} {a : α} (h : t.ending = .returns a) (next : α → Nat → Timeline ν β) :
    t.andThen next = (next a t.length).after t.beats := by
  unfold andThen
  rw [h]

theorem after_of_no_beats (earlier : List (Nat × ν)) (length : Nat) (ending : Ending α) :
    (⟨[], length, ending⟩ : Timeline ν α).after earlier = ⟨earlier, length, ending⟩ :=
  congrArg (fun beats => (⟨beats, length, ending⟩ : Timeline ν α)) (List.append_nil earlier)

end Timeline

/-- Notes are taken in the order of their times. -/
theorem Process.pairwise_timelineFrom {ν α : Type} (p : Process (.notes ν) α) (now : Nat) :
    (p.timelineFrom now).beats.Pairwise (fun a b => a.1 ≤ b.1) ∧
      ∀ beat ∈ (p.timelineFrom now).beats, now ≤ beat.1 := by
  induction p generalizing now with
  | done | fault | hang => exact ⟨.nil, fun _ h => nomatch h⟩
  | act n next ih =>
    obtain ⟨hrest, hlater⟩ := ih () now
    refine ⟨List.pairwise_cons.2 ⟨fun beat hbeat => hlater beat hbeat, hrest⟩, fun beat hbeat => ?_⟩
    rcases List.mem_cons.1 hbeat with rfl | hbeat
    · exact Nat.le_refl now
    · exact hlater beat hbeat
  | wait n next ih =>
    obtain ⟨hrest, hlater⟩ := ih (now + n)
    exact ⟨hrest, fun beat hbeat => Nat.le_trans (Nat.le_add_right now n) (hlater beat hbeat)⟩
  | yield next ih => exact ih now

namespace Process

variable {ν α β : Type}

theorem timelineFrom_bind (p : Process (.notes ν) α) (f : α → Process (.notes ν) β) (now : Nat) :
    (p >>= f).timelineFrom now = (p.timelineFrom now).andThen fun a later => (f a).timelineFrom later := by
  show (p.bind f).timelineFrom now = _
  induction p generalizing now with
  | done | fault | hang => rfl
  | act n next ih =>
    have hact (q : Unit → Process (.notes ν) β) : (act n q).timelineFrom now = ((q ()).timelineFrom now).after [(now, n)] :=
      rfl
    have hbeats : ((act n next).timelineFrom now).beats = (now, n) :: ((next ()).timelineFrom now).beats := rfl
    have hending : ((act n next).timelineFrom now).ending = ((next ()).timelineFrom now).ending := rfl
    show (act n fun answer => (next answer).bind f).timelineFrom now = _
    rw [hact, ih]
    unfold Timeline.andThen
    rw [hending, hbeats]
    cases ((next ()).timelineFrom now).ending with
    | returns a => exact Timeline.after_after ..
    | faults | hangs => rfl
  | wait n next ih => exact ih (now + n)
  | yield next ih => exact ih now

theorem timelineFrom_react (r : Reaction α) (now : Nat) :
    (react r : Process (.notes ν) α).timelineFrom now = ⟨[], now + r.after, r.ending⟩ := by
  unfold react timelineFrom
  cases r.ending <;> rfl

end Process

/-! ### Side by side -/

namespace Timeline

variable {ν : Type} {lists : List (List (Nat × ν))} {place : Nat}

/-- Several lists of beats interleaved, each beat with the place of its list, if they are counted from this place on. -/
def placed (place : Nat) : List (List (Nat × ν)) → List (Nat × Nat × ν)
  | [] => []
  | beats :: rest => interleave (beats.map fun beat => (beat.1, place, beat.2)) (placed (place + 1) rest)

theorem map_placed (place : Nat) (lists : List (List (Nat × ν))) :
    (placed place lists).map (fun beat => (beat.1, beat.2.2)) = lists.foldr interleave [] := by
  induction lists generalizing place with
  | nil => rfl
  | cons beats rest ih =>
    have hmerge : (placed place (beats :: rest)).map (fun beat => (beat.1, beat.2.2)) =
        interleave ((beats.map fun beat => (beat.1, place, beat.2)).map fun beat => (beat.1, beat.2.2))
          ((placed (place + 1) rest).map fun beat => (beat.1, beat.2.2)) := by
      simp only [placed, interleave_eq_merge]
      exact List.map_merge fun _ _ _ _ => rfl
    have hown : (beats.map fun beat => (beat.1, place, beat.2)).map (fun beat => (beat.1, beat.2.2)) = beats := by
      rw [List.map_map]
      exact List.map_id beats
    rw [hmerge, hown, ih, List.foldr_cons]

theorem le_of_mem_placed {beat : Nat × Nat × ν} (h : beat ∈ placed place lists) : place ≤ beat.2.1 := by
  induction lists generalizing place with
  | nil => cases h
  | cons beats rest ih =>
    rw [placed, interleave_eq_merge] at h
    rcases List.mem_merge.1 h with h | h
    · obtain ⟨own, -, rfl⟩ := List.mem_map.1 h
      exact Nat.le_refl place
    · exact Nat.le_of_succ_le (ih h)

theorem mem_placed_iff {i time : Nat} {note : ν} : (time, place + i, note) ∈ placed place lists ↔
    ∃ beats, lists[i]? = some beats ∧ (time, note) ∈ beats := by
  induction lists generalizing place i with
  | nil => simp [placed]
  | cons beats rest ih =>
    rw [placed, interleave_eq_merge, List.mem_merge]
    cases i with
    | zero =>
      rw [List.getElem?_cons_zero]
      constructor
      · rintro (h | h)
        · obtain ⟨own, hown, heq⟩ := List.mem_map.1 h
          obtain ⟨rfl, -, rfl⟩ : own.1 = time ∧ place = place ∧ own.2 = note := by simpa using heq
          exact ⟨beats, rfl, hown⟩
        · -- the others have later places
          have hle : place + 1 ≤ place := le_of_mem_placed h
          omega
      · rintro ⟨own, heq, hown⟩
        obtain rfl := Option.some.inj heq
        exact .inl (List.mem_map.2 ⟨_, hown, rfl⟩)
    | succ i =>
      have hplace : place + (i + 1) = place + 1 + i := by omega
      rw [List.getElem?_cons_succ, hplace, ih]
      refine or_iff_right ?_
      rintro h
      obtain ⟨own, -, heq⟩ := List.mem_map.1 h
      obtain ⟨-, hown, -⟩ : own.1 = time ∧ place = place + 1 + i ∧ own.2 = note := by simpa using heq
      omega

/-- One beat comes before another, or at the same time and from no later place. -/
def Precedes (a b : Nat × Nat × ν) : Prop := a.1 < b.1 ∨ a.1 = b.1 ∧ a.2.1 ≤ b.2.1

instance : DecidableRel (Precedes (ν := ν)) := fun _ _ => inferInstanceAs (Decidable (_ ∨ _))

theorem pairwise_placed (h : ∀ beats ∈ lists, beats.Pairwise fun a b => a.1 ≤ b.1) (place : Nat) :
    (placed place lists).Pairwise Precedes := by
  induction lists generalizing place with
  | nil => exact .nil
  | cons beats rest ih =>
    have hown : (beats.map fun beat => (beat.1, place, beat.2)).Pairwise Precedes := by
      rw [List.pairwise_map]
      refine (h beats (List.mem_cons_self ..)).imp fun {a b} hle => ?_
      rcases Nat.lt_or_eq_of_le hle with hlt | heq
      · exact .inl hlt
      · exact .inr ⟨heq, Nat.le_refl place⟩
    have hrest := ih (fun beats hbeats => h beats (List.mem_cons_of_mem _ hbeats)) (place + 1)
    -- where the times agree, it is the places that decide
    have hmerge : (placed place (beats :: rest)).map id =
        ((beats.map fun beat => (beat.1, place, beat.2)).map id).merge ((placed (place + 1) rest).map id)
          fun a b => decide (Precedes a b) := by
      rw [placed, interleave_eq_merge]
      refine List.map_merge fun a ha b hb => ?_
      obtain ⟨own, -, rfl⟩ := List.mem_map.1 ha
      have hle : place + 1 ≤ b.2.1 := le_of_mem_placed hb
      refine decide_eq_decide.2 ?_
      unfold Precedes
      dsimp only [id]
      omega
    rw [List.map_id, List.map_id, List.map_id] at hmerge
    rw [hmerge]
    refine (List.pairwise_merge (fun a b c hab hbc => ?_) (fun a b => ?_) _ _ (hown.imp decide_eq_true)
      (hrest.imp decide_eq_true)).imp of_decide_eq_true
    · have hab := of_decide_eq_true hab
      have hbc := of_decide_eq_true hbc
      refine decide_eq_true ?_
      unfold Precedes at *
      omega
    · rw [Bool.or_eq_true, decide_eq_true_iff, decide_eq_true_iff]
      unfold Precedes
      omega

end Timeline

end AgentLoop
