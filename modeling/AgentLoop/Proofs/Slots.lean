import AgentLoop.Proofs.Steps

/-!
# The next event

The next event of a service is the earliest of what its invocations have to do, and whoever has something to do can do
it when its slot has come.  So a service is never stuck: it runs on until nobody has anything to do.
-/

namespace AgentLoop

/-! ### The earliest slot -/

namespace Slot

private theorem earlier_eq (a b : Slot) : earlier a b = a ∨ earlier a b = b := by
  unfold earlier
  split
  · exact .inr rfl
  · exact .inl rfl

private theorem time_le_of_before {a b : Slot} (h : a.before b = true) : a.time ≤ b.time := by
  simp only [before, Bool.or_eq_true, Bool.and_eq_true, decide_eq_true_eq, beq_iff_eq] at h
  omega

private theorem time_le_of_not_before {a b : Slot} (h : b.before a = false) : a.time ≤ b.time := by
  simp only [before, Bool.or_eq_false_iff, decide_eq_false_iff_not] at h
  omega

theorem time_earlier_le (a b : Slot) : (earlier a b).time ≤ a.time ∧ (earlier a b).time ≤ b.time := by
  unfold earlier
  split
  · rename_i h
    exact ⟨time_le_of_before h, Nat.le_refl _⟩
  · rename_i h
    exact ⟨Nat.le_refl _, time_le_of_not_before (by simpa using h)⟩

theorem le_time_earlier {a b : Slot} {limit : Nat} (ha : limit ≤ a.time) (hb : limit ≤ b.time) :
    limit ≤ (earlier a b).time := by
  rcases earlier_eq a b with h | h
  · rwa [h]
  · rwa [h]

private theorem foldl_earlier (l : List Slot) (a : Slot) :
    l.foldl earlier a ∈ a :: l ∧ ∀ b ∈ a :: l, (l.foldl earlier a).time ≤ b.time := by
  induction l generalizing a with
  | nil => simp
  | cons c l ih =>
    obtain ⟨hmem, hle⟩ := ih (earlier a c)
    have hac := time_earlier_le a c
    have hfirst := hle _ (List.mem_cons_self ..)
    rw [List.foldl_cons]
    constructor
    · rcases List.mem_cons.1 hmem with h | h
      · rw [h]
        rcases earlier_eq a c with he | he <;> simp [he]
      · simp [h]
    · intro b hb
      rcases List.mem_cons.1 hb with rfl | hb
      · omega
      · rcases List.mem_cons.1 hb with rfl | hb
        · omega
        · exact hle b (List.mem_cons_of_mem _ hb)

private theorem earliest?_eq_some {l : List Slot} {a : Slot} (h : earliest? l = some a) :
    a ∈ l ∧ ∀ b ∈ l, a.time ≤ b.time := by
  cases l with
  | nil => cases h
  | cons b l => exact Option.some.inj h ▸ foldl_earlier l b

private theorem earliest?_eq_none {l : List Slot} : earliest? l = none ↔ l = [] := by
  cases l <;> simp [earliest?]

end Slot

/-! ### Slots that are alike before an instant -/

namespace Slot

variable {limit : Nat}

/-- The same slot, or both beyond an instant. -/
def Alike (limit : Nat) (a b : Slot) : Prop := a = b ∨ limit ≤ a.time ∧ limit ≤ b.time

theorem Alike.symm {a b : Slot} (h : Alike limit a b) : Alike limit b a := h.imp Eq.symm And.symm

theorem Alike.trans {a b c : Slot} (hab : Alike limit a b) (hbc : Alike limit b c) : Alike limit a c := by
  rcases hab with rfl | ⟨ha, hb⟩
  · exact hbc
  · rcases hbc with rfl | ⟨-, hc⟩
    · exact .inr ⟨ha, hb⟩
    · exact .inr ⟨ha, hc⟩

theorem Alike.earlier {a a' b b' : Slot} (ha : Alike limit a a') (hb : Alike limit b b') :
    Alike limit (earlier a b) (earlier a' b') := by
  have first {a b b' : Slot} (hlt : a.time < limit) (hb : limit ≤ b.time) (hb' : limit ≤ b'.time) :
      Slot.earlier a b = Slot.earlier a b' := by
    have hnot {c : Slot} (hc : limit ≤ c.time) : Slot.earlier a c = a := by
      rcases earlier_eq a c with h | h
      · exact h
      · have := (time_earlier_le a c).1
        rw [h] at this
        omega
    rw [hnot hb, hnot hb']
  have second {a a' b : Slot} (hlt : b.time < limit) (ha : limit ≤ a.time) (ha' : limit ≤ a'.time) :
      Slot.earlier a b = Slot.earlier a' b := by
    have hnot {c : Slot} (hc : limit ≤ c.time) : Slot.earlier c b = b := by
      rcases earlier_eq c b with h | h
      · have := (time_earlier_le c b).2
        rw [h] at this
        omega
      · exact h
    rw [hnot ha, hnot ha']
  rcases ha with rfl | ⟨ha, ha'⟩
  · rcases hb with rfl | ⟨hb, hb'⟩
    · exact .inl rfl
    · by_cases hlt : a.time < limit
      · exact .inl (first hlt hb hb')
      · have hle : limit ≤ a.time := Nat.le_of_not_lt hlt
        exact .inr ⟨le_time_earlier hle hb, le_time_earlier hle hb'⟩
  · rcases hb with rfl | ⟨hb, hb'⟩
    · by_cases hlt : b.time < limit
      · exact .inl (second hlt ha ha')
      · have hle : limit ≤ b.time := Nat.le_of_not_lt hlt
        exact .inr ⟨le_time_earlier ha hle, le_time_earlier ha' hle⟩
    · exact .inr ⟨le_time_earlier ha hb, le_time_earlier ha' hb'⟩

private theorem alike_foldl {α : Type} {f g : α → Option Slot} {l : List α}
    (hl : ∀ x ∈ l, Option.Rel (Alike limit) (f x) (g x)) {a b : Slot} (hab : Alike limit a b) :
    Alike limit ((l.filterMap f).foldl Slot.earlier a) ((l.filterMap g).foldl Slot.earlier b) := by
  induction l generalizing a b with
  | nil => exact hab
  | cons x l ih =>
    have hrest := fun y hy => hl y (List.mem_cons_of_mem _ hy)
    have hx := hl x (List.mem_cons_self ..)
    rw [List.filterMap_cons, List.filterMap_cons]
    generalize f x = fx at hx
    generalize g x = gx at hx
    cases hx with
    | none => exact ih hrest hab
    | some hx => exact ih hrest (hab.earlier hx)

theorem alike_earliest? {α : Type} {f g : α → Option Slot} {l : List α}
    (hl : ∀ x ∈ l, Option.Rel (Alike limit) (f x) (g x)) :
    Option.Rel (Alike limit) (earliest? (l.filterMap f)) (earliest? (l.filterMap g)) := by
  induction l with
  | nil => exact .none
  | cons x l ih =>
    have hrest := fun y hy => hl y (List.mem_cons_of_mem _ hy)
    have hx := hl x (List.mem_cons_self ..)
    rw [List.filterMap_cons, List.filterMap_cons]
    generalize f x = fx at hx
    generalize g x = gx at hx
    cases hx with
    | none => exact ih hrest
    | some hx => exact .some (alike_foldl hrest hx)

end Slot

namespace Service

variable {s : Service} {place : Nat} {inv : Invocation} {slot : Slot}

/-- Where in the order of events something comes that is due at a time, if it is not due already. -/
def slotAt (s : Service) (place time : Nat) : Slot :=
  if time ≤ s.now then ⟨s.now, s.lap + 1, place⟩ else ⟨time, 0, place⟩

/-- When an invocation is cut. -/
def cutAt (s : Service) (inv : Invocation) : Nat :=
  ((s.cancelledAt inv.token).map fun time => min time inv.deadline).getD inv.deadline

theorem slot?_eq (s : Service) (place : Nat) (inv : Invocation) :
    s.slot? place inv =
      match inv.stage with
      | .dormant => some ⟨inv.start, if inv.streams then 1 else 0, place⟩
      | .queued => some (s.slotAt place (s.cutAt inv))
      | .granted due lap => some (Slot.earlier ⟨due, lap, place⟩ (s.slotAt place (s.cutAt inv)))
      | .running (some p) => some (Slot.earlier ⟨p.due, p.lap, place⟩ (s.slotAt place (s.cutAt inv)))
      | .running none => some (s.slotAt place (s.cutAt inv))
      | .closing _ limit (some p) => some (Slot.earlier ⟨p.due, p.lap, place⟩ (s.slotAt place limit))
      | .closing _ limit none => some (s.slotAt place limit)
      | .marking _ _ due => some (s.slotAt place due)
      | .finished .. | .broken .. => none := rfl

private theorem place_slotAt (s : Service) (place time : Nat) : (s.slotAt place time).place = place := by
  unfold slotAt
  split <;> rfl

theorem time_slotAt (s : Service) (place time : Nat) : (s.slotAt place time).time = max s.now time := by
  unfold slotAt
  split <;> simp only <;> omega

/-- What an invocation has to do is its own. -/
private theorem place_slot? (h : s.slot? place inv = some slot) : slot.place = place := by
  have hearlier {a b : Slot} (ha : a.place = place) (hb : b.place = place) : (Slot.earlier a b).place = place := by
    rcases Slot.earlier_eq a b with h | h
    · rwa [h]
    · rwa [h]
  rw [slot?_eq] at h
  split at h <;> cases h
  · rfl
  · exact s.place_slotAt place _
  · exact hearlier rfl (s.place_slotAt place _)
  · exact hearlier rfl (s.place_slotAt place _)
  · exact s.place_slotAt place _
  · exact hearlier rfl (s.place_slotAt place _)
  · exact s.place_slotAt place _
  · exact s.place_slotAt place _

/-- The next event is something that an invocation has to do, and nobody has to do anything before. -/
structure Next (s : Service) (slot : Slot) (inv : Invocation) : Prop where
  getElem? : s.invocations[slot.place]? = some inv
  slot? : s.slot? slot.place inv = some slot
  time_le {place : Nat} {other : Invocation} {later : Slot} (hi : s.invocations[place]? = some other)
    (h : s.slot? place other = some later) : slot.time ≤ later.time

theorem next_of_next? (h : s.next? = some slot) : ∃ inv, s.Next slot inv := by
  obtain ⟨hmem, hle⟩ := Slot.earliest?_eq_some h
  obtain ⟨⟨inv, place⟩, hz, hs⟩ := List.mem_filterMap.1 hmem
  have hi := List.mem_zipIdx_iff_getElem?.1 hz
  have hp := place_slot? hs
  dsimp only at hi hp
  refine ⟨inv, hp ▸ hi, hp ▸ hs, fun {j other later} hj hlater => ?_⟩
  exact hle later (List.mem_filterMap.2 ⟨(other, j), List.mem_zipIdx_iff_getElem?.2 hj, hlater⟩)

theorem exists_next? (hi : s.invocations[place]? = some inv) (h : s.slot? place inv = some slot) :
    ∃ first, s.next? = some first := by
  cases hn : s.next? with
  | some first => exact ⟨first, rfl⟩
  | none =>
    have hnil := Slot.earliest?_eq_none.1 hn
    have hnone : s.slot? place inv = none :=
      List.filterMap_eq_nil_iff.1 hnil (inv, place) (List.mem_zipIdx_iff_getElem?.2 hi)
    rw [hnone] at h
    cases h

/-! ### Cuts -/

/-- All times at which a token is or may be cancelled. -/
def cancelTimes (s : Service) (token : Nat) : List Nat :=
  (s.cancellations.filterMap fun (t, time) => if t == token then some time else none) ++
    s.invocations.filterMap fun inv => if inv.isLive && inv.token == token then inv.dropsAt else none

private theorem cancelledAt_eq (s : Service) (token : Nat) : s.cancelledAt token = (s.cancelTimes token).min? := rfl

theorem mem_cancelTimes {token time : Nat} (h : (token, time) ∈ s.cancellations) : time ∈ s.cancelTimes token :=
  List.mem_append_left _ (List.mem_filterMap.2 ⟨(token, time), h, by simp⟩)

private theorem exists_min?_le {l : List Nat} {n : Nat} : (∃ m, l.min? = some m ∧ m ≤ n) ↔ ∃ m ∈ l, m ≤ n := by
  constructor
  · rintro ⟨m, hm, hle⟩
    exact ⟨m, (List.min?_eq_some_iff.1 hm).1, hle⟩
  · rintro ⟨m, hm, hle⟩
    cases hmin : l.min? with
    | none => rw [List.min?_eq_none_iff.1 hmin] at hm; cases hm
    | some first => exact ⟨first, rfl, Nat.le_trans ((List.min?_eq_some_iff.1 hmin).2 m hm) hle⟩

theorem isCancelled_iff {token : Nat} : s.isCancelled token = true ↔ ∃ time ∈ s.cancelTimes token, time ≤ s.now := by
  rw [← exists_min?_le, ← cancelledAt_eq]
  cases h : s.cancelledAt token <;> simp [isCancelled, h]

/-- An invocation is cut when its token is cancelled, or at its deadline. -/
theorem cutAt_le_iff {n : Nat} :
    s.cutAt inv ≤ n ↔ (∃ time ∈ s.cancelTimes inv.token, time ≤ n) ∨ inv.deadline ≤ n := by
  rw [← exists_min?_le, ← cancelledAt_eq, cutAt]
  cases h : s.cancelledAt inv.token with
  | none => simp
  | some time =>
    simp only [Option.map_some, Option.getD_some, Option.some.injEq, exists_eq_left']
    omega

theorem mem_cancellations_noteDrop {entry : Nat × Nat} (inv : Invocation) (h : entry ∈ s.cancellations) :
    entry ∈ (s.noteDrop inv).cancellations := by
  unfold noteDrop
  split
  · split
    · exact List.mem_append_left _ h
    · exact h
  · exact h

theorem mem_cancelTimes_noteDrop {token time : Nat} (inv : Invocation) (h : time ∈ s.cancelTimes token) :
    time ∈ (s.noteDrop inv).cancelTimes token := by
  rcases List.mem_append.1 h with h | h
  · obtain ⟨entry, he, ht⟩ := List.mem_filterMap.1 h
    exact List.mem_append_left _ (List.mem_filterMap.2 ⟨entry, mem_cancellations_noteDrop inv he, ht⟩)
  · refine List.mem_append_right _ ?_
    rwa [invocations_noteDrop]

/-- A consumer who leaves was going to. -/
theorem mem_cancelTimes_of_noteDrop {token time : Nat} (hi : s.invocations[place]? = some inv)
    (h : time ∈ (s.noteDrop inv).cancelTimes token) : time ∈ s.cancelTimes token := by
  unfold noteDrop at h
  split at h
  · rename_i left hd
    split at h
    · rename_i hlive
      rcases List.mem_append.1 h with hheld | hdrop
      · obtain ⟨⟨t, time'⟩, he, ht⟩ := List.mem_filterMap.1 hheld
        rcases List.mem_append.1 he with he | he
        · exact List.mem_append_left _ (List.mem_filterMap.2 ⟨_, he, ht⟩)
        · obtain ⟨rfl, rfl⟩ : t = inv.token ∧ time' = left := by simpa using he
          refine List.mem_append_right _ (List.mem_filterMap.2 ⟨inv, List.mem_of_getElem? hi, ?_⟩)
          simp only [Bool.and_eq_true] at hlive
          simpa [hlive.1.1, hd] using ht
      · exact List.mem_append_right _ hdrop
    · exact h
  · exact h

/-- When its time has come, an invocation is cut. -/
private theorem cut_of_cutAt_le (h : s.cutAt inv ≤ slot.time) :
    ((s.atSlot slot).noteDrop inv).isCancelled inv.token = true ∨ inv.deadline ≤ slot.time := by
  have hnow : ((s.atSlot slot).noteDrop inv).now = slot.time := congrArg World.now (world_noteDrop _ inv)
  refine (cutAt_le_iff.1 h).imp (fun ⟨time, ht, hle⟩ => ?_) id
  exact isCancelled_iff.2 ⟨time, mem_cancelTimes_noteDrop (s := s.atSlot slot) inv ht, hnow ▸ hle⟩

end Service

/-! ### Nobody is stuck -/

namespace Engine

variable {e : Engine} {s : Service} {place : Nat} {inv : Invocation} {slot : Slot}

private theorem isSome_cut? {leave : Service → Service} (h : s.isCancelled inv.token = true ∨ inv.deadline ≤ s.now) :
    (e.cut? s place inv leave).isSome := by
  unfold cut?
  split
  · rfl
  · rename_i hc
    rcases h with h | h
    · exact absurd h hc
    · rw [if_pos h]
      rfl

/-- An invocation that waits for something to be due, or else to be cut, does one of them when its slot has come. -/
private theorem isSome_due_or_cut {leave : Service → Service} {due lap : Nat} {t : Service}
    (hs : slot = Slot.earlier ⟨due, lap, place⟩ (s.slotAt place (s.cutAt inv))) :
    (if !((s.atSlot slot).noteDrop inv).isCancelled inv.token && due ≤ ((s.atSlot slot).noteDrop inv).now then some t
      else e.cut? ((s.atSlot slot).noteDrop inv) place inv leave).isSome := by
  have hnow : ((s.atSlot slot).noteDrop inv).now = slot.time := congrArg World.now (Service.world_noteDrop _ inv)
  split
  · rfl
  · rename_i hd
    refine isSome_cut? ?_
    rw [hnow] at hd ⊢
    rcases Slot.earlier_eq ⟨due, lap, place⟩ (s.slotAt place (s.cutAt inv)) with he | he
    · have hdue : due ≤ slot.time := Nat.le_of_eq (congrArg Slot.time (hs.trans he)).symm
      left
      simpa [hdue] using hd
    · refine Service.cut_of_cutAt_le ?_
      rw [hs, he, Service.time_slotAt]
      omega

/-- Whoever comes next can do something. -/
theorem isSome_stepAt? (h : s.next? = some slot) : (e.stepAt? s slot).isSome := by
  obtain ⟨inv, hn⟩ := Service.next_of_next? h
  have hslot := hn.slot?
  have hnow : ((s.atSlot slot).noteDrop inv).now = slot.time := congrArg World.now (Service.world_noteDrop _ inv)
  have hcut {leave : Service → Service} (hs : slot = s.slotAt slot.place (s.cutAt inv)) :
      (e.cut? ((s.atSlot slot).noteDrop inv) slot.place inv leave).isSome := by
    refine isSome_cut? ?_
    rw [hnow]
    refine Service.cut_of_cutAt_le ?_
    rw [hs, Service.time_slotAt]
    omega
  rw [stepAt?, hn.getElem?]
  show (e.poll? (s.atSlot slot) slot.place inv).isSome
  rw [Service.slot?_eq] at hslot
  unfold poll?
  dsimp only
  generalize inv.stage = stage at hslot
  cases stage with
  | dormant =>
    have hstart : inv.start = slot.time := congrArg Slot.time (Option.some.inj hslot)
    dsimp only
    rw [if_neg (by omega)]
    repeat' split
    all_goals rfl
  | queued => exact hcut (Option.some.inj hslot).symm
  | granted due lap => exact isSome_due_or_cut (Option.some.inj hslot).symm
  | running pending =>
    cases pending with
    | none => exact hcut (Option.some.inj hslot).symm
    | some p => exact isSome_due_or_cut (Option.some.inj hslot).symm
  | closing report limit pending =>
    cases pending with
    | none =>
      have htime := congrArg Slot.time (Option.some.inj hslot)
      rw [Service.time_slotAt] at htime
      dsimp only
      rw [if_pos (by omega)]
      rfl
    | some p =>
      have htime := congrArg Slot.time (Option.some.inj hslot)
      dsimp only
      split
      · rfl
      · rw [if_pos ?_]
        · rfl
        · rcases Slot.earlier_eq ⟨p.due, p.lap, slot.place⟩ (s.slotAt slot.place limit) with he | he
          · rw [he] at htime
            dsimp only at htime
            omega
          · rw [he, Service.time_slotAt] at htime
            omega
  | marking report ended due =>
    have htime := congrArg Slot.time (Option.some.inj hslot)
    rw [Service.time_slotAt] at htime
    dsimp only
    rw [if_pos (by omega)]
    rfl
  | finished | broken => cases hslot

end Engine

end AgentLoop
