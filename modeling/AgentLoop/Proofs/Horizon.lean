import AgentLoop.Proofs.Slots

/-!
# What lies beyond the horizon

Deadlines that are still to come and cancellations that are still to happen make no difference until then.  A service
that is seen only `upTo` a horizon has its deadlines drawn in to it and the cancellations beyond it left out; what it
does before the horizon is what the service does that is seen as it is.
-/

namespace AgentLoop

/-- How far the deadlines of each invocation are seen, and how far cancellations are. -/
structure Horizon where
  deadlines : Nat → Nat
  cancellations : Nat

/-- Everything before an instant is seen. -/
structure Horizon.Reaches (h : Horizon) (limit : Nat) : Prop where
  deadlines (place : Nat) : limit ≤ h.deadlines place
  cancellations : limit ≤ h.cancellations

def Stage.upTo (limit : Nat) : Stage → Stage
  | closing report closingLimit pending => closing report (min closingLimit limit) pending
  | stage => stage

def Invocation.upTo (limit : Nat) (inv : Invocation) : Invocation :=
  { inv with deadline := min inv.deadline limit, stage := inv.stage.upTo limit }

def Service.upTo (h : Horizon) (s : Service) : Service :=
  { s with
    invocations := s.invocations.mapIdx fun place inv => inv.upTo (h.deadlines place)
    cancellations := s.cancellations.filter fun (_, time) => time < h.cancellations }

variable {h : Horizon} {limit : Nat} {e : Engine} {s : Service} {place : Nat} {inv : Invocation}

private theorem Stage.isWaiting_upTo (limit : Nat) (stage : Stage) :
    (stage.upTo limit).isWaiting = stage.isWaiting := by
  cases stage <;> rfl

private theorem Stage.report?_upTo (limit : Nat) (stage : Stage) : (stage.upTo limit).report? = stage.report? := by
  cases stage <;> rfl

private theorem Stage.upTo_upTo (limit : Nat) (stage : Stage) : (stage.upTo limit).upTo limit = stage.upTo limit := by
  cases stage <;> simp [upTo]

private theorem Invocation.upTo_upTo (limit : Nat) (inv : Invocation) :
    (inv.upTo limit).upTo limit = inv.upTo limit := by
  simp [upTo, Stage.upTo_upTo]

private theorem Invocation.isLive_upTo (limit : Nat) (inv : Invocation) : (inv.upTo limit).isLive = inv.isLive := by
  cases hs : inv.stage <;> simp [upTo, isLive, hs, Stage.upTo]

namespace Service

theorem getElem?_upTo (h : Horizon) (s : Service) (place : Nat) :
    (s.upTo h).invocations[place]? = s.invocations[place]?.map (·.upTo (h.deadlines place)) := by
  simp [upTo]

private theorem upTo_upTo (h : Horizon) (s : Service) : (s.upTo h).upTo h = s.upTo h := by
  simp [upTo, List.mapIdx_mapIdx, Function.comp_def, Invocation.upTo_upTo]

/-! ### Services and their parts -/

private theorem upTo_put (h : Horizon) (s : Service) (place : Nat) (inv : Invocation) (stage : Stage) :
    (s.put place inv stage).upTo h =
      (s.upTo h).put place (inv.upTo (h.deadlines place)) (stage.upTo (h.deadlines place)) := by
  simp [put, upTo, List.mapIdx_set, Invocation.upTo]

private theorem upTo_grant (h : Horizon) (s : Service) (place : Nat) :
    (s.grant place).upTo h = (s.upTo h).grant place := by
  unfold grant
  rw [getElem?_upTo]
  cases s.invocations[place]? with
  | none => rfl
  | some inv =>
    dsimp only [Option.map_some]
    cases hs : inv.stage <;> simp only [Invocation.upTo, hs, Stage.upTo]
    rw [upTo_put]
    simp only [Invocation.upTo, hs, Stage.upTo]
    rfl

private theorem upTo_release (h : Horizon) (s : Service) : s.release.upTo h = (s.upTo h).release := by
  unfold release
  have hq : (s.upTo h).queue = s.queue := rfl
  rw [hq]
  split
  · rfl
  · exact upTo_grant h { s with queue := _ } _

private theorem upTo_putMark (h : Horizon) (s : Service) (place : Nat) (inv : Invocation) (report : Report)
    (ended : Nat) :
    (s.putMark place inv report ended).upTo h =
      (s.upTo h).putMark place (inv.upTo (h.deadlines place)) report ended := by
  unfold putMark
  have hfeed : (inv.upTo (h.deadlines place)).feed.room (s.upTo h).now = inv.feed.room s.now := rfl
  rw [hfeed]
  split <;> exact upTo_put ..

private theorem upTo_finish (h : Horizon) (s : Service) (place : Nat) (inv : Invocation) (report : Report) :
    (s.finish place inv report).upTo h = (s.upTo h).finish place (inv.upTo (h.deadlines place)) report := by
  unfold finish
  have hfeed : (inv.upTo (h.deadlines place)).feed.room (s.upTo h).now = inv.feed.room s.now := rfl
  have hstreams : (inv.upTo (h.deadlines place)).streams = inv.streams := rfl
  rw [hfeed, hstreams]
  split
  · exact upTo_put ..
  · exact upTo_putMark ..
  · exact upTo_put ..

/-! ### Cancellations -/

theorem mem_cancelTimes_upTo {token time : Nat} (ht : time < h.cancellations) :
    time ∈ (s.upTo h).cancelTimes token ↔ time ∈ s.cancelTimes token := by
  have hheld {entry : Nat × Nat} (hentry : (if entry.1 == token then some entry.2 else none) = some time) :
      entry ∈ (s.upTo h).cancellations ↔ entry ∈ s.cancellations := by
    have htime : entry.2 = time := by
      split at hentry
      · exact Option.some.inj hentry
      · cases hentry
    simp [upTo, List.mem_filter, htime, ht]
  have hdrop (f : Invocation → Option Nat) (hf : ∀ limit inv, f (inv.upTo limit) = f inv) :
      (∃ inv ∈ (s.upTo h).invocations, f inv = some time) ↔ ∃ inv ∈ s.invocations, f inv = some time := by
    constructor
    · rintro ⟨inv, hi, hfi⟩
      obtain ⟨place, hlt, rfl⟩ := List.mem_mapIdx.1 hi
      exact ⟨_, List.getElem_mem hlt, (hf ..).symm.trans hfi⟩
    · rintro ⟨inv, hi, hfi⟩
      obtain ⟨place, hlt, rfl⟩ := List.getElem_of_mem hi
      exact ⟨_, List.mem_mapIdx.2 ⟨place, hlt, rfl⟩, (hf ..).trans hfi⟩
  rw [cancelTimes, cancelTimes, List.mem_append, List.mem_append, List.mem_filterMap, List.mem_filterMap,
    List.mem_filterMap, List.mem_filterMap]
  refine or_congr (exists_congr fun entry => and_congr_left fun he => hheld he) (hdrop _ fun limit inv => ?_)
  rw [inv.isLive_upTo limit]
  rfl

private theorem isCancelled_upTo (hn : s.now < h.cancellations) (token : Nat) :
    (s.upTo h).isCancelled token = s.isCancelled token := by
  rw [Bool.eq_iff_iff, isCancelled_iff, isCancelled_iff]
  refine exists_congr fun time => and_congr_left fun ht => mem_cancelTimes_upTo ?_
  exact Nat.lt_of_le_of_lt ht hn

private theorem upTo_noteDrop (hn : s.now < h.cancellations) (limit : Nat) (inv : Invocation) :
    (s.noteDrop inv).upTo h = (s.upTo h).noteDrop (inv.upTo limit) := by
  unfold noteDrop
  have hdrops : (inv.upTo limit).dropsAt = inv.dropsAt := rfl
  rw [hdrops, inv.isLive_upTo limit]
  split
  · rename_i time _
    have hnow : (s.upTo h).now = s.now := rfl
    rw [hnow]
    by_cases ht : time ≤ s.now
    · have hlt : time < h.cancellations := Nat.lt_of_le_of_lt ht hn
      have hcontains : (s.upTo h).cancellations.contains (inv.token, time) =
          s.cancellations.contains (inv.token, time) := by
        simp [upTo, List.mem_filter, hlt]
      have htoken : (inv.upTo limit).token = inv.token := rfl
      rw [htoken, hcontains]
      split
      · simp [upTo, List.filter_append, hlt]
      · rfl
    · simp [ht]
  · rfl

end Service

/-! ### Closing -/

namespace Engine

private theorem upTo_complete (h : Horizon) (s : Service) (place : Nat) (inv : Invocation) (report : Report) :
    (e.complete s place inv report).upTo h =
      e.complete (s.upTo h) place (inv.upTo (h.deadlines place)) report := by
  unfold complete
  exact Service.upTo_finish h { s with world := _ } ..

private theorem upTo_close {rest : RunProcess Unit} {report : Report} {closingLimit : Nat} (hr : h.Reaches limit)
    (hn : s.now < limit) :
    (e.close s place inv report closingLimit rest).upTo h =
      e.close (s.upTo h) place (inv.upTo (h.deadlines place)) report (min closingLimit (h.deadlines place)) rest := by
  have hplay : rest.play e.partners (some (s.upTo h).now) ⟨(s.upTo h).world, (inv.upTo (h.deadlines place)).feed⟩ =
      rest.play e.partners (some s.now) ⟨s.world, inv.feed⟩ := rfl
  have hnow : (rest.play e.partners (some s.now) ⟨s.world, inv.feed⟩).2.world.now = s.now := Process.now_play rest rfl
  have hreach := hr.deadlines place
  unfold close
  rw [hplay]
  generalize rest.play e.partners (some s.now) ⟨s.world, inv.feed⟩ = result at hnow
  obtain ⟨stop, scene⟩ := result
  have hlimit : (min closingLimit (h.deadlines place) ≤ Service.now { s.upTo h with world := scene.world }) ↔
      closingLimit ≤ Service.now { s with world := scene.world } := by
    show min closingLimit (h.deadlines place) ≤ scene.world.now ↔ closingLimit ≤ scene.world.now
    dsimp only at hnow
    omega
  cases stop with
  | finished => exact upTo_complete h { s with world := scene.world } ..
  | broke message => exact Service.upTo_put h { s with world := scene.world } ..
  | paused due rest' =>
    dsimp only
    split
    · rename_i hc
      rw [if_pos (hlimit.2 hc)]
      exact upTo_complete h { s with world := scene.world } ..
    · rename_i hc
      rw [if_neg (mt hlimit.1 hc)]
      exact Service.upTo_put h { s with world := scene.world } ..
  | stuck =>
    dsimp only
    split
    · rename_i hc
      rw [if_pos (hlimit.2 hc)]
      exact upTo_complete h { s with world := scene.world } ..
    · rename_i hc
      rw [if_neg (mt hlimit.1 hc)]
      exact Service.upTo_put h { s with world := scene.world } ..

/-- The time that hooks have may reach beyond the horizon where it did not seem to. -/
private theorem upTo_conclude {report : Report} (hr : h.Reaches limit) (hn : s.now < limit) :
    (e.conclude s place inv report).upTo h =
      (e.conclude (s.upTo h) place (inv.upTo (h.deadlines place)) report).upTo h := by
  have hlimit : min (max inv.deadline (s.now + hookGrace)) (h.deadlines place) =
      min (max (min inv.deadline (h.deadlines place)) (s.now + hookGrace)) (h.deadlines place) := by omega
  rw [conclude, conclude, upTo_close hr hn, upTo_close (s := s.upTo h) hr hn, Service.upTo_upTo,
    Invocation.upTo_upTo, hlimit]
  rfl

/-! ### Running -/

private theorem upTo_put_upTo (h : Horizon) (s : Service) (place : Nat) (inv : Invocation) (stage : Stage) :
    (s.put place inv stage).upTo h = ((s.upTo h).put place (inv.upTo (h.deadlines place)) stage).upTo h := by
  rw [Service.upTo_put, Service.upTo_put, Service.upTo_upTo, Invocation.upTo_upTo]

private theorem upTo_resume {rest : RunProcess (Except RunError Outcome)} (hr : h.Reaches limit) (hn : s.now < limit) :
    (e.resume s place inv rest).upTo h =
      (e.resume (s.upTo h) place (inv.upTo (h.deadlines place)) rest).upTo h := by
  have hplay : rest.play e.partners (some (s.upTo h).now) ⟨(s.upTo h).world, (inv.upTo (h.deadlines place)).feed⟩ =
      rest.play e.partners (some s.now) ⟨s.world, inv.feed⟩ := rfl
  have hnow : (rest.play e.partners (some s.now) ⟨s.world, inv.feed⟩).2.world.now = s.now := Process.now_play rest rfl
  have hreach := hr.deadlines place
  unfold resume
  rw [hplay]
  generalize rest.play e.partners (some s.now) ⟨s.world, inv.feed⟩ = result at hnow
  obtain ⟨stop, scene⟩ := result
  have hscene : Service.now { s with world := scene.world } < limit := Nat.lt_of_le_of_lt (Nat.le_of_eq hnow) hn
  have concludes (report : Report) :
      (e.conclude { s with world := scene.world }.release place { inv with feed := scene.feed } report).upTo h =
        (e.conclude { s.upTo h with world := scene.world }.release place
          { inv.upTo (h.deadlines place) with feed := scene.feed } report).upTo h := by
    have hnow' : { s with world := scene.world }.release.now < limit := by
      rw [Service.now, (aside_release _).world]
      exact hscene
    refine (upTo_conclude hr hnow').trans ?_
    rw [Service.upTo_release]
    rfl
  have hlimit : (inv.upTo (h.deadlines place)).deadline ≤ Service.now { s.upTo h with world := scene.world } ↔
      inv.deadline ≤ Service.now { s with world := scene.world } := by
    show min inv.deadline (h.deadlines place) ≤ scene.world.now ↔ inv.deadline ≤ scene.world.now
    dsimp only at hnow
    omega
  cases stop with
  | finished outcome => exact concludes _
  | broke message =>
    dsimp only
    rw [upTo_put_upTo, Service.upTo_release]
    rfl
  | paused due rest' =>
    dsimp only
    split
    · rename_i hc
      rw [if_pos (hlimit.2 hc)]
      exact concludes _
    · rename_i hc
      rw [if_neg (mt hlimit.1 hc)]
      exact upTo_put_upTo ..
  | stuck =>
    dsimp only
    split
    · rename_i hc
      rw [if_pos (hlimit.2 hc)]
      exact concludes _
    · rename_i hc
      rw [if_neg (mt hlimit.1 hc)]
      exact upTo_put_upTo ..

private theorem upTo_enter (hr : h.Reaches limit) (hn : s.now < limit) :
    (e.enter s place inv).upTo h = (e.enter (s.upTo h) place (inv.upTo (h.deadlines place))).upTo h :=
  upTo_resume hr hn

private theorem upTo_cut? {leave : Service → Service} (hr : h.Reaches limit) (hn : s.now < limit)
    (hnow : (leave s).now = s.now) (hl : (leave s).upTo h = leave (s.upTo h)) :
    (e.cut? s place inv leave).map (Service.upTo h) =
      (e.cut? (s.upTo h) place (inv.upTo (h.deadlines place)) leave).map (Service.upTo h) := by
  have hreach := hr.deadlines place
  have hcancelled : (s.upTo h).isCancelled (inv.upTo (h.deadlines place)).token = s.isCancelled inv.token :=
    Service.isCancelled_upTo (Nat.lt_of_lt_of_le hn hr.cancellations) _
  have hdeadline : (inv.upTo (h.deadlines place)).deadline ≤ (s.upTo h).now ↔ inv.deadline ≤ s.now := by
    show min inv.deadline (h.deadlines place) ≤ s.now ↔ inv.deadline ≤ s.now
    omega
  have concludes (report : Report) : (e.conclude (leave s) place inv report).upTo h =
      (e.conclude (leave (s.upTo h)) place (inv.upTo (h.deadlines place)) report).upTo h := by
    rw [← hl]
    exact upTo_conclude hr (hnow ▸ hn)
  unfold cut?
  rw [hcancelled]
  split
  · exact congrArg some (concludes _)
  · split
    · rename_i hc
      rw [if_pos (hdeadline.2 hc)]
      exact congrArg some (concludes _)
    · rename_i hc
      rw [if_neg (mt hdeadline.1 hc)]

private theorem upTo_poll? (hr : h.Reaches limit) (hn : s.now < limit) :
    (e.poll? s place inv).map (Service.upTo h) =
      (e.poll? (s.upTo h) place (inv.upTo (h.deadlines place))).map (Service.upTo h) := by
  have hreach := hr.deadlines place
  have hnote : (s.upTo h).noteDrop (inv.upTo (h.deadlines place)) = (s.noteDrop inv).upTo h :=
    (Service.upTo_noteDrop (Nat.lt_of_lt_of_le hn hr.cancellations) _ inv).symm
  have hnow : (s.noteDrop inv).now < limit := by
    rwa [Service.now, Service.world_noteDrop]
  unfold poll?
  rw [hnote]
  generalize s.noteDrop inv = s at hnow
  have hcancelled : (s.upTo h).isCancelled (inv.upTo (h.deadlines place)).token = s.isCancelled inv.token :=
    Service.isCancelled_upTo (Nat.lt_of_lt_of_le hnow hr.cancellations) _
  have hnow' : (s.upTo h).now = s.now := rfl
  have hstage : (inv.upTo (h.deadlines place)).stage = inv.stage.upTo (h.deadlines place) := rfl
  have released : (e.cut? s place inv (·.release)).map (Service.upTo h) =
      (e.cut? (s.upTo h) place (inv.upTo (h.deadlines place)) (·.release)).map (Service.upTo h) :=
    upTo_cut? hr hnow (congrArg World.now (aside_release s).world) (Service.upTo_release h s)
  dsimp only
  rw [hcancelled, hnow', hstage]
  cases inv.stage with
  | dormant =>
    have hdeadline : (inv.upTo (h.deadlines place)).deadline ≤ s.now ↔ inv.deadline ≤ s.now := by
      show min inv.deadline (h.deadlines place) ≤ s.now ↔ inv.deadline ≤ s.now
      omega
    have hstart : (inv.upTo (h.deadlines place)).start = inv.start := rfl
    have hfree : (s.upTo h).free = s.free := rfl
    dsimp only [Stage.upTo]
    rw [hstart, hfree]
    split
    · rfl
    · split
      · exact congrArg some (upTo_conclude hr hnow)
      · split
        · exact congrArg some (upTo_enter (s := { s with free := _ }) hr hnow)
        · split
          · rename_i hc
            rw [if_pos (hdeadline.2 hc)]
            exact congrArg some (upTo_conclude hr hnow)
          · rename_i hc
            rw [if_neg (mt hdeadline.1 hc)]
            exact congrArg some (upTo_put_upTo h { s with queue := _ } ..)
  | queued => exact upTo_cut? hr hnow rfl rfl
  | granted due lap =>
    dsimp only [Stage.upTo]
    split
    · exact congrArg some (upTo_enter hr hnow)
    · exact released
  | running pending =>
    cases pending with
    | none => exact released
    | some p =>
      dsimp only [Stage.upTo]
      split
      · exact congrArg some (upTo_resume hr hnow)
      · exact released
  | closing report closingLimit pending =>
    have hlimit : min closingLimit (h.deadlines place) ≤ s.now ↔ closingLimit ≤ s.now := by omega
    have completes : (e.complete s place inv report).upTo h =
        (e.complete (s.upTo h) place (inv.upTo (h.deadlines place)) report).upTo h := by
      rw [upTo_complete, upTo_complete, Service.upTo_upTo, Invocation.upTo_upTo]
    have cut : (if closingLimit ≤ s.now then some (e.complete s place inv report) else none).map (Service.upTo h) =
        (if min closingLimit (h.deadlines place) ≤ s.now then
          some (e.complete (s.upTo h) place (inv.upTo (h.deadlines place)) report) else none).map (Service.upTo h) := by
      split
      · rename_i hc
        rw [if_pos (hlimit.2 hc)]
        exact congrArg some completes
      · rename_i hc
        rw [if_neg (mt hlimit.1 hc)]
    cases pending with
    | none => exact cut
    | some p =>
      dsimp only [Stage.upTo]
      split
      · refine congrArg some ?_
        rw [upTo_close hr hnow, upTo_close (s := s.upTo h) hr hnow, Service.upTo_upTo, Invocation.upTo_upTo,
          Nat.min_assoc, Nat.min_self]
      · exact cut
  | marking report ended due =>
    dsimp only [Stage.upTo]
    split
    · refine congrArg some ?_
      rw [Service.upTo_putMark, Service.upTo_putMark, Service.upTo_upTo, Invocation.upTo_upTo]
    · rfl
  | finished | broken => rfl

theorem upTo_stepAt? {slot : Slot} (hr : h.Reaches limit) (ht : slot.time < limit) :
    (e.stepAt? s slot).map (Service.upTo h) = (e.stepAt? (s.upTo h) slot).map (Service.upTo h) := by
  unfold stepAt?
  rw [Service.getElem?_upTo]
  cases s.invocations[slot.place]? with
  | none => rfl
  | some inv => exact upTo_poll? (s := s.atSlot slot) hr ht

end Engine

/-! ### Looking the same -/

namespace Engine

variable {s' : Service} {inv' : Invocation}

theorem isWaiting_of_upTo_eq (heq : inv.upTo limit = inv'.upTo limit) :
    inv'.stage.isWaiting = inv.stage.isWaiting := by
  have hstage : inv.stage.upTo limit = inv'.stage.upTo limit := congrArg Invocation.stage heq
  rw [← Stage.isWaiting_upTo limit, ← hstage, Stage.isWaiting_upTo]

theorem report?_of_upTo_eq (heq : inv.upTo limit = inv'.upTo limit) :
    inv'.stage.report? = inv.stage.report? := by
  have hstage : inv.stage.upTo limit = inv'.stage.upTo limit := congrArg Invocation.stage heq
  rw [← Stage.report?_upTo limit, ← hstage, Stage.report?_upTo]

theorem getElem?_of_upTo_eq (heq : s.upTo h = s'.upTo h) (hi : s.invocations[place]? = some inv) :
    ∃ inv', s'.invocations[place]? = some inv' ∧ inv.upTo (h.deadlines place) = inv'.upTo (h.deadlines place) := by
  have hmap := s'.getElem?_upTo h place
  rw [← heq, s.getElem?_upTo, hi] at hmap
  obtain ⟨inv', hi', hinv⟩ := Option.map_eq_some_iff.1 hmap.symm
  exact ⟨inv', hi', hinv.symm⟩

theorem stage_of_upTo_eq (heq : inv.upTo limit = inv'.upTo limit)
    (hw : inv.stage.isWaiting) : inv'.stage = inv.stage := by
  have hstage : inv.stage.upTo limit = inv'.stage.upTo limit := congrArg Invocation.stage heq
  have hw' : inv'.stage.isWaiting := (isWaiting_of_upTo_eq heq).trans hw
  generalize inv.stage = a at hstage hw
  generalize inv'.stage = b at hstage hw'
  have hsame {stage : Stage} (h : stage.isWaiting) : stage.upTo limit = stage := by
    cases stage <;> first | rfl | cases h
  rw [← hsame hw, ← hsame hw', hstage]

end Engine

/-! ### The order of events -/

namespace Service

private theorem alike_slotAt {a b : Nat} (hab : ∀ n < limit, a ≤ n ↔ b ≤ n) :
    Slot.Alike limit (s.slotAt place a) (s.slotAt place b) := by
  by_cases ha : a < limit
  · have hb := (hab a ha).1 (Nat.le_refl a)
    have hba := (hab b (Nat.lt_of_le_of_lt hb ha)).2 (Nat.le_refl b)
    exact .inl (congrArg _ (Nat.le_antisymm hba hb))
  · have hb : limit ≤ b := by
      refine Nat.le_of_not_lt fun hb => ?_
      have := (hab b hb).2 (Nat.le_refl b)
      omega
    right
    rw [time_slotAt, time_slotAt]
    omega

private theorem cutAt_upTo_le_iff {n : Nat} (hreach : limit ≤ h.deadlines place) (hc : limit ≤ h.cancellations)
    (hn : n < limit) : s.cutAt inv ≤ n ↔ (s.upTo h).cutAt (inv.upTo (h.deadlines place)) ≤ n := by
  rw [cutAt_le_iff, cutAt_le_iff]
  refine or_congr (exists_congr fun time => and_congr_left fun ht => (mem_cancelTimes_upTo ?_).symm) ?_
  · exact Nat.lt_of_le_of_lt ht (Nat.lt_of_lt_of_le hn hc)
  · show inv.deadline ≤ n ↔ min inv.deadline (h.deadlines place) ≤ n
    omega

theorem alike_slot? (hreach : limit ≤ h.deadlines place) (hc : limit ≤ h.cancellations) (s : Service)
    (inv : Invocation) : Option.Rel (Slot.Alike limit) (s.slot? place inv)
      ((s.upTo h).slot? place (inv.upTo (h.deadlines place))) := by
  have cut : Slot.Alike limit (s.slotAt place (s.cutAt inv))
      ((s.upTo h).slotAt place ((s.upTo h).cutAt (inv.upTo (h.deadlines place)))) :=
    alike_slotAt fun n hn => cutAt_upTo_le_iff hreach hc hn
  have closes (time : Nat) : Slot.Alike limit (s.slotAt place time)
      ((s.upTo h).slotAt place (min time (h.deadlines place))) :=
    alike_slotAt fun n hn => by omega
  have hstage : (inv.upTo (h.deadlines place)).stage = inv.stage.upTo (h.deadlines place) := rfl
  rw [slot?_eq, slot?_eq, hstage]
  cases inv.stage with
  | dormant => exact .some (.inl rfl)
  | queued => exact .some cut
  | granted due lap => exact .some (Slot.Alike.earlier (.inl rfl) cut)
  | running pending =>
    cases pending with
    | none => exact .some cut
    | some p => exact .some (Slot.Alike.earlier (.inl rfl) cut)
  | closing report closingLimit pending =>
    cases pending with
    | none => exact .some (closes closingLimit)
    | some p => exact .some (Slot.Alike.earlier (.inl rfl) (closes closingLimit))
  | marking report ended due => exact .some (.inl rfl)
  | finished | broken => exact .none

theorem alike_next? (hr : h.Reaches limit) (s : Service) :
    Option.Rel (Slot.Alike limit) s.next? (s.upTo h).next? := by
  have hnext : (s.upTo h).next? = Slot.earliest? (s.invocations.zipIdx.filterMap fun x =>
      (s.upTo h).slot? x.2 (x.1.upTo (h.deadlines x.2))) := by
    have hzip : (s.upTo h).invocations.zipIdx =
        s.invocations.zipIdx.map fun x => (x.1.upTo (h.deadlines x.2), x.2) := by
      refine List.ext_getElem? fun i => ?_
      rw [List.getElem?_zipIdx, getElem?_upTo, List.getElem?_map, List.getElem?_zipIdx]
      cases s.invocations[i]? <;> simp
    rw [next?, hzip, List.filterMap_map]
    rfl
  rw [hnext]
  exact Slot.alike_earliest? fun x _ => alike_slot? (hr.deadlines x.2) hr.cancellations s x.1

end Service

end AgentLoop
