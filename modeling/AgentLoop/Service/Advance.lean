import AgentLoop.Service.Step

/-!
# The course of a service

Every step brings one invocation further and none back, so a service that is left to itself comes to rest.
-/

namespace AgentLoop.Engine

variable {e : Engine} {s s' : Service} {place : Nat} {inv : Invocation}

theorem stages_put (s : Service) (place : Nat) (inv : Invocation) (stage : Stage) :
    (s.put place inv stage).stages = s.stages.set place stage := by
  simp [Service.put, Service.stages, List.map_set]

/-- `s'` differs from `s` in the stage of one invocation, as far as stages go. -/
def Puts (place : Nat) (p : Stage → Prop) (s s' : Service) : Prop :=
  ∃ stage, p stage ∧ s'.stages = s.stages.set place stage

private theorem puts_put {p : Stage → Prop} {stage : Stage} (h : p stage) : Puts place p s (s.put place inv stage) :=
  ⟨stage, h, stages_put ..⟩

theorem Puts.mono {p q : Stage → Prop} (h : ∀ stage, p stage → q stage) (hs : Puts place p s s') :
    Puts place q s s' :=
  let ⟨stage, hp, heq⟩ := hs
  ⟨stage, h stage hp, heq⟩

theorem puts_putMark {report : Report} {ended : Nat} :
    Puts place (·.rank = 0) s (s.putMark place inv report ended) := by
  unfold Service.putMark
  split <;> exact puts_put rfl

private theorem puts_finish {report : Report} : Puts place (·.rank ≤ 1) s (s.finish place inv report) := by
  unfold Service.finish
  split
  · exact puts_put (by simp [Stage.rank])
  · exact puts_putMark.mono fun _ h => by omega
  · exact puts_put (by simp [Stage.rank])

theorem puts_complete {report : Report} : Puts place (·.rank ≤ 1) s (e.complete s place inv report) :=
  puts_finish (s := { s with world := _ })

/-- What telling the hooks may lead to. -/
def ClosedFrom (rest : RunProcess Unit) (stage : Stage) : Prop :=
  stage.rank ≤ 2 ∨ ∃ report limit p, stage = .closing report limit (some p) ∧ Process.Within p.rest rest

theorem ClosedFrom.rank_le {rest : RunProcess Unit} {stage : Stage} (h : ClosedFrom rest stage) :
    stage.rank ≤ 3 := by
  obtain h | ⟨_, _, _, rfl, -⟩ := h
  · omega
  · simp [Stage.rank]

theorem puts_close {report : Report} {limit : Nat} {rest : RunProcess Unit} :
    Puts place (ClosedFrom rest) s (e.close s place inv report limit rest) := by
  have complete (world : World) :
      Puts place (ClosedFrom rest) s (e.complete { s with world } place inv report) :=
    (puts_complete (s := { s with world })).mono fun _ h => .inl (by omega)
  unfold close
  split
  rename_i stop scene h
  dsimp only
  split
  · exact complete _
  · exact puts_put (s := { s with world := _ }) (.inl (by simp [Stage.rank]))
  · rename_i due rest'
    split
    · exact complete _
    · exact puts_put (s := { s with world := _ })
        (.inr ⟨_, _, _, rfl, Process.within_of_play_eq_paused (congrArg Prod.fst h)⟩)
  · split
    · exact complete _
    · exact puts_put (s := { s with world := _ }) (.inl (by simp [Stage.rank]))

theorem puts_conclude {report : Report} : Puts place (·.rank ≤ 3) s (e.conclude s place inv report) :=
  puts_close.mono fun _ h => h.rank_le

/-! ### The order of progress -/

/-- One invocation is further, or several are. -/
abbrev Further : List Stage → List Stage → Prop := Relation.TransGen (Lowered Stage.Beyond)

private theorem wellFounded_further : WellFounded Further := (Lowered.wellFounded Stage.wellFounded_beyond).transGen

theorem getElem?_stages (h : s.invocations[place]? = some inv) : s.stages[place]? = some inv.stage := by
  simp [Service.stages, h]

private theorem lowered_of_puts {p : Stage → Prop} {stage : Stage} (hs : s.stages[place]? = some stage)
    (h : Puts place p s s') (hp : ∀ stage', p stage' → Stage.Beyond stage' stage) :
    Lowered Stage.Beyond s'.stages s.stages := by
  obtain ⟨stage', h', heq⟩ := h
  exact heq ▸ .set hs (hp stage' h')

private theorem stages_release (s : Service) : s.release.stages = s.stages ∨
    ∃ first, s.stages[first]? = some .queued ∧
      s.release.stages = s.stages.set first (.granted s.now (s.lap + 1)) := by
  unfold Service.release
  split
  · exact .inl rfl
  · unfold Service.grant
    split
    · exact .inl rfl
    · rename_i inv h
      split
      · rename_i hq
        exact .inr ⟨_, hq ▸ getElem?_stages h, stages_put ..⟩
      · exact .inl rfl

private theorem getElem?_stages_release {stage : Stage} (h : s.stages[place]? = some stage) (hq : stage ≠ .queued) :
    s.release.stages[place]? = some stage := by
  obtain heq | ⟨first, hf, heq⟩ := stages_release s
  · rw [heq, h]
  · rw [heq, List.getElem?_set_ne, h]
    rintro rfl
    exact hq (by simpa [h] using hf)

/-- An invocation that has a stage and not just waits for a permit gets further, whether its permit goes to another
one or not. -/
private theorem further_of_puts_release {p : Stage → Prop} {stage : Stage} (hs : s.stages[place]? = some stage)
    (hq : stage ≠ .queued) (h : Puts place p s.release s') (hp : ∀ stage', p stage' → Stage.Beyond stage' stage) :
    Further s'.stages s.stages := by
  have last := lowered_of_puts (getElem?_stages_release hs hq) h hp
  obtain heq | ⟨first, hf, heq⟩ := stages_release s
  · exact .single (heq ▸ last)
  · refine .trans (.single last) (.single ?_)
    rw [heq]
    exact .set hf (.rank (by simp [Stage.rank]))

/-- What running on may lead to. -/
def RunFrom (rest : RunProcess (Except RunError Outcome)) (stage : Stage) : Prop :=
  stage.rank ≤ 4 ∨ ∃ p, stage = .running (some p) ∧ Process.Within p.rest rest

private theorem further_resume {rest : RunProcess (Except RunError Outcome)} {stage : Stage}
    (hs : s.stages[place]? = some stage) (hq : stage ≠ .queued)
    (h : ∀ stage', RunFrom rest stage' → Stage.Beyond stage' stage) :
    Further (e.resume s place inv rest).stages s.stages := by
  have conclude (world : World) (inv' : Invocation) (report : Report) :
      Further (e.conclude { s with world }.release place inv' report).stages s.stages :=
    further_of_puts_release (s := { s with world }) hs hq puts_conclude fun stage' h' => h stage' (.inl (by omega))
  unfold resume
  split
  rename_i stop scene hplay
  dsimp only
  split
  · exact conclude ..
  · exact further_of_puts_release (s := { s with world := scene.world }) hs hq
      (puts_put (p := RunFrom rest) (.inl (by simp [Stage.rank]))) h
  · split
    · exact conclude ..
    · exact .single <| lowered_of_puts (s := { s with world := _ }) hs
        (puts_put (p := RunFrom rest) (.inr ⟨_, rfl, Process.within_of_play_eq_paused (congrArg Prod.fst hplay)⟩)) h
  · split
    · exact conclude ..
    · exact .single <| lowered_of_puts (s := { s with world := _ }) hs
        (puts_put (p := RunFrom rest) (.inl (by simp [Stage.rank]))) h

private theorem further_cut? {leave : Service → Service} {stage : Stage} (hs : s.stages[place]? = some stage)
    (hr : 3 < stage.rank) (hl : (leave s).stages = s.stages ∨ leave s = s.release ∧ stage ≠ .queued)
    (h : e.cut? s place inv leave = some s') : Further s'.stages s.stages := by
  have conclude (report : Report) : Further (e.conclude (leave s) place inv report).stages s.stages := by
    have hp (stage' : Stage) (h' : stage'.rank ≤ 3) : Stage.Beyond stage' stage := .rank (by omega)
    obtain heq | ⟨heq, hq⟩ := hl
    · exact .single (heq ▸ lowered_of_puts (heq ▸ hs) puts_conclude hp)
    · exact further_of_puts_release hs hq (heq ▸ puts_conclude) hp
  unfold cut? at h
  split at h
  · exact Option.some.inj h ▸ conclude _
  · split at h
    · exact Option.some.inj h ▸ conclude _
    · cases h

theorem stages_noteDrop (s : Service) (inv : Invocation) : (s.noteDrop inv).stages = s.stages := by
  unfold Service.noteDrop
  split
  · split <;> rfl
  · rfl

private theorem RunFrom.rank_le {rest : RunProcess (Except RunError Outcome)} {stage : Stage} (h : RunFrom rest stage) :
    stage.rank ≤ 5 := by
  obtain h | ⟨p, rfl, -⟩ := h
  · omega
  · simp [Stage.rank]

private theorem further_poll? (hs : s.stages[place]? = some inv.stage) (h : e.poll? s place inv = some s') :
    Further s'.stages s.stages := by
  have hd := stages_noteDrop s inv
  rw [← hd] at hs ⊢
  unfold poll? at h
  generalize s.noteDrop inv = s at h hs
  dsimp only at h
  generalize hstage : inv.stage = stage at h hs
  split at h
  · split at h
    · cases h
    · split at h
      · exact Option.some.inj h ▸
          .single (lowered_of_puts hs puts_conclude fun _ h => .of_rank_le h (by simp [Stage.rank]))
      · split at h
        · exact Option.some.inj h ▸ further_resume (s := { s with free := _ }) hs (by simp)
            fun _ h' => .of_rank_le h'.rank_le (by simp [Stage.rank])
        · split at h
          · exact Option.some.inj h ▸
              .single (lowered_of_puts hs puts_conclude fun _ h => .of_rank_le h (by simp [Stage.rank]))
          · exact Option.some.inj h ▸
              .single (lowered_of_puts (s := { s with queue := _ }) hs (puts_put (p := (· = .queued)) rfl)
                fun _ h => h ▸ .rank (by simp [Stage.rank]))
  · exact further_cut? hs (by simp [Stage.rank]) (.inl rfl) h
  · split at h
    · exact Option.some.inj h ▸ further_resume hs (by simp) fun _ h' => .of_rank_le h'.rank_le (by simp [Stage.rank])
    · exact further_cut? hs (by simp [Stage.rank]) (.inr ⟨rfl, by simp⟩) h
  · exact further_cut? hs (by simp [Stage.rank]) (.inr ⟨rfl, by simp⟩) h
  · split at h
    · refine Option.some.inj h ▸ further_resume hs (by simp) fun stage' h' => ?_
      obtain h' | ⟨p, rfl, hw⟩ := h'
      · exact .of_rank_le h' (by simp [Stage.rank])
      · exact .running hw
    · exact further_cut? hs (by simp [Stage.rank]) (.inr ⟨rfl, by simp⟩) h
  · split at h
    · refine Option.some.inj h ▸ .single (lowered_of_puts hs puts_close fun stage' h' => ?_)
      obtain h' | ⟨report, limit, p, rfl, hw⟩ := h'
      · exact .of_rank_le h' (by simp [Stage.rank])
      · exact .closing hw
    · split at h
      · exact Option.some.inj h ▸
          .single (lowered_of_puts hs puts_complete fun _ h => .of_rank_le h (by simp [Stage.rank]))
      · cases h
  · split at h
    · exact Option.some.inj h ▸
        .single (lowered_of_puts hs puts_complete fun _ h => .of_rank_le h (by simp [Stage.rank]))
    · cases h
  · split at h
    · exact Option.some.inj h ▸
        .single (lowered_of_puts hs puts_putMark fun _ h => .of_rank_le (Nat.le_of_eq h) (by simp [Stage.rank]))
    · cases h
  · cases h
  · cases h

theorem further_stepAt? {slot : Slot} (h : e.stepAt? s slot = some s') : Further s'.stages s.stages := by
  obtain ⟨inv, hi, h⟩ := Option.bind_eq_some_iff.1 h
  exact further_poll? (s := s.atSlot slot) (getElem?_stages hi) h

/-! ### Running on -/

/-- The stages of the invocations, in the order of progress. -/
structure Progress where
  stages : List Stage

instance : WellFoundedRelation Progress := ⟨_, InvImage.wf Progress.stages wellFounded_further⟩

/-- Takes step after step as long as the next one is wanted. -/
def advance (e : Engine) (wanted : Service → Slot → Bool) (s : Service) : Service :=
  match s.next? with
  | none => s
  | some slot =>
    if wanted s slot then
      match _h : e.stepAt? s slot with
      | none => s
      | some s' => advance e wanted s'
    else s
termination_by Progress.mk s.stages
decreasing_by exact further_stepAt? (by assumption)

end AgentLoop.Engine
