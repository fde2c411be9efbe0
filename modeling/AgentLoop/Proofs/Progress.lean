import AgentLoop.Proofs.Steps

/-!
# How an invocation gets on

What an invocation has done so far is its trace, put together from what it does in each of its steps.  While it runs,
what is left of it is what its run leads to; once its result is fixed, all that is left closes it.  `Stepped` gathers
what a step says about the invocation that takes it and about all others.  Only a run that comes to an answer saves
anything, and if the store answers at once, its result is fixed as a success in the same step.
-/

namespace AgentLoop

open Process

namespace Engine

variable {e : Engine} {s t : Service} {place : Nat} {inv : Invocation} {command : Command} {streams : Bool}
  {trace : RunTrace}

/-! ### What is left of a run -/

/-- A conversation as far as it went, and perhaps what was saved of it. -/
def Spoken (e : Engine) (command : Command) (streams : Bool) (trace : RunTrace) : Prop :=
  ∃ said saved q, trace = said ++ saved ∧ Leads (e.converse command streams) said q ∧ ∀ x ∈ saved, x.1.isSave

/-- What a conversation does is what it may do. -/
theorem allows_of_leads_converse {u v : RunTrace} {x : Exchange runEffects}
    {q : RunProcess (Except RunError Outcome)} (h : Leads (e.converse command streams) (u ++ x :: v) q) :
    e.converseAllows command streams u x.1 :=
  (e.keeps_converse command streams).allows_of_leads h fun _ _ => trivial

private theorem isSave_of_leads_converse {q : RunProcess (Except RunError Outcome)}
    (h : Leads (e.converse command streams) trace q) : ∀ x ∈ trace, x.1.isSave = false := by
  intro x hx
  obtain ⟨u, v, rfl⟩ := List.append_of_mem hx
  have ha := allows_of_leads_converse h
  obtain ⟨f, answer⟩ := x
  cases f with
  | save => exact ha.elim
  | _ => rfl

theorem Spoken.isClosing {x : Exchange runEffects} (h : e.Spoken command streams trace) (hx : x ∈ trace) :
    ∀ entry ∈ x.entry?, entry.isClosing = false := by
  obtain ⟨said, saved, q, rfl, hl, hs⟩ := h
  obtain ⟨f, answer⟩ := x
  intro entry he
  cases f with
  | note entry' =>
    obtain rfl : entry' = entry := Option.some.inj he
    rcases List.mem_append.1 hx with hx | hx
    · obtain ⟨u, v, rfl⟩ := List.append_of_mem hx
      exact allows_of_leads_converse hl
    · exact absurd (hs _ hx) (by simp [Effect.isSave])
  | room | put => cases he
  | _ =>
    cases he
    rfl

/-- Nothing but saving. -/
def savingContract : Contract runEffects := .ofAllows fun _ effect => effect.isSave = true

private theorem isSave_of_leads_settle {r : Except RunError Outcome} {p : RunProcess (Except RunError Outcome)}
    (h : Leads (e.settle command r) trace p) : ∀ x ∈ trace, x.1.isSave := by
  intro x hx
  obtain ⟨u, v, rfl⟩ := List.append_of_mem hx
  have hkeeps : Keeps savingContract (fun _ _ => True) [] (e.settle command r) :=
    keeps_settle (c := savingContract) trivial (fun _ _ _ => rfl) e command r
  exact hkeeps.allows_of_leads h fun _ _ => trivial

/-- Whatever a run has done is a conversation as far as it went, and perhaps what was saved of it. -/
theorem spoken_of_leads {p : RunProcess (Except RunError Outcome)} (h : Leads (e.run command streams) trace p) :
    e.Spoken command streams trace := by
  rw [run_eq] at h
  rcases leads_bind h with ⟨q, -, hl⟩ | ⟨r, said, saved, rfl, hl, hs⟩
  · exact ⟨trace, [], q, (List.append_nil trace).symm, hl, by simp⟩
  · exact ⟨said, saved, _, rfl, hl, isSave_of_leads_settle hs⟩

/-- A run that has saved nothing yet has not come through its conversation, or has just done so. -/
private theorem converses_of_unsaved {p : RunProcess (Except RunError Outcome)}
    (h : Leads (e.run command streams) trace p)
    (hu : ∀ x ∈ trace, x.1.isSave = false) :
    ∃ q, p = q >>= e.settle command ∧ Leads (e.converse command streams) trace q := by
  rw [run_eq] at h
  rcases leads_bind h with hq | ⟨r, said, saved, rfl, hl, hs⟩
  · exact hq
  · have hnone : saved = [] := by
      refine List.eq_nil_iff_forall_not_mem.2 fun x hx => ?_
      have hsave := isSave_of_leads_settle hs x hx
      rw [hu x (List.mem_append_right _ hx)] at hsave
      cases hsave
    subst hnone
    refine ⟨done r, ?_, by simpa using hl⟩
    show p = e.settle command r
    cases r with
    | error failure => exact (leads_done hs).2
    | ok outcome =>
      have ha : e.Answered command (.ok outcome) :=
        (e.keeps_converse command streams).of_leads hl fun _ _ => trivial
      rw [settle_ok ha] at hs ⊢
      split at hs
      · rename_i hk
        cases hs
        rw [if_pos hk]
      · rename_i hk
        rw [if_neg hk]
        exact (leads_done hs).2

/-- The store answers at once, and nothing was saved yet. -/
structure SavesAtOnce (e : Engine) (trace : RunTrace) : Prop where
  store : e.store = some .atOnce
  unsaved : ∀ x ∈ trace, x.1.isSave = false

/-- Where play stops if the store answers at once: the run goes on, or it has come to an answer, which is saved. -/
inductive Turned (e : Engine) (command : Command) (scene : Scene) :
    RunTrace → Stop (Except RunError Outcome) → Scene → Prop where
  | answered {did : RunTrace} {outcome : Outcome} {scene' : Scene} (hd : ∃ x ∈ did, x.1.isSave)
    (hs : scene'.world.store = (scene.world.store.save command.session (e.turnOf command outcome.answer)).2) :
    Turned e command scene did (.finished (.ok outcome)) scene'
  | otherwise {did : RunTrace} {stop : Stop (Except RunError Outcome)} {scene' : Scene}
    (hf : ∀ outcome, stop ≠ .finished (.ok outcome)) (hd : ∀ x ∈ did, x.1.isSave = false) :
    Turned e command scene did stop scene'

private theorem turned_of_leads {p : RunProcess (Except RunError Outcome)} (h : Leads (e.run command streams) trace p)
    (hat : e.SavesAtOnce trace) (limit : Option Nat) (scene : Scene) :
    Turned e command scene (p.exchanges e.partners limit scene) (p.play e.partners limit scene).1
      (p.play e.partners limit scene).2 := by
  obtain ⟨q, rfl, hl⟩ := converses_of_unsaved h hat.unsaved
  have hplay := hl.trans (leads_play e.partners limit q scene)
  have hunsaved : ∀ x ∈ q.exchanges e.partners limit scene, x.1.isSave = false :=
    fun x hx => isSave_of_leads_converse hplay x (List.mem_append_right _ hx)
  have hstore : (q.play e.partners limit scene).2.world.store = scene.world.store := store_play hunsaved
  have hpartners : e.partners = { provider := e.provider } := by simp [partners, hat.store]
  have hkeeps : e.keepsHistory = true := by simp [keepsHistory, hat.store]
  rw [play_bind, exchanges_bind]
  generalize q.exchanges e.partners limit scene = said at hplay hunsaved
  generalize q.play e.partners limit scene = result at hplay hstore
  obtain ⟨stop, scene'⟩ := result
  cases stop with
  | finished r =>
    cases r with
    | error failure => exact .otherwise (by simp [settle, pure, play]) (by simpa [settle, pure, exchanges] using hunsaved)
    | ok outcome =>
      have ha : e.Answered command (.ok outcome) :=
        (e.keeps_converse command streams).of_leads hplay fun _ _ => trivial
      dsimp only
      rw [settle_ok ha, if_pos hkeeps, hpartners]
      -- the answer is saved without a wait before the end
      generalize hturn : e.turnOf command outcome.answer = turn
      show Turned e command scene (said ++ [⟨.save command turn, .now (scene'.world.store.save command.session turn).1⟩])
        (.finished (.ok outcome)) (Effect.perform { provider := e.provider } (.save command turn) scene').2
      refine .answered ⟨_, List.mem_append_right _ (List.mem_singleton.2 rfl), rfl⟩ ?_
      rw [← hstore, hturn]
      rfl
  | broke | stuck | paused =>
    rw [List.append_nil]
    exact .otherwise (by simp) hunsaved

/-- Where the play of a run stops. -/
structure Played (e : Engine) (command : Command) (streams : Bool) (trace : RunTrace) (scene : Scene) (did : RunTrace)
    (stop : Stop (Except RunError Outcome)) (scene' : Scene) : Prop where
  leads : Leads (e.run command streams) (trace ++ did) stop.rest
  store (hd : ∀ x ∈ did, x.1.isSave = false) : scene'.world.store = scene.world.store
  turned (h : e.SavesAtOnce trace) : Turned e command scene did stop scene'

private theorem played_of_leads {p : RunProcess (Except RunError Outcome)} (h : Leads (e.run command streams) trace p)
    (limit : Option Nat) (scene : Scene) :
    Played e command streams trace scene (p.exchanges e.partners limit scene) (p.play e.partners limit scene).1
      (p.play e.partners limit scene).2 :=
  ⟨h.trans (leads_play ..), store_play, fun hat => turned_of_leads h hat limit scene⟩

/-- What a run loads from a store that answers at once is what is kept when its play begins: it saves only when all is
said. -/
private theorem loaded_of_leads {p : RunProcess (Except RunError Outcome)} (h : Leads (e.run command streams) trace p)
    (hstore : e.store = some .atOnce) (limit : Option Nat) (scene : Scene) {other : Command}
    {answer : Reaction (Except StoreError (List Message))}
    (hx : ⟨.load other, answer⟩ ∈ p.exchanges e.partners limit scene) :
    answer = .now (scene.world.store.load other.session) := by
  have hatOnce : e.partners.store = .atOnce := by simp [partners, hstore]
  rw [run_eq] at h
  rcases leads_bind h with ⟨q, rfl, hl⟩ | ⟨r, said, saved, rfl, -, hs⟩
  · have hplay := hl.trans (leads_play e.partners limit q scene)
    have hsave := fun x hx => isSave_of_leads_converse hplay x (List.mem_append_right _ hx)
    rw [exchanges_bind] at hx
    rcases List.mem_append.1 hx with hx | hx
    · exact loaded_of_mem_exchanges hatOnce hsave hx
    · split at hx
      · cases isSave_of_leads_settle (leads_play ..) _ hx
      · cases hx
  · cases isSave_of_leads_settle (hs.trans (leads_play e.partners limit p scene)) _ (List.mem_append_right _ hx)

/-! ### Invocations and what they have done -/

/-- The run has not begun. -/
def isFresh : Stage → Bool
  | .dormant | .queued | .granted .. => true
  | _ => false

/-- What an invocation is left with agrees with what it has done. -/
structure Sound (e : Engine) (inv : Invocation) (trace : RunTrace) : Prop where
  spoken : e.Spoken inv.command inv.streams trace
  fresh (h : isFresh inv.stage) : trace = []
  running {p : Pending (Except RunError Outcome)} (h : inv.stage = .running (some p)) :
    Leads (e.run inv.command inv.streams) trace p.rest
  closing {report : Report} {limit : Nat} {p : Pending Unit} (h : inv.stage = .closing report limit (some p)) :
    ClosesOnly p.rest

theorem sound_of_isFresh (h : isFresh inv.stage) : e.Sound inv [] where
  spoken := spoken_of_leads (.here (e.run inv.command inv.streams))
  fresh _ := rfl
  running hp := by rw [hp] at h; cases h
  closing hp := by rw [hp] at h; cases h

/-- What an invocation does in its run at this instant. -/
def did (e : Engine) (s : Service) (inv : Invocation) : RunTrace :=
  match e.goesOn? s inv with
  | some rest => rest.exchanges e.partners (some s.now) ⟨s.world, inv.feed⟩
  | none => []

/-- What goes into the journal of what was done at an instant. -/
def entriesOf (now : Nat) (did : RunTrace) : Journal := (did.filterMap Exchange.entry?).map (now, ·)

/-- What becomes of an invocation in one of its steps, and what is written and saved. -/
inductive Fate (e : Engine) (trace : RunTrace) (inv inv' : Invocation) (did : RunTrace) (s t : Service) : Prop where
  | waits (hw : inv.stage.isWaiting) (hw' : inv'.stage.isWaiting)
    (hj : t.world.journal = s.world.journal ++ entriesOf s.now did)
    (hd : e.SavesAtOnce trace → ∀ x ∈ did, x.1.isSave = false)
  | breaks (hw : inv.stage.isWaiting) (hw' : inv'.stage.isWaiting = false) (hr : inv'.stage.report? = none)
    (hj : t.world.journal = s.world.journal ++ entriesOf s.now did)
    (hd : e.SavesAtOnce trace → ∀ x ∈ did, x.1.isSave = false)
  | fails {report : Report} {told : Journal} (hw : inv.stage.isWaiting) (hc : ClosingStage report s.now inv'.stage)
    (hr : report.result.success = false)
    (hj : t.world.journal = s.world.journal ++ entriesOf s.now did ++ told) (ht : ClosingAt s.now told)
    (hd : e.SavesAtOnce trace → ∀ x ∈ did, x.1.isSave = false)
  | succeeds {report : Report} {told : Journal} {answer : String} (hw : inv.stage.isWaiting)
    (hc : ClosingStage report s.now inv'.stage)
    (hr : report.result.success = true) (ha : report.result.content = some answer)
    (hj : t.world.journal = s.world.journal ++ entriesOf s.now did ++ told) (ht : ClosingAt s.now told)
    (hd : e.SavesAtOnce trace → (∃ x ∈ did, x.1.isSave) ∧
      t.world.store = (s.world.store.save inv.command.session (e.turnOf inv.command answer)).2)
  | closes {report : Report} {told : Journal} (hw : inv.stage.isWaiting = false)
    (hr : inv.stage.report? = some report) (hc : ClosingStage report s.now inv'.stage)
    (hj : t.world.journal = s.world.journal ++ told) (ht : ClosingAt s.now told) (hd : did = [])

/-- What a step of one invocation says about the service. -/
structure Stepped (e : Engine) (place : Nat) (inv : Invocation) (trace did : RunTrace) (s t : Service) : Prop where
  now : t.now = s.now
  lap : t.lap = s.lap
  cancellations : t.cancellations = s.cancellations
  length : t.invocations.length = s.invocations.length
  own : ∃ inv', t.invocations[place]? = some inv' ∧ inv.Kin inv' ∧ inv'.stage.DueFrom s.now ∧
    e.Sound inv' (trace ++ did) ∧ Fate e trace inv inv' did s t
  others {j : Nat} {other : Invocation} (hj : j ≠ place) (h : s.invocations[j]? = some other) :
    t.invocations[j]? = some other ∨ other.stage = .queued ∧
      ∃ lap, t.invocations[j]? = some { other with stage := .granted s.now lap }
  store (hd : ∀ x ∈ did, x.1.isSave = false) : t.world.store = s.world.store
  loaded (hs : e.store = some .atOnce) {command : Command} {answer : Reaction (Except StoreError (List Message))}
    (h : ⟨.load command, answer⟩ ∈ did) : answer = .now (s.world.store.load command.session)

/-- After the run the permit goes to the next. -/
theorem Aside.release {s₁ : Service} (h : Aside s s₁) (hi : s₁.invocations = s.invocations) {world : World}
    (hn : world.now = s.now) : Beside s { s₁ with world }.release := by
  have hr := aside_release { s₁ with world }
  have hnow : Service.now { s₁ with world } = s.now := hn
  refine ⟨hr.lap.trans h.lap, hr.cancellations.trans h.cancellations, fun hj => ?_, hr.length.trans h.length⟩
  rw [← hnow]
  exact hr.others (hi ▸ hj)

/-- What is loaded at once is what is kept. -/
def LoadsKept (e : Engine) (s : Service) (did : RunTrace) : Prop :=
  e.store = some .atOnce → ∀ (command : Command) (answer : Reaction (Except StoreError (List Message))),
    ⟨.load command, answer⟩ ∈ did → answer = .now (s.world.store.load command.session)

private theorem loadsKept_nil : e.LoadsKept s [] := fun _ _ _ h => nomatch h

section

variable {s₁ : Service} {inv₁ : Invocation} {did : RunTrace} (hb : Beside s s₁) (hnow : s₁.now = s.now)
  (hi : s.invocations[place]? = some inv) (hk : inv.Kin inv₁) (hload : e.LoadsKept s did)

include hb hi hload

private theorem stepped_of_invocations {inv' : Invocation} (hn : t.now = s.now) (hl : t.lap = s₁.lap)
    (hc : t.cancellations = s₁.cancellations) (ht : t.invocations = s₁.invocations.set place inv')
    (hst : (∀ x ∈ did, x.1.isSave = false) → t.world.store = s.world.store)
    (hk : inv.Kin inv') (hd : inv'.stage.DueFrom s.now) (hs : e.Sound inv' (trace ++ did))
    (hf : Fate e trace inv inv' did s t) : Stepped e place inv trace did s t where
  now := hn
  lap := hl.trans hb.lap
  cancellations := hc.trans hb.cancellations
  length := by rw [ht, List.length_set, hb.length]
  own := by
    have hlt : place < s₁.invocations.length := hb.length ▸ (List.getElem?_eq_some_iff.1 hi).1
    exact ⟨inv', ht ▸ List.getElem?_set_self hlt, hk, hd, hs, hf⟩
  others hj h := by
    rw [ht, List.getElem?_set_ne (Ne.symm hj)]
    exact hb.others h
  store := hst
  loaded hs := hload hs _ _

include hnow hk

/-- A step that fixes the result, or gets on after that. -/
private theorem stepped_of_tells {report : Report} (ht : Tells place inv₁ report s₁ t)
    (hst : (∀ x ∈ did, x.1.isSave = false) → s₁.world.store = s.world.store)
    (hs : e.Spoken inv.command inv.streams (trace ++ did))
    (hf : ∀ inv' told, ClosingStage report s.now inv'.stage → t.world.journal = s₁.world.journal ++ told →
      ClosingAt s.now told → t.world.store = s₁.world.store → Fate e trace inv inv' did s t) :
    Stepped e place inv trace did s t := by
  obtain ⟨told, hj, htold⟩ := ht.journal
  obtain ⟨inv', hinv, hk', hc⟩ := ht.invocations
  have hkin := hk.trans hk'
  rw [hnow] at htold hc
  refine stepped_of_invocations hb hi hload (ht.now.trans hnow) ht.lap ht.cancellations hinv
    (fun hd => ht.store.trans (hst hd)) hkin hc.due ?_ (hf inv' told hc hj htold ht.store)
  refine ⟨by rwa [hkin.command, hkin.streams], fun h => ?_, fun h => ?_, hc.rest⟩
  · have := hc.isWaiting
    revert h this
    cases inv'.stage <;> simp [isFresh, Stage.isWaiting]
  · have := hc.isWaiting
    rw [h] at this
    cases this

end

theorem did_of_none (h : e.goesOn? s inv = none) : e.did s inv = [] := by
  unfold did
  rw [h]

theorem entriesOf_nil (now : Nat) : entriesOf now [] = [] := rfl

/-- What an invocation goes on with is what is left of its run. -/
private theorem Sound.goesOn {rest : RunProcess (Except RunError Outcome)} (hs : e.Sound inv trace)
    (h : e.goesOn? s inv = some rest) :
    Leads (e.run inv.command inv.streams) trace rest ∧ inv.stage.isWaiting := by
  have hrun (hf : isFresh inv.stage) :
      Leads (e.run inv.command inv.streams) trace (e.run inv.command inv.streams) := hs.fresh hf ▸ .here _
  unfold goesOn? at h
  split at h
  · cases h
  · split at h
    · rename_i hstage
      split at h
      · exact Option.some.inj h ▸ ⟨hrun (by rw [hstage]; rfl), by rw [hstage]; rfl⟩
      · cases h
    · rename_i hstage
      split at h
      · exact Option.some.inj h ▸ ⟨hrun (by rw [hstage]; rfl), by rw [hstage]; rfl⟩
      · cases h
    · rename_i hstage
      split at h
      · exact Option.some.inj h ▸ ⟨hs.running hstage, by rw [hstage]; rfl⟩
      · cases h
    · cases h

theorem success_failure (error : RunError) (duration : Span) : (failure error duration).success = false := by
  unfold failure
  split <;> rfl

/-- A run that goes on waits again, breaks down, or has its result fixed. -/
private theorem stepped_of_resumed {s₁ : Service} {rest : RunProcess (Except RunError Outcome)} {did : RunTrace}
    {stop : Stop (Except RunError Outcome)} {scene scene' : Scene} (hi : s.invocations[place]? = some inv)
    (hw : inv.stage.isWaiting) (ha : Aside s s₁) (hinv : s₁.invocations = s.invocations) (hload : e.LoadsKept s did)
    (hplayed : Played e inv.command inv.streams trace scene did stop scene') (hscene : scene.world = s.world)
    (hj : scene'.world.journal = s.world.journal ++ entriesOf s.now did) (hnow : scene'.world.now = s.now)
    (hdue : ∀ {due rest'}, stop = .paused due rest' → s.now ≤ due) (hr : Resumed e s₁ place inv rest stop scene' t) :
    Stepped e place inv trace did s t := by
  have hb := ha.release hinv hnow
  have hworld := (aside_release { s₁ with world := scene'.world }).world
  have hn : ({ s₁ with world := scene'.world }.release).now = s.now := (congrArg World.now hworld).trans hnow
  have hspoken := spoken_of_leads hplayed.leads
  have hstore (hd : ∀ x ∈ did, x.1.isSave = false) : scene'.world.store = s.world.store :=
    (hplayed.store hd).trans (by rw [hscene])
  have hreleased (hd : ∀ x ∈ did, x.1.isSave = false) :
      ({ s₁ with world := scene'.world }.release).world.store = s.world.store :=
    (congrArg World.store hworld).trans (hstore hd)
  have hkin : inv.Kin { inv with feed := scene'.feed } := ⟨rfl, rfl, rfl, rfl, rfl⟩
  have unsaved (hf : ∀ outcome, stop ≠ .finished (.ok outcome)) (hat : e.SavesAtOnce trace) :
      ∀ x ∈ did, x.1.isSave = false := by
    cases hplayed.turned hat with
    | answered => exact absurd rfl (hf _)
    | otherwise _ hd => exact hd
  have fails {report : Report} (hr : report.result.success = false) (hf : ∀ outcome, stop ≠ .finished (.ok outcome))
      (ht : Tells place { inv with feed := scene'.feed } report { s₁ with world := scene'.world }.release t) :
      Stepped e place inv trace did s t := by
    refine stepped_of_tells hb hn hi hkin hload ht hreleased hspoken fun inv' told hc htj htold _ => ?_
    rw [hworld] at htj
    exact .fails hw hc hr (htj.trans (by rw [hj])) htold (unsaved hf)
  -- while it waits the permit is kept, so nobody else gets on
  have hkept : Beside s { s₁ with world := scene'.world } :=
    ⟨ha.lap, ha.cancellations, fun h => .inl (hinv ▸ h), by rw [← hinv]⟩
  cases hr with
  | @concludes r =>
    cases r with
    | error failure => exact fails (success_failure ..) (fun _ h => nomatch h) tells_conclude
    | ok outcome =>
      refine stepped_of_tells hb hn hi hkin hload tells_conclude hreleased hspoken fun inv' told hc htj htold hts => ?_
      rw [hworld] at htj hts
      refine .succeeds hw hc rfl rfl (htj.trans (by rw [hj])) htold fun hat => ?_
      cases hplayed.turned hat with
      | answered hd hs => exact ⟨hd, hts.trans (hs.trans (by rw [hscene]))⟩
      | otherwise hf => exact absurd rfl (hf outcome)
  | timedOut hne hd => exact fails rfl (fun _ h => hne _ h) tells_conclude
  | breaks =>
    refine stepped_of_invocations hb hi hload hn rfl rfl rfl hreleased ⟨rfl, rfl, rfl, rfl, rfl⟩ trivial ?_ ?_
    · exact ⟨hspoken, fun h => (nomatch h), fun h => (nomatch h), fun h => (nomatch h)⟩
    · exact .breaks hw rfl rfl ((congrArg World.journal hworld).trans hj) (unsaved fun _ h => nomatch h)
  | pauses =>
    refine stepped_of_invocations hkept hi hload hnow rfl rfl rfl hstore ⟨rfl, rfl, rfl, rfl, rfl⟩ (hdue rfl) ?_ ?_
    · refine ⟨hspoken, fun h => (nomatch h), fun h => ?_, fun h => (nomatch h)⟩
      cases h
      exact hplayed.leads
    · exact .waits hw rfl hj (unsaved fun _ h => nomatch h)
  | hangs =>
    refine stepped_of_invocations hkept hi hload hnow rfl rfl rfl hstore ⟨rfl, rfl, rfl, rfl, rfl⟩ trivial ?_ ?_
    · exact ⟨hspoken, fun h => (nomatch h), fun h => (nomatch h), fun h => (nomatch h)⟩
    · exact .waits hw rfl hj (unsaved fun _ h => nomatch h)

/-- Every step says this about the service. -/
private theorem stepped_of_step (hi : s.invocations[place]? = some inv) (hs : e.Sound inv trace)
    (h : Step e s place inv t) : Stepped e place inv trace (e.did s inv) s t := by
  have hspoken : e.Spoken inv.command inv.streams (trace ++ []) := (List.append_nil trace).symm ▸ hs.spoken
  -- a cut, after which the permit or the place in the queue is given up
  have cut {s₁ : Service} {report : Report} (hgoes : e.goesOn? s inv = none) (hw : inv.stage.isWaiting)
      (ha : Aside s s₁) (hr : report.result.success = false) :
      Stepped e place inv trace (e.did s inv) s (e.conclude s₁ place inv report) := by
    rw [did_of_none hgoes]
    refine stepped_of_tells ha.toBeside (congrArg World.now ha.world) hi (.refl inv) loadsKept_nil tells_conclude
      (fun _ => congrArg World.store ha.world) hspoken fun inv' told hc hj ht _ => ?_
    rw [ha.world] at hj
    exact .fails hw hc hr (by simpa [entriesOf_nil] using hj) ht (by simp)
  -- what comes after the result is fixed
  have closing {report : Report} {t : Service} (hw : inv.stage.isWaiting = false) (hr : inv.stage.report? = some report)
      (ht : Tells place inv report s t) : Stepped e place inv trace (e.did s inv) s t := by
    have hgoes : e.goesOn? s inv = none := by
      cases hg : e.goesOn? s inv with
      | none => rfl
      | some rest => rw [(hs.goesOn hg).2] at hw; cases hw
    rw [did_of_none hgoes]
    exact stepped_of_tells (Aside.refl s).toBeside rfl hi (.refl inv) loadsKept_nil ht (fun _ => rfl) hspoken
      fun inv' told hc hj htold _ => .closes hw hr hc hj htold rfl
  cases h with
  | @runs rest s₁ hgoes ha hinv =>
    obtain ⟨hleads, hw⟩ := hs.goesOn hgoes
    have hdid : e.did s inv = rest.exchanges e.partners (some s.now) ⟨s.world, inv.feed⟩ := by rw [did, hgoes]
    have hr := resumed_resume e s₁ place inv rest
    rw [Service.now, ha.world] at hr
    rw [hdid]
    exact stepped_of_resumed hi hw ha hinv (fun hstore _ _ => loaded_of_leads hleads hstore _ _)
      (played_of_leads hleads _ _) rfl (journal_play_now rest rfl) (now_play rest rfl) (due_play rfl) hr
  | cancelled hgoes hw ha _ _ => exact cut hgoes hw ha (success_failure ..)
  | timedOut hgoes hw ha _ _ _ => exact cut hgoes hw ha rfl
  | queues hgoes hd ha _ _ =>
    rw [did_of_none hgoes]
    have hfresh : trace = [] := hs.fresh (by rw [hd]; rfl)
    refine stepped_of_invocations ha.toBeside hi loadsKept_nil (congrArg World.now ha.world) rfl rfl rfl
      (fun _ => congrArg World.store ha.world) ⟨rfl, rfl, rfl, rfl, rfl⟩ trivial ?_ ?_
    · rw [hfresh]
      exact sound_of_isFresh rfl
    · refine .waits (by rw [hd]; rfl) rfl ?_ (by simp)
      rw [entriesOf_nil, List.append_nil]
      exact congrArg World.journal ha.world
  | closes hstage => exact closing (by rw [hstage]; rfl) (by rw [hstage]; rfl) (tells_close (hs.closing hstage))
  | completes hstage => exact closing (by rw [hstage]; rfl) (by rw [hstage]; rfl) tells_complete
  | marks hstage => exact closing (by rw [hstage]; rfl) (by rw [hstage]; rfl) tells_putMark

/-- What the step at a slot says, after the consumer of the one who takes it has been heard. -/
theorem stepped_of_stepAt? {slot : Slot} (hi : s.invocations[slot.place]? = some inv) (hs : e.Sound inv trace)
    (h : e.stepAt? s slot = some t) :
    Stepped e slot.place inv trace (e.did ((s.atSlot slot).noteDrop inv) inv) ((s.atSlot slot).noteDrop inv) t := by
  obtain ⟨inv', hi', hp⟩ := Option.bind_eq_some_iff.1 h
  obtain rfl : inv = inv' := Option.some.inj (hi.symm.trans hi')
  have hinv := (s.atSlot slot).invocations_noteDrop inv
  exact stepped_of_step ((congrArg (·[slot.place]?) hinv).trans hi) hs (step_of_poll? hp)

end Engine

end AgentLoop
