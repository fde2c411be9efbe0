import AgentLoop.Proofs.Trace

/-!
# Processes without broken collaborators

A store that always fails and a retriever that is of no use may as well not be there.  A process without them does what
it does with them, but for the calls: it goes on at once as if these had been answered.  If it makes no difference to
the process how they are answered, the two play alike, and only the entries that the calls leave in the journal are
missing.
-/

namespace AgentLoop

/-- Which of the store and the retriever are out of order.  Whatever a broken store says to a load and to a save, these
errors will do in its place. -/
structure Outage where
  store : Option (StoreError × StoreError) := none
  retriever : Bool := false

/-- Whatever it is asked, the store fails at once, and keeps nothing. -/
structure ConversationStore.Fails (store : ConversationStore) : Prop where
  load (earlier : List Store.Operation) (kept : Store) (command : Command) :
    ∃ failure, store.load earlier kept command = .now (.error failure)
  save (earlier : List Store.Operation) (kept : Store) (command : Command) (messages : List Message) :
    ∃ failure, store.save earlier kept command messages = (.now (.error failure), kept)

namespace Outage

variable (o : Outage)

/-- The entries that calls of them leave. -/
def hides : Entry → Bool
  | .retrieved _ => o.retriever
  | .loaded _ | .saved .. => o.store.isSome
  | _ => false

/-- What may be taken for the answer to a call of them. -/
def answer? : (e : Effect) → Option e.Answer
  | .note entry => if o.hides entry then some () else none
  | .load _ => o.store.map fun (failure, _) => .now (.error failure)
  | .save .. => o.store.map fun (_, failure) => .now (.error failure)
  | .ask _ | .room | .put _ => none

/-- Everything but calls of them. -/
def visible : Contract runEffects := .ofAllows fun _ e => o.answer? e = none

/-- Partners that only differ in that the second ones have a broken store. -/
structure Between (partners' partners : Partners) : Prop where
  provider : partners'.provider = partners.provider
  store_same (h : o.store = none) : partners'.store = partners.store
  store_broken (h : o.store.isSome) : partners.store.Fails

end Outage

namespace Process

variable {α β : Type}

/-- Whoever reacts at once is not waited for. -/
def hasten : RunProcess α → RunProcess α
  | wait 0 next => next
  | p => p

/-- The process without calls of what is out of order. -/
def without (o : Outage) : RunProcess α → RunProcess α
  | done a => done a
  | act e next =>
    match o.answer? e with
    | some answer => hasten (without o (next answer))
    | none => act e fun answer => without o (next answer)
  | wait n next => wait n (without o next)
  | yield next => yield (without o next)
  | fault message => fault message
  | hang => hang

/-- It goes on in the same way whatever is said by those who are out of order. -/
def Indifferent (o : Outage) (partners : Partners) : RunProcess α → Prop
  | done _ | fault _ | hang => True
  | act e next =>
    (∀ answer, o.answer? e = some answer → ∀ s, next (e.perform partners s).1 = next answer) ∧
      ∀ answer, Indifferent o partners (next answer)
  | wait _ next | yield next => Indifferent o partners next

end Process

def Stop.without {α : Type} (o : Outage) : Stop α → Stop α
  | .paused due rest => .paused due (rest.without o)
  | stop => stop

def World.without (o : Outage) (w : World) : World :=
  { w with
    journal := w.journal.filter fun x => !o.hides x.2
    operations := if o.store.isSome then [] else w.operations }

def Scene.without (o : Outage) (s : Scene) : Scene := { s with world := s.world.without o }

/-! ### Play -/

variable {o : Outage} {partners partners' : Partners}

private theorem Scene.without_note {s : Scene} (entry : Entry) :
    (s.note entry).without o = if o.hides entry then s.without o else (s.without o).note entry := by
  simp only [Scene.without, Scene.note, World.without, List.filter_append]
  cases h : o.hides entry <;> simp [h]

/-- A call of something that is out of order is in vain. -/
private theorem Effect.perform_of_answer? {e : Effect} {answer : e.Answer} (h : o.answer? e = some answer)
    (hp : o.Between partners' partners) (s : Scene) : (e.perform partners s).2.without o = s.without o := by
  have hidden {entry : Entry} (he : o.hides entry = true) : (s.note entry).without o = s.without o := by
    rw [Scene.without_note, if_pos he]
  cases e with
  | note entry =>
    simp only [Outage.answer?] at h
    split at h
    · exact hidden ‹_›
    · cases h
  | load command =>
    obtain ⟨failures, ho, rfl⟩ := Option.map_eq_some_iff.1 h
    rw [← hidden (show o.hides (.loaded command.session) = true by simp [Outage.hides, ho])]
    simp [Effect.perform, Scene.without, World.without, ho]
  | save command messages =>
    obtain ⟨failures, ho, rfl⟩ := Option.map_eq_some_iff.1 h
    obtain ⟨failure, hfails⟩ :=
      (hp.store_broken (ho ▸ rfl)).save s.world.operations s.world.store command messages
    rw [← hidden (show o.hides (.saved command.session messages) = true by simp [Outage.hides, ho])]
    simp [Effect.perform, hfails, Scene.without, Scene.note, World.without, ho]
  | ask | room | put => cases h

/-- All other effects are what they are. -/
private theorem Effect.perform_without {e : Effect} (h : o.answer? e = none) (hp : o.Between partners' partners)
    (s : Scene) :
    e.perform partners' (s.without o) = ((e.perform partners s).1, (e.perform partners s).2.without o) := by
  have visible {entry : Entry} (he : o.hides entry = false) : (s.without o).note entry = (s.note entry).without o := by
    rw [Scene.without_note, he]
    rfl
  cases e with
  | note entry =>
    simp only [Outage.answer?] at h
    split at h
    · cases h
    · exact Prod.ext rfl (visible (Bool.eq_false_iff.2 ‹_›))
  | load command =>
    have ho : o.store = none := Option.map_eq_none_iff.1 h
    have hnote := @visible (.loaded command.session) (by simp [Outage.hides, ho])
    simp only [Effect.perform, hp.store_same ho, hnote]
    simp [Scene.without, Scene.note, World.without, ho]
  | save command messages =>
    have ho : o.store = none := Option.map_eq_none_iff.1 h
    have hnote := @visible (.saved command.session messages) (by simp [Outage.hides, ho])
    simp only [Effect.perform, hp.store_same ho, hnote]
    simp [Scene.without, Scene.note, World.without, ho]
  | ask request =>
    have hnote := @visible (.asked request) rfl
    simp only [Effect.perform, hp.provider, hnote]
    rfl
  | room | put => rfl

namespace Process

variable {α : Type}

private theorem play_hasten (p : RunProcess α) (partners : Partners) (limit : Option Nat) (s : Scene) :
    (hasten p).play partners limit s = p.play partners limit s := by
  unfold hasten
  split <;> rfl

private theorem play_act (e : Effect) (next : e.Answer → RunProcess α) (partners : Partners) (limit : Option Nat)
    (s : Scene) :
    play partners limit (act e next) s =
      (next (e.perform partners s).1).play partners limit (e.perform partners s).2 := rfl

private theorem without_of_answer? {e : Effect} {answer : e.Answer} (h : o.answer? e = some answer)
    (next : e.Answer → RunProcess α) : without o (act e next) = hasten ((next answer).without o) := by
  simp only [without, h]

private theorem without_of_none {e : Effect} (h : o.answer? e = none) (next : e.Answer → RunProcess α) :
    without o (act e next) = act e fun answer => (next answer).without o := by
  simp only [without, h]

/-- The play without those calls is the play but for the calls. -/
theorem play_without (hp : o.Between partners' partners) (limit : Option Nat) {p : RunProcess α}
    (h : p.Indifferent o partners) (s : Scene) :
    (p.without o).play partners' limit (s.without o) =
      ((p.play partners limit s).1.without o, (p.play partners limit s).2.without o) := by
  induction p generalizing s with
  | done | fault | hang => rfl
  | act e next ih =>
    cases ha : o.answer? e with
    | some answer =>
      rw [without_of_answer? ha, play_hasten, play_act, h.1 answer ha s, ← e.perform_of_answer? ha hp s]
      exact ih answer (h.2 answer) _
    | none =>
      rw [without_of_none ha, play_act, play_act, e.perform_without ha hp]
      exact ih _ (h.2 _) _
  | wait n next ih =>
    unfold without play
    split
    · exact ih h s
    · have hdue : (s.without o).world.now = s.world.now := rfl
      dsimp only
      rw [hdue]
      split
      · rfl
      · exact ih h (s.atTime (s.world.now + n))
  | yield next ih =>
    unfold without play
    have hnow : (s.without o).world.now = s.world.now := rfl
    rw [hnow]
    split
    · rfl
    · exact ih h s

/-! ### In the place of others -/

variable {β : Type} {p p' : RunProcess α}

theorem Indifferent.bind {g : α → RunProcess β} (h : p.Indifferent o partners)
    (hg : ∀ a, (g a).Indifferent o partners) : (p >>= g).Indifferent o partners := by
  induction p with
  | done a => exact hg a
  | act e next ih =>
    exact ⟨fun answer ha s => congrArg (· >>= g) (h.1 answer ha s), fun answer => ih answer (h.2 answer)⟩
  | wait n next ih | yield next ih => exact ih h
  | fault | hang => trivial

theorem indifferent_react (r : Reaction α) : (react r).Indifferent o partners := by
  obtain ⟨after, ending⟩ := r
  cases ending <;> trivial

/-- What is left of it is not interested either. -/
theorem Indifferent.of_leads {t : List (Exchange runEffects)} (h : p.Indifferent o partners) (hl : Leads p t p') :
    p'.Indifferent o partners := by
  induction hl with
  | here => exact h
  | act _ ih => exact ih (h.2 _)
  | wait _ ih | yield _ ih => exact ih h

/-- If nothing else is ever said than what may be taken for the answer, there is nothing to care about. -/
theorem indifferent_of_constant
    (h : ∀ (e : Effect) (answer : e.Answer), o.answer? e = some answer → ∀ s, (e.perform partners s).1 = answer)
    (p : RunProcess α) : p.Indifferent o partners := by
  induction p with
  | done | fault | hang => trivial
  | act e next ih => exact ⟨fun answer ha s => congrArg next (h e answer ha s), ih⟩
  | wait n next ih | yield next ih => exact ih

/-- What calls nothing that is out of order does not hear of it. -/
theorem indifferent_of_keeps {t : List (Exchange runEffects)} (h : Keeps o.visible (fun _ _ => True) t p) :
    p.Indifferent o partners := by
  induction p generalizing t with
  | done | fault | hang => trivial
  | act e next ih =>
    exact ⟨fun answer ha => (nomatch h.1.symm.trans ha), fun answer => ih answer (h.2 answer trivial)⟩
  | wait n next ih | yield next ih => exact ih h

/-- `p'` does what `p` does without those calls, whatever follows, and `p` does not care how they are answered. -/
structure Replaces (o : Outage) (partners : Partners) (p' p : RunProcess α) : Prop where
  indifferent : p.Indifferent o partners
  bind_eq {β : Type} (g : α → RunProcess β) : (p >>= g).without o = p' >>= fun a => (g a).without o

theorem Replaces.bind {g g' : α → RunProcess β} (h : Replaces o partners p' p)
    (hg : ∀ a, Replaces o partners (g' a) (g a)) : Replaces o partners (p' >>= g') (p >>= g) := by
  refine ⟨h.indifferent.bind fun a => (hg a).indifferent, fun k => ?_⟩
  rw [LawfulMonad.bind_assoc, h.bind_eq fun a => g a >>= k, LawfulMonad.bind_assoc]
  exact congrArg (p' >>= ·) (funext fun a => (hg a).bind_eq k)

theorem Replaces.eq (h : Replaces o partners p' p) : p' = p.without o := by
  have hpure := h.bind_eq pure
  rw [bind_pure] at hpure
  exact (hpure.trans (bind_pure p')).symm

theorem replaces_pure (a : α) : Replaces o partners (pure a) (pure a) := ⟨trivial, fun _ => rfl⟩

/-- What calls nothing that is out of order stays what it is. -/
theorem replaces_of_keeps {t : List (Exchange runEffects)} (h : Keeps o.visible (fun _ _ => True) t p) :
    Replaces o partners p p := by
  refine ⟨indifferent_of_keeps h, fun g => ?_⟩
  induction p generalizing t with
  | done | fault | hang => rfl
  | act e next ih =>
    show without o (act e fun answer => next answer >>= g) = act e fun answer => next answer >>= _
    rw [without_of_none h.1]
    exact congrArg (act e) (funext fun answer => ih answer (h.2 answer trivial))
  | wait n next ih => exact congrArg (wait n) (ih h)
  | yield next ih => exact congrArg yield (ih h)

/-- A call in vain: whatever is said to it, the process goes on at once with the same. -/
theorem replaces_act {e : Effect} {answer : e.Answer} {next : e.Answer → RunProcess α} {a : α}
    (ha : o.answer? e = some answer) (hnext : next answer = wait 0 (done a))
    (hsame : ∀ s, next (e.perform partners s).1 = next answer) (hi : ∀ answer, (next answer).Indifferent o partners) :
    Replaces o partners (pure a) (act e next) where
  indifferent := ⟨fun _ ha' s => Option.some.inj (ha.symm.trans ha') ▸ hsame s, hi⟩
  bind_eq g := by
    show without o (act e fun answer => next answer >>= g) = (g a).without o
    rw [without_of_answer? ha, hnext]
    rfl

end Process

end AgentLoop
