import AgentLoop.Proofs.Replies

/-!
# Runs alongside each other

A loop is played with two providers, perhaps with a consumer in one play and without one in the other.  The scenes of
the two plays stand in a relation.  If notes and the passing of time keep the relation, and one turn of the model does,
then whole runs do: a run does not look at its turns otherwise than at what they bring.
-/

namespace AgentLoop

open Process

/-! ### Answers that agree -/

/-- The same error, or values that match. -/
def Agree {ε α β : Type} (R : α → β → Prop) : Except ε α → Except ε β → Prop
  | .ok a, .ok b => R a b
  | .error e, .error e' => e = e'
  | _, _ => False

theorem Agree.imp {ε α β : Type} {R R' : α → β → Prop} {a : Except ε α} {b : Except ε β} (h : Agree R a b)
    (hR : ∀ x y, a = .ok x → b = .ok y → R x y → R' x y) : Agree R' a b := by
  cases a with
  | error e =>
    cases b with
    | error e' => exact h
    | ok y => exact h
  | ok x =>
    cases b with
    | error e' => exact h
    | ok y => exact hR x y rfl rfl h

/-- Work that ends alike, with values that match. -/
def Ending.Matches {α β : Type} (R : α → β → Prop) : Ending α → Ending β → Prop
  | .returns a, .returns b => R a b
  | .faults message, .faults message' => message = message'
  | .hangs, .hangs => True
  | _, _ => False

theorem Ending.Matches.imp {α β : Type} {R R' : α → β → Prop} {e : Ending α} {e' : Ending β} (h : e.Matches R e')
    (hR : ∀ a b, e = .returns a → e' = .returns b → R a b → R' a b) : e.Matches R' e' := by
  cases e <;> cases e' <;> try exact h
  case returns a b => exact hR a b rfl rfl h

/-- Reactions that end alike, after the same time. -/
structure Reaction.Matches {α β : Type} (R : α → β → Prop) (r : Reaction α) (r' : Reaction β) : Prop where
  after : r.after = r'.after
  ending : r.ending.Matches R r'.ending

/-! ### Scenes that stay related -/

/-- Notes and the passing of time keep the relation, and the clocks matter only where they agree. -/
structure Lasts (limit : Option Nat) (rel : Scene → Scene → Prop) : Prop where
  clock {s t : Scene} (h : rel s t) : limit = none ∨ t.world.now = s.world.now
  later {s t : Scene} (h : rel s t) {ticks : Nat} (hl : limit.any (· ≤ s.world.now + ticks) = false) :
    rel (s.atTime (s.world.now + ticks)) (t.atTime (t.world.now + ticks))
  note {s t : Scene} (h : rel s t) (e : Entry) : rel (s.note e) (t.note e)

/-- Played in related scenes, the processes stop alike, with values that match, and again in related scenes. -/
def Alongside {α β : Type} (p q : Provider) (limit : Option Nat) (rel : Scene → Scene → Prop) (R : α → β → Prop)
    (x : RunProcess α) (y : RunProcess β) : Prop :=
  ∀ s t : Scene, rel s t →
    (x.play p limit s).1.Matches R (y.play q limit t).1 ∧ rel (x.play p limit s).2 (y.play q limit t).2

namespace Alongside

variable {α β γ δ : Type} {p q : Provider} {limit : Option Nat} {rel : Scene → Scene → Prop} {R : α → β → Prop}
  {x : RunProcess α} {y : RunProcess β}

theorem pure {a : α} {b : β} (h : R a b) : Alongside p q limit rel R (pure a) (pure b) := fun _ _ hst => ⟨h, hst⟩

theorem bind {R' : γ → δ → Prop} {f : α → RunProcess γ} {g : β → RunProcess δ} (h : Alongside p q limit rel R x y)
    (hf : ∀ a b, R a b → Alongside p q limit rel R' (f a) (g b)) : Alongside p q limit rel R' (x >>= f) (y >>= g) := by
  intro s t hst
  obtain ⟨hm, hb⟩ := h s t hst
  rw [play_bind, play_bind]
  revert hm hb
  generalize x.play p limit s = x', y.play q limit t = y'
  obtain ⟨stop, s'⟩ := x'
  obtain ⟨stop', t'⟩ := y'
  intro hm hb
  cases stop <;> cases stop' <;> try exact hm.elim
  case finished a b => exact hf a b hm s' t' hb
  case broke | paused | stuck => exact ⟨hm, hb⟩

/-- The limit is reached in both scenes or in neither. -/
private theorem any_le_eq (hrel : Lasts limit rel) {s t : Scene} (hst : rel s t) (ticks : Nat) :
    limit.any (· ≤ t.world.now + ticks) = limit.any (· ≤ s.world.now + ticks) := by
  rcases hrel.clock hst with rfl | hnow
  · rfl
  · rw [hnow]

private theorem wait (hrel : Lasts limit rel) (h : Alongside p q limit rel R x y) (ticks : Nat) :
    Alongside p q limit rel R (.wait ticks x) (.wait ticks y) := by
  intro s t hst
  unfold play
  split
  · exact h s t hst
  · dsimp only
    rw [any_le_eq hrel hst]
    split
    · rename_i hl
      refine ⟨?_, hst⟩
      rcases hrel.clock hst with rfl | hnow
      · cases hl
      · exact congrArg (· + ticks) hnow.symm
    · rename_i hl
      exact h _ _ (hrel.later hst (by simpa using hl))

private theorem yield (hrel : Lasts limit rel) (h : Alongside p q limit rel R x y) :
    Alongside p q limit rel R (.yield x) (.yield y) := by
  intro s t hst
  have hany : limit.any (· ≤ t.world.now) = limit.any (· ≤ s.world.now) := any_le_eq hrel hst 0
  unfold play
  rw [hany]
  split
  · rename_i hl
    refine ⟨?_, hst⟩
    rcases hrel.clock hst with rfl | hnow
    · cases hl
    · exact hnow.symm
  · exact h s t hst

/-- A process that only takes notes does the same in both scenes. -/
private theorem of_notes (hrel : Lasts limit rel) {x : RunProcess α} {post : RunTrace → α → Prop} {u : RunTrace}
    (h : Keeps Beside.noteContract post u x) : Alongside p q limit rel Eq x x := by
  induction x generalizing u with
  | done a => exact Alongside.pure rfl
  | fault message => exact fun _ _ hst => ⟨rfl, hst⟩
  | hang => exact fun _ _ hst => ⟨trivial, hst⟩
  | act e next ih =>
    obtain ⟨⟨entry, rfl⟩, hnext⟩ := h
    exact fun s t hst => ih () (hnext () trivial) _ _ (hrel.note hst entry)
  | wait ticks next ih => exact wait hrel (ih h) ticks
  | yield next ih => exact yield hrel (ih h)

/-- Reactions that match are lived through alike. -/
theorem react (hrel : Lasts limit rel) {r : Reaction α} {r' : Reaction β} (h : r.Matches R r') :
    Alongside p q limit rel R (react r) (react r') := by
  rw [react_eq, react_eq, ← h.after]
  refine wait hrel ?_ r.after
  have hending := h.ending
  revert hending
  generalize r.ending = ending, r'.ending = ending'
  intro hending
  cases ending <;> cases ending' <;> try exact hending.elim
  case returns => exact Alongside.pure hending
  case faults => exact fun _ _ hst => ⟨hending, hst⟩
  case hangs => exact fun _ _ hst => ⟨trivial, hst⟩

end Alongside

namespace Loop

variable {l : Loop} {p q : Provider} {limit : Option Nat} {rel : Scene → Scene → Prop} {request request' : Request}

/-- The loop with a consumer or without one. -/
def withStreams (l : Loop) (on : Bool) : Loop := { l with streams := on }

/-- What comes of answers that agree does, if that is so for another attempt. -/
private theorem alongside_judged {Q : Reply → Reply → Prop} {a b : Except ProviderError Reply}
    {again again' : ProviderError → RunProcess (Except RunError Reply)} (hab : Agree Q a b)
    (hagain : ∀ e, Alongside p q limit rel (Agree Q) (again e) (again' e)) :
    Alongside p q limit rel (Agree Q) (judged again a) (judged again' b) := by
  cases a with
  | ok reply =>
    cases b with
    | ok reply' => exact .pure hab
    | error e => exact hab.elim
  | error e =>
    cases b with
    | ok reply' => exact hab.elim
    | error e' =>
      obtain rfl : e = e' := hab
      have failed (failure : RunError) : Alongside p q limit rel (Agree Q)
          (pure (.error failure) : RunProcess (Except RunError Reply)) (pure (.error failure)) := .pure rfl
      unfold judged
      split
      · contradiction
      · exact failed _
      · rename_i heq
        obtain rfl := Except.error.inj heq
        split
        · exact hagain _
        · exact failed _

/-- Attempts that agree are repeated alike. -/
theorem alongside_attemptsFrom (hrel : Lasts limit rel) {Q : Reply → Reply → Prop}
    (h : Alongside p q limit rel (Agree Q) (attempt request) (attempt request')) (made left : Nat) :
    Alongside p q limit rel (Agree Q)
      (Retry.attemptsFrom l.policy l.draw l.record (fun _ => attempt request) made left)
      (Retry.attemptsFrom l.policy l.draw l.record (fun _ => attempt request') made left) := by
  induction left generalizing made with
  | zero =>
    rw [attemptsFrom_zero, attemptsFrom_zero]
    exact h.bind fun a b hab => alongside_judged hab fun e => .pure rfl
  | succ left ih =>
    rw [attemptsFrom_retry, attemptsFrom_retry]
    refine h.bind fun a b hab => alongside_judged hab fun e => ?_
    unfold retry
    split
    · exact fun _ _ hst => ⟨rfl, hst⟩
    · rename_i delay hdelay
      refine (Alongside.of_notes hrel (notes_record _ [])).bind fun _ _ _ => ?_
      have hsleep : Keeps Beside.noteContract (fun _ _ => True) [] (Process.sleep delay.ticks) := trivial
      exact (Alongside.of_notes hrel hsleep).bind fun _ _ _ => ih (made + 1)

/-- The same turn, but for the names of the models, which stand in a relation. -/
def SameBut (M : String → String → Prop) (turn turn' : Turn) : Prop :=
  ∃ model, turn' = { turn with model } ∧ M turn.model model

/-- If turns do the same, then so do runs. -/
theorem alongside_turns (hrel : Lasts limit rel) {M : String → String → Prop} {on on' : Bool} {input : LoopInput}
    (hturn : ∀ messages offer, Alongside p q limit rel (Agree (SameBut M))
      ((l.withStreams on).takeTurn ((l.withStreams on).request input messages offer))
      ((l.withStreams on').takeTurn ((l.withStreams on').request input messages offer)))
    (hnote : ∀ {model model' : String} (tokens : UInt32), M model model' → ∀ {s t : Scene}, rel s t →
      rel (s.note (.event (.responseGenerated model tokens))) (t.note (.event (.responseGenerated model' tokens))))
    (k : Nat) (s : State) :
    Alongside p q limit rel Eq ((l.withStreams on).turns input k s) ((l.withStreams on').turns input k s) := by
  induction k using Nat.strongRecOn generalizing s with
  | ind k ih =>
    rw [turns_eq, turns_eq]
    dsimp only
    refine (hturn _ _).bind fun a b hab => ?_
    cases a with
    | error e =>
      cases b with
      | error e' => exact .pure (congrArg _ hab)
      | ok => exact hab.elim
    | ok turn =>
      cases b with
      | error => exact hab.elim
      | ok turn' =>
        obtain ⟨model, rfl, hmodel⟩ := hab
        have hrecord : Alongside p q limit rel Eq
            ((l.withStreams on).record (.responseGenerated turn.model ((turn.usage.map (·.total)).getD 0)))
            ((l.withStreams on').record (.responseGenerated model ((turn.usage.map (·.total)).getD 0))) := by
          intro s t hst
          unfold record
          by_cases hr : l.recordsEvents = true
          · rw [if_pos (show (l.withStreams on).recordsEvents = true from hr),
              if_pos (show (l.withStreams on').recordsEvents = true from hr)]
            exact ⟨rfl, hnote _ hmodel hst⟩
          · rw [if_neg (show ¬ (l.withStreams on).recordsEvents = true from hr),
              if_neg (show ¬ (l.withStreams on').recordsEvents = true from hr)]
            exact ⟨rfl, hst⟩
        refine hrecord.bind fun _ _ _ => ?_
        by_cases hcalls : (k != 0 && !input.tools.isEmpty && !s.ledger.limitReached && !turn.calls.isEmpty) = true
        · rw [if_pos hcalls, if_pos hcalls]
          have hround : Keeps Beside.noteContract (fun _ _ => True) []
              ((l.withStreams on).playRound input s.ledger turn.calls) := notes_playRound input s.ledger turn.calls
          refine (Alongside.of_notes hrel hround).bind fun r r' hr => ?_
          obtain rfl := hr
          cases r with
          | error e => exact .pure rfl
          | ok round =>
            have hk : k ≠ 0 := by
              rintro rfl
              cases hcalls
            exact ih (k - 1) (by omega) _
        · rw [if_neg hcalls, if_neg hcalls]
          exact .pure rfl

end Loop

end AgentLoop
