import AgentLoop.Proofs.Played

/-!
# What happens at an instant

A service lets a process play up to the instant at which it stands.  Then no time passes: the clock stays, whatever
goes into the journal has that time, and what is left is due no earlier.  Without saving, what is kept stays as it is,
and what a store loads that answers at once is what is kept.
-/

namespace AgentLoop

def Effect.isSave : Effect → Bool
  | save .. => true
  | _ => false

private theorem Effect.now_perform (partners : Partners) (e : Effect) (s : Scene) :
    (e.perform partners s).2.world.now = s.world.now := by
  cases e <;> rfl

private theorem Effect.store_perform {e : Effect} (partners : Partners) (h : e.isSave = false) (s : Scene) :
    (e.perform partners s).2.world.store = s.world.store := by
  cases e with
  | save => cases h
  | _ => rfl

namespace Process

variable {α β : Type} {partners : Partners} {limit : Option Nat}

/-- Play goes through a process and on with what follows. -/
theorem play_bind (p : RunProcess α) (f : α → RunProcess β) (s : Scene) :
    (p >>= f).play partners limit s =
      match p.play partners limit s with
      | (.finished a, s) => (f a).play partners limit s
      | (.broke message, s) => (.broke message, s)
      | (.paused due rest, s) => (.paused due (rest >>= f), s)
      | (.stuck, s) => (.stuck, s) := by
  show (p.bind f).play partners limit s = _
  induction p generalizing s with
  | done | fault | hang => rfl
  | act e next ih => exact ih _ _
  | wait n next ih =>
    simp only [Process.bind, play]
    split
    · exact ih _
    · split
      · rfl
      · exact ih _
  | yield next ih =>
    simp only [Process.bind, play]
    split
    · rfl
    · exact ih _

theorem exchanges_bind (p : RunProcess α) (f : α → RunProcess β) (s : Scene) :
    (p >>= f).exchanges partners limit s = p.exchanges partners limit s ++
      match p.play partners limit s with
      | (.finished a, s) => (f a).exchanges partners limit s
      | _ => [] := by
  show (p.bind f).exchanges partners limit s = _
  induction p generalizing s with
  | done | fault | hang => rfl
  | act e next ih => exact congrArg _ (ih _ _)
  | wait n next ih =>
    simp only [Process.bind, exchanges, play]
    split
    · exact ih _
    · split
      · rfl
      · exact ih _
  | yield next ih =>
    simp only [Process.bind, exchanges, play]
    split
    · rfl
    · exact ih _

theorem now_play (p : RunProcess α) {s : Scene} {now : Nat} (h : s.world.now = now) :
    (p.play partners (some now) s).2.world.now = now := by
  induction p generalizing s with
  | done | fault | hang => exact h
  | act e next ih => exact ih _ ((e.now_perform partners s).trans h)
  | wait n next ih =>
    unfold play
    split
    · exact ih h
    · dsimp only
      rw [if_pos (by simp [h])]
      exact h
  | yield next ih =>
    unfold play
    rw [if_pos (by simp [h])]
    exact h

theorem due_play {p : RunProcess α} {s : Scene} {now due : Nat} {rest : RunProcess α} (h : s.world.now = now)
    (hp : (p.play partners (some now) s).1 = .paused due rest) : now ≤ due := by
  induction p generalizing s with
  | done | fault | hang => cases hp
  | act e next ih => exact ih _ ((e.now_perform partners s).trans h) hp
  | wait n next ih =>
    unfold play at hp
    split at hp
    · exact ih h hp
    · dsimp only at hp
      rw [if_pos (by simp [h])] at hp
      cases hp
      omega
  | yield next ih =>
    unfold play at hp
    rw [if_pos (by simp [h])] at hp
    cases hp
    omega

/-- What goes into the journal at an instant. -/
theorem journal_play_now (p : RunProcess α) {s : Scene} {now : Nat} (h : s.world.now = now) :
    (p.play partners (some now) s).2.world.journal = s.world.journal ++
      ((p.exchanges partners (some now) s).filterMap Exchange.entry?).map (now, ·) := by
  induction p generalizing s with
  | done | fault | hang => simp [play, exchanges]
  | act e next ih =>
    have hrest := ih (e.perform partners s).1 ((e.now_perform partners s).trans h)
    simp only [play, exchanges, List.filterMap_cons]
    rw [hrest]
    cases e <;> simp [Effect.perform, Exchange.entry?, Scene.note, h]
  | wait n next ih =>
    unfold play exchanges
    split
    · exact ih h
    · dsimp only
      rw [if_pos (by simp [h]), if_pos (by simp [h])]
      simp
  | yield next ih =>
    unfold play exchanges
    rw [if_pos (by simp [h]), if_pos (by simp [h])]
    simp

theorem store_play {p : RunProcess α} {s : Scene} (h : ∀ x ∈ p.exchanges partners limit s, x.1.isSave = false) :
    (p.play partners limit s).2.world.store = s.world.store := by
  induction p generalizing s with
  | done | fault | hang => rfl
  | act e next ih =>
    exact (ih _ fun x hx => h x (List.mem_cons_of_mem _ hx)).trans
      (e.store_perform partners (h _ (List.mem_cons_self ..)) s)
  | wait n next ih =>
    unfold exchanges at h
    unfold play
    split
    · rename_i hn
      exact ih (by simpa [hn] using h)
    · rename_i hn
      rw [if_neg hn] at h
      dsimp only
      split
      · rfl
      · rename_i hl
        exact ih (by simpa [hl] using h)
  | yield next ih =>
    unfold exchanges at h
    unfold play
    split
    · rfl
    · rename_i hl
      exact ih (by simpa [hl] using h)

/-- What a store loads that answers at once is what is kept. -/
theorem loaded_of_mem_exchanges {p : RunProcess α} {s : Scene} (hp : partners.store = .atOnce)
    (h : ∀ x ∈ p.exchanges partners limit s, x.1.isSave = false) {command : Command}
    {answer : Reaction (Except StoreError (List Message))} (hx : ⟨.load command, answer⟩ ∈ p.exchanges partners limit s) :
    answer = .now (s.world.store.load command.session) := by
  induction p generalizing s with
  | done | fault | hang => cases hx
  | act e next ih =>
    have hs := e.store_perform partners (h _ (List.mem_cons_self ..)) s
    rcases List.mem_cons.1 hx with hx | hx
    · cases hx
      simp only [hp, ConversationStore.atOnce]
    · rw [← hs]
      exact ih _ (fun x hx => h x (List.mem_cons_of_mem _ hx)) hx
  | wait n next ih =>
    unfold exchanges at h hx
    split at hx
    · rename_i hn
      exact ih (by simpa [hn] using h) hx
    · rename_i hn
      rw [if_neg hn] at h
      split at hx
      · cases hx
      · rename_i hl
        exact ih (s := s.atTime (s.world.now + n)) (by simpa [hl] using h) hx
  | yield next ih =>
    unfold exchanges at h hx
    split at hx
    · cases hx
    · rename_i hl
      exact ih (by simpa [hl] using h) hx

end Process

end AgentLoop
