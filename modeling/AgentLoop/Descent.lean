import AgentLoop.Run

/-!
# Descent

What is left of a process after some of it has happened comes before it in a well-founded order, and so does a list
of things one of which has been replaced by an earlier one.  Whatever is played piece by piece therefore comes to
its end.
-/

namespace AgentLoop

namespace Process

variable {S : Signature} {α : Type}

/-- What is left after the first step. -/
inductive Child : Process S α → Process S α → Prop where
  | act (e : S.Effect) (next : S.Answer e → Process S α) (answer : S.Answer e) : Child (next answer) (act e next)
  | wait (n : Nat) (next : Process S α) : Child next (wait n next)
  | yield (next : Process S α) : Child next (yield next)

theorem acc_child (p : Process S α) : Acc Child p := by
  induction p with
  | done => exact ⟨_, fun _ h => nomatch h⟩
  | act e next ih => exact ⟨_, fun _ h => by cases h; exact ih _⟩
  | wait n next ih => exact ⟨_, fun _ h => by cases h; exact ih⟩
  | yield next ih => exact ⟨_, fun _ h => by cases h; exact ih⟩
  | fault => exact ⟨_, fun _ h => nomatch h⟩
  | hang => exact ⟨_, fun _ h => nomatch h⟩

/-- What is left after some steps, at least one. -/
abbrev Within : Process S α → Process S α → Prop := Relation.TransGen Child

theorem wellFounded_within : WellFounded (Within (S := S) (α := α)) := (⟨acc_child⟩ : WellFounded Child).transGen

/-- Play that pauses has come some way. -/
theorem within_of_play_eq_paused {partners : Partners} {limit : Option Nat} {p rest : RunProcess α} {s : Scene}
    {due : Nat} (h : (play partners limit p s).1 = .paused due rest) : Within rest p := by
  induction p generalizing s with
  | done => simp [play] at h
  | act e next ih =>
    rw [play] at h
    exact .tail (ih _ h) (.act e next _)
  | wait n next ih =>
    rw [play] at h
    split at h
    · exact .tail (ih h) (.wait n next)
    · dsimp only at h
      split at h
      · obtain ⟨-, rfl⟩ : _ ∧ next = rest := by simpa using h
        exact .single (.wait n next)
      · exact .tail (ih h) (.wait n next)
  | yield next ih =>
    rw [play] at h
    split at h
    · obtain ⟨-, rfl⟩ : _ ∧ next = rest := by simpa using h
      exact .single (.yield next)
    · exact .tail (ih h) (.yield next)
  | fault => simp [play] at h
  | hang => simp [play] at h

end Process

/-! ### Lists -/

/-- One element is replaced by one that comes before it. -/
inductive Lowered {α : Type} (r : α → α → Prop) : List α → List α → Prop where
  | head {a b : α} (rest : List α) (h : r a b) : Lowered r (a :: rest) (b :: rest)
  | tail (a : α) {xs ys : List α} (h : Lowered r xs ys) : Lowered r (a :: xs) (a :: ys)

namespace Lowered

variable {α : Type} {r : α → α → Prop}

private theorem acc_nil : Acc (Lowered r) [] := ⟨_, fun _ h => nomatch h⟩

private theorem acc_cons {a : α} (ha : Acc r a) : ∀ {xs : List α}, Acc (Lowered r) xs → Acc (Lowered r) (a :: xs) := by
  induction ha with
  | intro a _ iha =>
    intro xs hxs
    induction hxs with
    | intro xs hxs' ihxs =>
      refine ⟨_, fun ys h => ?_⟩
      cases h with
      | head rest h => exact iha _ h ⟨_, hxs'⟩
      | tail _ h => exact ihxs _ h

theorem wellFounded (hr : WellFounded r) : WellFounded (Lowered r) :=
  ⟨fun xs => by
    induction xs with
    | nil => exact acc_nil
    | cons a xs ih => exact acc_cons (hr.apply a) ih⟩

theorem set {xs : List α} {i : Nat} {a b : α} (hb : xs[i]? = some b) (h : r a b) : Lowered r (xs.set i a) xs := by
  induction xs generalizing i with
  | nil => simp at hb
  | cons x xs ih =>
    cases i with
    | zero =>
      obtain rfl : x = b := by simpa using hb
      exact .head xs h
    | succ i => exact .tail x (ih (by simpa using hb))

end Lowered

end AgentLoop
