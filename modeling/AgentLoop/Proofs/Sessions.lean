import AgentLoop.Proofs.History
import Mathlib.Data.List.Induction

/-!
# Sessions as bounded logs

Whatever is saved and loaded, and under whatever sessions, a store in memory holds of each session the end of everything
that was saved under it, as much of it as the cap allows.  The cap is enforced on every save, by throwing away what is
beyond it, so the point is that throwing away along the way loses nothing of the end (`lastUpTo_append_lastUpTo`).
-/

namespace AgentLoop

/-! ### The end of a list -/

/-- `kept` is the end of `whole`, as long as the cap allows. -/
structure IsEnd {α : Type} (cap : Option Nat) (whole kept : List α) : Prop where
  suffix : kept <:+ whole
  length : kept.length = (cap.map (min · whole.length)).getD whole.length

section

variable {α : Type} {cap : Option Nat}

/-- Of two ends that are as long as the cap allows, neither is longer than the other. -/
private theorem IsEnd.unique {whole kept kept' : List α} (h : IsEnd cap whole kept) (h' : IsEnd cap whole kept') :
    kept = kept' := by
  have hlength : kept.length = kept'.length := h.length.trans h'.length.symm
  have hsuffix : kept <:+ kept' := List.suffix_of_suffix_length_le h.suffix h'.suffix (Nat.le_of_eq hlength)
  exact hsuffix.eq_of_length hlength

private theorem isEnd_lastUpTo (cap : Option Nat) (xs : List α) : IsEnd cap xs (lastUpTo cap xs) := by
  cases cap with
  | none => exact ⟨List.suffix_refl xs, rfl⟩
  | some n =>
    refine ⟨List.drop_suffix _ _, ?_⟩
    show (xs.drop (xs.length - n)).length = min n xs.length
    rw [List.length_drop]
    omega

private theorem lastUpTo_nil (cap : Option Nat) : lastUpTo cap ([] : List α) = [] := by
  cases cap <;> simp [lastUpTo]

/-- What was thrown away before more was added would have been thrown away after it too. -/
private theorem lastUpTo_append_lastUpTo (cap : Option Nat) (xs ys : List α) :
    lastUpTo cap (lastUpTo cap xs ++ ys) = lastUpTo cap (xs ++ ys) := by
  cases cap with
  | none => rfl
  | some n =>
    have hdropped : xs.length - n ≤ xs.length := Nat.sub_le _ _
    show (xs.drop (xs.length - n) ++ ys).drop ((xs.drop (xs.length - n) ++ ys).length - n) =
      (xs ++ ys).drop ((xs ++ ys).length - n)
    rw [← List.drop_append_of_le_length hdropped, List.drop_drop]
    congr 1
    simp only [List.length_drop, List.length_append]
    omega

end

namespace Store

/-! ### Operations -/

/-- What a store comes back with if it does what it is asked. -/
inductive Answer where
  | saved
  | loaded (messages : List Message)

namespace Operation

/-- The session that an operation is about. -/
def session : Operation → Option String
  | save command _ | load command => command.session

def perform (s : Store) : Operation → Except StoreError Answer × Store
  | save command messages =>
    let (result, s') := s.save command.session messages
    (result.map fun () => .saved, s')
  | load command => ((s.load command.session).map .loaded, s)

/-- What an operation adds to a session. -/
def added (id : String) : Operation → List Message
  | save command messages => if command.session = some id then messages else []
  | load _ => []

end Operation

open Operation

/-- A new store in memory after operations, one after another. -/
def after (cap : Option Nat) (ops : List Operation) : Store :=
  ops.foldl (fun s op => (op.perform s).2) { kind := .inMemory cap }

/-- Everything that was saved under a session, in order. -/
def savedUnder (id : String) (ops : List Operation) : List Message := ops.flatMap (added id)

/-- How an operation is to be answered once others have gone before it. -/
inductive Answers (cap : Option Nat) (before : List Operation) : Operation → Except StoreError Answer → Prop where
  | saved {command : Command} {messages : List Message} {id : String} (h : command.session = some id) :
    Answers cap before (.save command messages) (.ok .saved)
  | loaded {command : Command} {id : String} {messages : List Message} (h : command.session = some id)
    (hend : IsEnd cap (savedUnder id before) messages) : Answers cap before (.load command) (.ok (.loaded messages))
  | nowhere {op : Operation} (h : op.session = none) : Answers cap before op (.error .missingSession)

/-- What a new store in memory does under a cap, whatever is done with it. -/
structure BoundedLogs (cap : Option Nat) : Prop where
  /-- A session holds the end of what was saved under it, -/
  log (ops : List Operation) (id : String) : IsEnd cap (savedUnder id ops) ((after cap ops).log id)
  /-- and whoever loads it next gets just that. -/
  answers (ops : List Operation) (op : Operation) : Answers cap ops op (op.perform (after cap ops)).1
  /-- What is done under other sessions makes no difference to a session, -/
  apart (ops : List Operation) (id : String) :
    (after cap ops).log id = (after cap (ops.filter fun op => op.session = some id)).log id
  /-- and neither a load nor an operation without a session makes a difference to anything. -/
  inert (ops : List Operation) (op : Operation) (h : op.session = none ∨ ∃ command, op = .load command) :
    (op.perform (after cap ops)).2 = after cap ops

/-! ### What an operation does -/

section

variable {cap : Option Nat} {s : Store}

private theorem kind_perform (s : Store) (op : Operation) : (op.perform s).2.kind = s.kind := by
  cases op with
  | load command => rfl
  | save command messages => exact kind_save ..

/-- An operation puts what it adds to a session at the end, and cuts the session down to the cap.  Where it adds
nothing the cut is of no effect, since the session was cut down before. -/
private theorem log_perform (h : s.kind = .inMemory cap) (op : Operation) (id : String)
    (hcut : lastUpTo cap (s.log id) = s.log id) : (op.perform s).2.log id = lastUpTo cap (s.log id ++ op.added id) := by
  have hsame : s.log id = lastUpTo cap (s.log id ++ []) := by rw [List.append_nil, hcut]
  cases op with
  | load command => exact hsame
  | save command messages =>
    show (s.save command.session messages).2.log id =
      lastUpTo cap (s.log id ++ if command.session = some id then messages else [])
    cases command.session with
    | none =>
      rw [save_none h, if_neg (by simp)]
      exact hsame
    | some other =>
      rw [save_some h]
      show ((putLog other (lastUpTo cap (s.log other ++ messages)) s.sessions).lookup id).getD [] = _
      rw [lookup_putLog]
      by_cases heq : id = other
      · subst heq
        rw [if_pos rfl, if_pos rfl]
        rfl
      · have hne : some other ≠ some id := fun he => heq (Option.some.inj he).symm
        rw [if_neg heq, if_neg hne]
        exact hsame

private theorem perform_of_inert (h : s.kind = .inMemory cap) {op : Operation}
    (hop : op.session = none ∨ ∃ command, op = .load command) : (op.perform s).2 = s := by
  cases op with
  | load command => rfl
  | save command messages =>
    have hnone : command.session = none := by
      rcases hop with hnone | ⟨_, hload⟩
      · exact hnone
      · cases hload
    show (s.save command.session messages).2 = s
    rw [hnone, save_none h]

end

/-! ### After any operations -/

private theorem savedUnder_append (id : String) (ops : List Operation) (op : Operation) :
    savedUnder id (ops ++ [op]) = savedUnder id ops ++ op.added id := by
  simp [savedUnder]

private theorem added_of_session_ne {id : String} {op : Operation} (h : op.session ≠ some id) : op.added id = [] := by
  cases op with
  | load command => rfl
  | save command messages => exact if_neg h

/-- What is done under other sessions adds nothing. -/
private theorem savedUnder_filter (id : String) (ops : List Operation) :
    savedUnder id (ops.filter fun op => op.session = some id) = savedUnder id ops := by
  induction ops with
  | nil => rfl
  | cons op rest ih =>
    have hcons : savedUnder id (op :: rest) = op.added id ++ savedUnder id rest := List.flatMap_cons ..
    by_cases h : op.session = some id
    · rw [List.filter_cons_of_pos (by simpa using h), hcons, ← ih]
      exact List.flatMap_cons ..
    · rw [List.filter_cons_of_neg (by simpa using h), ih, hcons, added_of_session_ne h, List.nil_append]

private theorem after_append (cap : Option Nat) (ops : List Operation) (op : Operation) :
    after cap (ops ++ [op]) = (op.perform (after cap ops)).2 := by
  simp [after]

private theorem kind_after (cap : Option Nat) (ops : List Operation) : (after cap ops).kind = .inMemory cap := by
  induction ops using List.reverseRecOn with
  | nil => rfl
  | append_singleton ops op ih => rw [after_append, kind_perform, ih]

/-- Cutting a session down on every save comes to the same as cutting it down once. -/
private theorem log_after (cap : Option Nat) (ops : List Operation) (id : String) :
    (after cap ops).log id = lastUpTo cap (savedUnder id ops) := by
  induction ops using List.reverseRecOn with
  | nil => exact (lastUpTo_nil cap).symm
  | append_singleton ops op ih =>
    have hcut : lastUpTo cap (lastUpTo cap (savedUnder id ops)) = lastUpTo cap (savedUnder id ops) := by
      simpa using lastUpTo_append_lastUpTo cap (savedUnder id ops) []
    rw [after_append, log_perform (kind_after cap ops) op id (by rw [ih, hcut]), ih, lastUpTo_append_lastUpTo,
      savedUnder_append]

private theorem isEnd_log_after (cap : Option Nat) (ops : List Operation) (id : String) :
    IsEnd cap (savedUnder id ops) ((after cap ops).log id) := by
  rw [log_after]
  exact isEnd_lastUpTo cap _

private theorem answers_after (cap : Option Nat) (ops : List Operation) (op : Operation) :
    Answers cap ops op (op.perform (after cap ops)).1 := by
  have h := kind_after cap ops
  cases op with
  | save command messages =>
    show Answers cap ops (.save command messages) ((Store.save _ command.session messages).1.map fun () => .saved)
    cases hsession : command.session with
    | none =>
      rw [save_none h]
      exact .nowhere hsession
    | some id =>
      rw [save_some h]
      exact .saved hsession
  | load command =>
    show Answers cap ops (.load command) ((Store.load _ command.session).map .loaded)
    cases hsession : command.session with
    | none =>
      rw [load_none h]
      exact .nowhere hsession
    | some id =>
      rw [load_some h]
      exact .loaded hsession (isEnd_log_after cap ops id)

/-- A store in memory is a log per session, of which it keeps as much as the cap allows. -/
theorem boundedLogs (cap : Option Nat) : BoundedLogs cap where
  log := isEnd_log_after cap
  answers := answers_after cap
  apart ops id := by
    have hown := isEnd_log_after cap (ops.filter fun op => op.session = some id) id
    rw [savedUnder_filter] at hown
    exact (isEnd_log_after cap ops id).unique hown
  inert ops _ := perform_of_inert (kind_after cap ops)

end Store

end AgentLoop
