import AgentLoop.Proofs.Trace

/-!
# What is played

The play of a run and the timeline of a task follow the process: what they come to is what the process leads to after
the exchanges that took place.  So whatever a process keeps to holds of every play and of every timeline.
-/

namespace AgentLoop

/-- What is left where play stops. -/
def Stop.rest {α : Type} : Stop α → RunProcess α
  | .finished a => .done a
  | .broke message => .fault message
  | .paused _ rest => rest
  | .stuck => .hang

/-- What is left at an ending. -/
def Ending.rest {S : Signature} {α : Type} : Ending α → Process S α
  | .returns a => .done a
  | .faults message => .fault message
  | .hangs => .hang

namespace Exchange

/-- The entry that an exchange leaves in the journal. -/
def entry? (x : Exchange runEffects) : Option Entry :=
  match x.1 with
  | .note e => some e
  | .ask request => some (.asked request)
  | .load command => some (.loaded command.session)
  | .save command messages => some (.saved command.session messages)
  | .room | .put _ => none

end Exchange

namespace Process

variable {α : Type}

/-- The exchanges of a play. -/
def exchanges (partners : Partners) (limit : Option Nat) : RunProcess α → Scene → List (Exchange runEffects)
  | done _, _ => []
  | act e next, s =>
    let (answer, s) := e.perform partners s
    ⟨e, answer⟩ :: exchanges partners limit (next answer) s
  | wait n next, s =>
    if n = 0 then exchanges partners limit next s
    else if limit.any (· ≤ s.world.now + n) then []
    else exchanges partners limit next (s.atTime (s.world.now + n))
  | yield next, s => if limit.any (· ≤ s.world.now) then [] else exchanges partners limit next s
  | fault _, _ => []
  | hang, _ => []

variable {partners : Partners} {limit : Option Nat}

theorem leads_play (partners : Partners) (limit : Option Nat) (p : RunProcess α) (s : Scene) :
    Leads p (p.exchanges partners limit s) (p.play partners limit s).1.rest := by
  induction p generalizing s with
  | done a => exact .here _
  | act e next ih => exact .act (ih _ _)
  | wait n next ih =>
    unfold exchanges play
    split
    · exact .wait (ih _)
    · dsimp only
      split
      · exact .wait (.here _)
      · exact .wait (ih _)
  | yield next ih =>
    unfold exchanges play
    split
    · exact .yield (.here _)
    · exact .yield (ih _)
  | fault => exact .here _
  | hang => exact .here _

/-- The answers to requests are those of the provider. -/
theorem answer_of_mem_exchanges {p : RunProcess α} {s : Scene} {x : Exchange runEffects}
    (hx : x ∈ p.exchanges partners limit s) {request : Request}
    {answer : Reaction (Except ProviderError Reply)} (hr : x = ⟨.ask request, answer⟩) :
    ∃ earlier, answer = partners.provider.reply earlier request := by
  induction p generalizing s with
  | done | fault | hang => cases hx
  | act e next ih =>
    rcases List.mem_cons.1 hx with rfl | hx
    · cases hr
      exact ⟨_, rfl⟩
    · exact ih _ hx
  | wait n next ih =>
    unfold exchanges at hx
    split at hx
    · exact ih hx
    · split at hx
      · cases hx
      · exact ih hx
  | yield next ih =>
    unfold exchanges at hx
    split at hx
    · cases hx
    · exact ih hx

/-- Without a limit nothing is put off. -/
theorem play_ne_paused (p : RunProcess α) (s : Scene) (due : Nat) (rest : RunProcess α) :
    (p.play partners none s).1 ≠ .paused due rest := by
  induction p generalizing s with
  | done | fault | hang => exact fun h => nomatch h
  | act e next ih => exact ih _ _
  | wait n next ih =>
    unfold play
    split <;> exact ih _
  | yield next ih => exact ih _

variable {ν : Type}

/-- The notes of a timeline as a trace. -/
abbrev notesOf (beats : List (Nat × ν)) : List (Exchange (.notes ν)) := beats.map fun beat => ⟨beat.2, ()⟩

theorem leads_timelineFrom (p : Process (.notes ν) α) (now : Nat) :
    Leads p (notesOf (p.timelineFrom now).beats) (p.timelineFrom now).ending.rest := by
  induction p generalizing now with
  | done | fault | hang => exact .here _
  | act n next ih => exact .act (ih () now)
  | wait n next ih => exact .wait (ih _)
  | yield next ih => exact .yield (ih _)

/-- A timeline has only notes that are allowed and a value only as promised. -/
theorem Keeps.timeline {c : Contract (.notes ν)} {post : List (Exchange (.notes ν)) → α → Prop}
    {p : Process (.notes ν) α} (h : Keeps c post [] p) (hc : ∀ e, c.expects e ()) :
    Keeps c post (notesOf p.timeline.beats) p.timeline.ending.rest :=
  h.of_leads (leads_timelineFrom p 0) fun x _ => hc x.1

end Process

end AgentLoop
