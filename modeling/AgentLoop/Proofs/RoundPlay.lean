import AgentLoop.Proofs.Course

/-!
# How a round is played in a run

A round leaves its beats in the trace of the run, one after the other, and nothing else.  It returns what it comes to,
once all of them are there, and the ledger with the tools that they mark.
-/

namespace AgentLoop

open Process

namespace Loop

variable {l : Loop} {input : LoopInput} {ledger : Ledger} {calls : List CallRequest} {entry : Entry} {t u v : RunTrace}

/-- What these beats leave in the trace of a run; the marks concern the ledger only. -/
def played (beats : List Beat) : RunTrace :=
  beats.filterMap fun
    | .entry e => some ⟨.note e, ()⟩
    | .used _ => none

private theorem leads_replay {beats : List (Nat × Beat)} {now : Nat} {rest : RunProcess Unit}
    (hl : Leads (replay playBeat now beats) t rest) :
    ∃ earlier later, beats = earlier ++ later ∧ t = played (earlier.map (·.2)) ∧ (rest = done () → later = []) := by
  induction beats generalizing now t with
  | nil =>
    cases hl
    exact ⟨[], [], rfl, rfl, fun _ => rfl⟩
  | cons first more ih =>
    obtain ⟨time, beat⟩ := first
    cases hl with
    | here => exact ⟨[], _, rfl, rfl, fun h => nomatch h⟩
    | wait hl =>
      cases beat with
      | used name =>
        obtain ⟨earlier, later, rfl, rfl, hlater⟩ := ih hl
        exact ⟨(time, .used name) :: earlier, later, rfl, rfl, hlater⟩
      | entry e =>
        cases hl with
        | here => exact ⟨[], _, rfl, rfl, fun h => nomatch h⟩
        | act hl =>
          obtain ⟨earlier, later, rfl, rfl, hlater⟩ := ih hl
          exact ⟨(time, .entry e) :: earlier, later, rfl, rfl, hlater⟩

private theorem replay_leads (beats : List (Nat × Beat)) (now : Nat) :
    Leads (replay playBeat now beats) (played (beats.map (·.2))) (done ()) := by
  induction beats generalizing now with
  | nil => exact .here _
  | cons first more ih =>
    obtain ⟨time, beat⟩ := first
    cases beat with
    | used name => exact .wait (ih time)
    | entry e => exact .wait (.act (ih time))

/-- What follows the beats of a round. -/
def closeRound (l : Loop) (input : LoopInput) (ledger : Ledger) (calls : List CallRequest) :
    RunProcess (Except RunError (List ToolResult × Ledger)) := do
  let round := (l.workshop input).round ledger calls
  Process.sleep (round.length - (round.beats.getLast?.map (·.1)).getD 0)
  match round.ending with
  | .hangs => .hang
  | .faults message =>
    Process.pass
    return .error (.tool (.fault (Workshop.faultText message)))
  | .returns results =>
    Process.pass
    return .ok (results, Workshop.settle ledger calls round.beats)

private theorem playRound_eq (l : Loop) (input : LoopInput) (ledger : Ledger) (calls : List CallRequest) :
    l.playRound input ledger calls =
      .yield (replay playBeat 0 ((l.workshop input).round ledger calls).beats >>= fun _ =>
        l.closeRound input ledger calls) := rfl

private theorem leads_closeRound {rest : RunProcess (Except RunError (List ToolResult × Ledger))}
    (hl : Leads (l.closeRound input ledger calls) t rest) : t = [] := by
  have passed {α : Type} {p : RunProcess α} {rest : RunProcess α} {u : RunTrace} {a : α}
      (hp : p = .yield (done a)) (h : Leads p u rest) : u = [] := by
    subst hp
    cases h with
    | here => rfl
    | yield h =>
      cases h
      rfl
  cases hl with
  | here => rfl
  | wait hl =>
    cases he : ((l.workshop input).round ledger calls).ending with
    | hangs =>
      rw [he] at hl
      cases hl
      rfl
    | faults message =>
      rw [he] at hl
      exact passed rfl hl
    | returns results =>
      rw [he] at hl
      exact passed rfl hl

/-- A round leaves in the trace what its beats leave there, as far as it has come. -/
theorem leads_playRound {rest : RunProcess (Except RunError (List ToolResult × Ledger))}
    (hl : Leads (l.playRound input ledger calls) t rest) :
    ∃ earlier later, ((l.workshop input).round ledger calls).beats = earlier ++ later ∧
      t = played (earlier.map (·.2)) := by
  rw [playRound_eq] at hl
  cases hl with
  | here => exact ⟨[], _, rfl, rfl⟩
  | yield hl =>
    rcases leads_bind hl with ⟨r, -, hr⟩ | ⟨_, u, v, rfl, hu, hv⟩
    · obtain ⟨earlier, later, hbeats, hplayed, -⟩ := leads_replay hr
      exact ⟨earlier, later, hbeats, hplayed⟩
    · rw [leads_closeRound hv, List.append_nil]
      obtain ⟨earlier, later, hbeats, hplayed, -⟩ := leads_replay hu
      exact ⟨earlier, later, hbeats, hplayed⟩

/-- A round that has returned its results has left all its beats in the trace, and marked the tools in the ledger. -/
theorem settled_of_playRound {results : List ToolResult} {after : Ledger}
    (hl : Leads (l.playRound input ledger calls) t (done (.ok (results, after)))) :
    ((l.workshop input).round ledger calls).ending = .returns results ∧
      t = played (((l.workshop input).round ledger calls).beats.map (·.2)) ∧
      after = Workshop.settle ledger calls ((l.workshop input).round ledger calls).beats := by
  rw [playRound_eq] at hl
  cases hl with
  | yield hl =>
    obtain ⟨_, u, v, rfl, hu, hv⟩ := leads_bind_done hl
    obtain ⟨earlier, later, hbeats, rfl, hlater⟩ := leads_replay hu
    rw [hlater rfl, List.append_nil] at hbeats
    rw [leads_closeRound hv, List.append_nil, ← hbeats]
    cases hv with
    | wait hv =>
      cases he : ((l.workshop input).round ledger calls).ending with
      | returns values =>
        rw [he] at hv
        cases hv with
        | yield hv =>
          cases hv
          exact ⟨rfl, rfl, rfl⟩
      | faults message =>
        rw [he] at hv
        cases hv with
        | yield hv => cases hv
      | hangs =>
        rw [he] at hv
        cases hv

/-- A round that returns results goes on with them. -/
theorem playRound_leads {results : List ToolResult}
    (h : ((l.workshop input).round ledger calls).ending = .returns results) :
    Leads (l.playRound input ledger calls) (played (((l.workshop input).round ledger calls).beats.map (·.2)))
      (done (.ok (results, Workshop.settle ledger calls ((l.workshop input).round ledger calls).beats))) := by
  have hclose : Leads (l.closeRound input ledger calls) []
      (done (.ok (results, Workshop.settle ledger calls ((l.workshop input).round ledger calls).beats))) := by
    unfold closeRound
    refine .wait ?_
    rw [h]
    exact .yield (.here _)
  have hall := (replay_leads ((l.workshop input).round ledger calls).beats 0).bind_done
    (f := fun _ => l.closeRound input ledger calls) hclose
  rw [List.append_nil] at hall
  exact .yield hall

/-- An entry that was played is that of a beat. -/
theorem of_played {beats : List Beat} (h : played beats = u ++ ⟨.note entry, ()⟩ :: v) :
    ∃ before after, beats = before ++ .entry entry :: after ∧ u = played before := by
  obtain ⟨before, rest, rfl, rfl, hrest⟩ := List.filterMap_eq_append_iff.1 h
  obtain ⟨marks, beat, after, rfl, hmarks, hbeat, -⟩ := List.filterMap_eq_cons_iff.1 hrest
  have hbeat : beat = .entry entry := by
    cases beat with
    | used => cases hbeat
    | entry e =>
      cases hbeat
      rfl
  refine ⟨before ++ marks, after, by simp [hbeat], ?_⟩
  have hnone : played marks = [] := List.filterMap_eq_nil_iff.2 hmarks
  have hall : played (before ++ marks) = played before ++ played marks := List.filterMap_append ..
  rw [hall, hnone, List.append_nil]
  rfl

end Loop

end AgentLoop
