import AgentLoop.Proofs.Ceiling
import AgentLoop.Proofs.Chronicle
import AgentLoop.Proofs.Executions

/-!
# Where a run executes tools

Whatever a run shows of the execution of a tool comes from a call of the turn that was taken last.  That turn offered
tools, and the call has passed all gates.  A call that is refused executes nothing, whatever the others do, and the run
goes on with its failed result among theirs.
-/

namespace AgentLoop

open Process

namespace Loop

open RunTrace ToolRound

variable {l : Loop} {input : LoopInput} {ledger : Ledger} {calls : List CallRequest} {entry : Entry} {tool : String}
  {t u v : RunTrace} {k : Nat} {s : State} {turns : List TurnTaken} {rounds : List ToolRound} {turn : TurnTaken}

/-! ### Rounds -/

/-- Whatever of an execution happens in a round comes from one of its calls. -/
private theorem executes_of_playRound {rest : RunProcess (Except RunError (List ToolResult × Ledger))}
    (hl : Leads (l.playRound input ledger calls) (u ++ ⟨.note entry, ()⟩ :: v) rest) (ht : entry.tool? = some tool) :
    ∃ (i : Nat) (request : CallRequest) (own : List Beat), calls[i]? = some request ∧ request.name = tool ∧
      (l.workshop input).Executes ledger.maxCalls (ledger.calls + i + 1) request own (.entry entry) ∧
      (played own).Sublist u := by
  obtain ⟨earlier, later, hround, hplayed⟩ := leads_playRound hl
  obtain ⟨before, after, hbeats, rfl⟩ := of_played hplayed.symm
  obtain ⟨first, others, rfl, rfl, hothers⟩ := List.map_eq_append_iff.1 hbeats
  obtain ⟨beat, more, rfl, hbeat, -⟩ := List.map_eq_cons_iff.1 hothers
  obtain ⟨time, beat⟩ := beat
  obtain rfl : beat = .entry entry := hbeat
  rw [List.append_assoc, List.cons_append] at hround
  have htool : (Beat.entry entry).tool? = some tool := ht
  obtain ⟨i, request, own, hr, hname, hexecutes, hown⟩ := Workshop.executes_of_round hround htool
  exact ⟨i, request, own, hr, hname, hexecutes, hown.filterMap _⟩

/-! ### Runs -/

/-- After this much of a run, and as much since, one of the calls of the turn that was taken last executes a tool. -/
inductive Calls (l : Loop) (input : LoopInput) (arrived since : RunTrace) (entry : Entry) (tool : String) : Prop where
  | intro {k : Nat} {s : State} {turns : List TurnTaken} {rounds : List ToolRound} {turn : TurnTaken} {i : Nat}
    {request : CallRequest} {own : List Beat} (ht : l.Taken input arrived k s turns rounds turn)
    (ho : turn.request.tools = input.tools.definitions ∧ input.tools.definitions ≠ [])
    (hr : turn.reply.calls[i]? = some request) (hn : request.name = tool)
    (he : (l.workshop input).Executes l.limit (requested rounds + i + 1) request own (.entry entry))
    (hs : (played own).Sublist since)

private theorem isOfCall_of_tool? (h : entry.tool? = some tool) : entry.isOfCall = true := by
  cases entry with
  | event event => cases event <;> first | rfl | cases h
  | _ => first | rfl | cases h

private theorem Taken.tools_eq (h : l.Taken input t k s turns rounds turn)
    (ho : l.offers input (requested rounds) = true) :
    turn.request.tools = input.tools.definitions ∧ input.tools.definitions ≠ [] := by
  cases h with
  | intro _ hr =>
    rw [hr, ho]
    exact ⟨rfl, ToolSet.definitions_ne_nil (offers_eq_true ho).1⟩

theorem Taken.counted (h : l.Taken input t k s turns rounds turn) :
    s.ledger.maxCalls = l.limit ∧ s.ledger.calls = requested rounds := by
  cases h with
  | intro h => exact ⟨h.maxCalls, h.calls⟩

/-- Whatever of an execution happens in a run comes from one of the calls of the turn that was taken last. -/
private theorem calls_of_turns (h : l.Told input t k s turns rounds) {rest : RunProcess (Except RunError Outcome)}
    (hl : Leads (l.turns input k s) (u ++ ⟨.note entry, ()⟩ :: v) rest) (ht : entry.tool? = some tool) :
    ∃ arrived since, t ++ u = arrived ++ since ∧ l.Calls input arrived since entry tool := by
  induction k using Nat.strongRecOn generalizing t u s turns rounds with
  | ind k ih =>
    have hcall := isOfCall_of_tool? ht
    rcases leads_turns h hl with ⟨hapart, -⟩ | ⟨w, x, turn, hwx, hapart, htaken, hx⟩
    · have hnone := hapart ⟨.note entry, ()⟩ (by simp) entry rfl
      rw [hcall] at hnone
      cases hnone
    · rcases cases_of_append hwx.symm with ⟨more, rfl⟩ | ⟨more, rfl, rfl⟩
      · have hnone := hapart ⟨.note entry, ()⟩ (by simp) entry rfl
        rw [hcall] at hnone
        cases hnone
      · rcases htaken.leads_goOn hx with ⟨hnil, -⟩ | ⟨hoffer, hcalls, hk, hround⟩
        · simp at hnil
        · have here {since after : RunTrace} {rest : RunProcess (Except RunError (List ToolResult × Ledger))}
              (hround : Leads (l.playRound input s.ledger turn.reply.calls) (since ++ ⟨.note entry, ()⟩ :: after) rest) :
              l.Calls input (t ++ w) since entry tool := by
            obtain ⟨i, request, own, hr, hname, hexecutes, hown⟩ := executes_of_playRound hround ht
            rw [htaken.counted.1, htaken.counted.2] at hexecutes
            exact .intro htaken (htaken.tools_eq hoffer) hr hname hexecutes hown
          obtain ⟨-, r, hround⟩ | ⟨y, z, results, after, hyz, hround, hz⟩ := hround
          · exact ⟨t ++ w, more, (List.append_assoc ..).symm, here hround⟩
          · rcases cases_of_append hyz.symm with ⟨after, rfl⟩ | ⟨later, rfl, rfl⟩
            · exact ⟨t ++ w, more, (List.append_assoc ..).symm, here hround⟩
            · -- the round has returned, and the run goes on from the next turn
              obtain ⟨arrived, since, heq, hcalled⟩ := ih (k - 1) (by omega) (htaken.next hoffer hcalls hround) hz
              exact ⟨arrived, since, by simpa using heq, hcalled⟩

/-- Where each call of a turn comes to a result, the run goes on with these. -/
private theorem Taken.goesOn (h : l.Taken input t k s turns rounds turn) (ho : l.offers input (requested rounds) = true)
    (hc : turn.reply.calls ≠ []) {results : List ToolResult}
    (hr : (l.workshop input).EachAlone { maxCalls := l.limit, calls := requested rounds } turn.reply.calls results) :
    ∃ since k s, l.Told input (t ++ since) k s (turns ++ [turn])
      (rounds ++ [⟨turn.reply.text, turn.reply.calls, results⟩]) := by
  have htimelines : (l.workshop input).timelines s.ledger turn.reply.calls =
      (l.workshop input).timelines { maxCalls := l.limit, calls := requested rounds } turn.reply.calls := by
    unfold Workshop.timelines
    rw [h.counted.1, h.counted.2]
  have hendings := hr.endings
  rw [← htimelines] at hendings
  have hround : ((l.workshop input).round s.ledger turn.reply.calls).ending = .returns results :=
    Timeline.together_of_returns hendings
  exact ⟨_, _, _, h.next ho hc (playRound_leads hround)⟩

/-! ### The tools that were used -/

private theorem mem_used_markAll {tools : List String} :
    tool ∈ (ledger.markAll tools).used ↔ tool ∈ ledger.used ∨ tool ∈ tools := by
  induction tools generalizing ledger with
  | nil => simp [Ledger.markAll]
  | cons first tools ih =>
    have hcons : ledger.markAll (first :: tools) = (ledger.markUsed first).markAll tools := rfl
    rw [hcons, ih, Ledger.mem_used_markUsed, List.mem_cons, or_assoc]

/-- A body of the tool has been entered. -/
def HasEntered (tool : String) (t : RunTrace) : Prop :=
  ∃ arguments, (⟨.note (.entered tool arguments), ()⟩ : Exchange runEffects) ∈ t

private theorem HasEntered.append (h : HasEntered tool t) (u : RunTrace) : HasEntered tool (t ++ u) := by
  obtain ⟨arguments, harguments⟩ := h
  exact ⟨arguments, List.mem_append_left u harguments⟩

/-- A tool that is marked in a round has been entered in it. -/
private theorem hasEntered_of_used {beats : List (Nat × Beat)}
    (hb : ((l.workshop input).round ledger calls).beats = beats)
    (ht : tool ∈ Workshop.usedIn beats) : HasEntered tool (played (beats.map (·.2))) := by
  obtain ⟨⟨time, beat⟩, hbeat, htool⟩ := List.mem_filterMap.1 ht
  cases beat with
  | entry => cases htool
  | used name =>
    obtain rfl : name = tool := Option.some.inj htool
    obtain ⟨earlier, later, rfl⟩ := List.append_of_mem hbeat
    have hmarks : (Beat.used name).tool? = some name := rfl
    obtain ⟨i, request, own, -, rfl, hexecutes, hown⟩ := Workshop.executes_of_round hb hmarks
    cases hexecutes with
    | @follows given arguments asked since _ hadmits _ =>
      refine ⟨arguments, List.mem_filterMap.2 ⟨.entry (.entered request.name arguments), ?_, rfl⟩⟩
      rw [List.map_append]
      exact List.mem_append_left _ (hown.mem (by simp))

private theorem hasEntered_of_turns (h : l.Told input t k s turns rounds) {outcome : Outcome}
    (hs : ∀ tool ∈ s.ledger.used, HasEntered tool t) (hl : Leads (l.turns input k s) u (done (.ok outcome)))
    (ht : tool ∈ outcome.toolsUsed) : HasEntered tool (t ++ u) := by
  induction k using Nat.strongRecOn generalizing t u s turns rounds with
  | ind k ih =>
    rcases leads_turns h hl with ⟨-, hrest⟩ | ⟨v, w, turn, rfl, -, htaken, hw⟩
    · exact absurd rfl (hrest outcome)
    · rcases htaken.leads_goOn hw with ⟨rfl, -, hdone⟩ | ⟨hoffer, hcalls, hk, hround⟩
      · cases hdone
        simpa using (hs tool ht).append v
      · obtain ⟨hrest, -⟩ | ⟨w, x, results, after, rfl, hround, hx⟩ := hround
        · exact absurd rfl (hrest outcome)
        · have hnext := htaken.next hoffer hcalls hround
          have hrest := ih (k - 1) (by omega) hnext (fun other hother => ?_) hx
          · simpa using hrest
          · obtain ⟨-, rfl, rfl⟩ := settled_of_playRound hround
            rcases mem_used_markAll.1 hother with hbefore | hmarked
            · exact ((hs other hbefore).append v).append _
            · obtain ⟨arguments, harguments⟩ := hasEntered_of_used rfl hmarked
              exact ⟨arguments, List.mem_append_right _ harguments⟩

/-! ### Whole runs -/

/-- What stands between the calls of the model and the bodies of tools in the runs of a loop. -/
structure Gated (l : Loop) (provider : Provider) (cancelAt : Option Nat) (input : LoopInput) (scene : Scene) : Prop where
  /-- A body is entered only for a call of the turn that was taken last, which offered tools.  The call has passed all
  gates, the body gets the arguments that it was let through with, and the hooks that were to be asked about it were
  consulted before. -/
  entered {before after : RunTrace} {tool : String} {arguments : Json}
    (h : l.exchanges provider cancelAt input scene = before ++ ⟨.note (.entered tool arguments), ()⟩ :: after) :
    ∃ arrived since k s turns rounds turn, before = arrived ++ since ∧ l.Taken input arrived k s turns rounds turn ∧
      turn.request.tools = input.tools.definitions ∧ input.tools.definitions ≠ [] ∧
      ∃ (i : Nat) (request : CallRequest) (given : Json) (asked : List Hook), turn.reply.calls[i]? = some request ∧
        request.name = tool ∧
        (l.workshop input).Admits l.limit (requested rounds + i + 1) request given asked arguments ∧
        (played (HookChain.consultations input.context (Workshop.callOf request given) asked)).Sublist since
  /-- Hooks are told of an execution, and it is recorded, only after that. -/
  executed {before after : RunTrace} {entry : Entry} {tool : String}
    (h : l.exchanges provider cancelAt input scene = before ++ ⟨.note entry, ()⟩ :: after)
    (ht : entry.tool? = some tool) :
    ∃ arrived since, before = arrived ++ since ∧ l.Calls input arrived since entry tool
  /-- A tool counts as used only if one of its bodies was entered. -/
  used {outcome : Outcome} (h : (l.perform provider cancelAt input scene).1 = .returns (.ok outcome)) {tool : String}
    (ht : tool ∈ outcome.toolsUsed) : HasEntered tool (l.exchanges provider cancelAt input scene)
  /-- None of this depends on the schedule of a round. -/
  scheduled {w : Workshop} {ledger : Ledger} {requests : List CallRequest} {c : Crew} {before after : List (Nat × Beat)}
    {i : Nat} {beat : Beat} {tool : String} (h : Crew.Reaches w ledger requests c)
    (hb : c.beats = before ++ (i, beat) :: after) (ht : beat.tool? = some tool) :
    ∃ request, requests[i]? = some request ∧ request.name = tool ∧
      w.Executes ledger.maxCalls (ledger.calls + i + 1) request (Crew.ownIn i before) beat
  /-- A call that is refused does nothing but consult hooks and comes to a failed result, whatever becomes of the
  others, -/
  refused {arrived : RunTrace} {k : Nat} {s : State} {turns : List TurnTaken} {rounds : List ToolRound}
    {turn : TurnTaken} {i : Nat} {request : CallRequest} {left : List Beat} {output : String}
    (h : l.Taken input arrived k s turns rounds turn) (hr : turn.reply.calls[i]? = some request)
    (hf : (l.workshop input).Refuses l.limit (requested rounds + i + 1) request left output) :
    (l.workshop input).TurnedDown { maxCalls := l.limit, calls := requested rounds } turn.reply.calls i request left
      output
  /-- and where the others come to results, the run goes on with those of all. -/
  goesOn {arrived : RunTrace} {k : Nat} {s : State} {turns : List TurnTaken} {rounds : List ToolRound}
    {turn : TurnTaken} {results : List ToolResult} (h : l.Taken input arrived k s turns rounds turn)
    (ho : l.offers input (requested rounds) = true) (hc : turn.reply.calls ≠ [])
    (hr : (l.workshop input).EachAlone { maxCalls := l.limit, calls := requested rounds } turn.reply.calls results) :
    ∃ since k s, l.Told input (arrived ++ since) k s (turns ++ [turn])
      (rounds ++ [⟨turn.reply.text, turn.reply.calls, results⟩])

private theorem calls_of_exchanges {provider : Provider} {cancelAt : Option Nat} {scene : Scene}
    (h : l.exchanges provider cancelAt input scene = u ++ ⟨.note entry, ()⟩ :: v) (ht : entry.tool? = some tool) :
    ∃ arrived since, u = arrived ++ since ∧ l.Calls input arrived since entry tool := by
  obtain ⟨rest, hl⟩ := l.leads_exchanges provider cancelAt input scene
  rw [h] at hl
  exact calls_of_turns (l.told_run input) hl ht

/-- No body of a tool is entered past a refusal, however a run goes and ends. -/
theorem perform_gated (l : Loop) (provider : Provider) (cancelAt : Option Nat) (input : LoopInput) (scene : Scene) :
    l.Gated provider cancelAt input scene where
  entered h := by
    obtain ⟨arrived, since, rfl, hcalls⟩ := calls_of_exchanges h rfl
    cases hcalls with
    | @intro k s turns rounds turn i request own ht ho hr hn he hs =>
      cases he with
      | @enters given _ asked hadmits =>
        exact ⟨arrived, since, k, s, turns, rounds, turn, rfl, ht, ho.1, ho.2, i, request, given, asked, hr, hn, hadmits, hs⟩
      | follows _ hb => cases hb
  executed h ht := calls_of_exchanges h ht
  used h _ ht := hasEntered_of_turns (l.told_run input) (by simp) (leads_perform h) ht
  scheduled h hb ht := h.executes hb ht
  refused _ hr hf := Workshop.Refuses.turnedDown hr hf
  goesOn h ho hc hr := h.goesOn ho hc hr

end Loop

end AgentLoop
