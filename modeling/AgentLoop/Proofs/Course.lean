import AgentLoop.Proofs.Turns

/-!
# The course of a run

A run alternates between turns and rounds.  `AtTurn` describes a run at the beginning of a turn: its messages are the
history, the user's message and the rounds so far, its ledger has counted the calls of these rounds, and all requests
so far offered tools.  Each turn with a round leads from one such point to the next, so every request of a run, every
body that is entered and every answer belongs to a turn that began like this.
-/

namespace AgentLoop

open Process

/-- A reply that asked for tools, with the results. -/
structure ToolRound where
  text : String
  calls : List CallRequest
  results : List ToolResult

namespace ToolRound

/-- What the round adds to the conversation. -/
def messages (r : ToolRound) : List Message :=
  Message.ofCalls r.text r.calls :: r.results.map fun result => Message.ofResult result.callId result.output

/-- There are calls, and one result for each in their order. -/
structure Complete (r : ToolRound) : Prop where
  calls_ne : r.calls ≠ []
  callIds : r.results.map (·.callId) = r.calls.map (·.id)

/-- What several rounds add to the conversation. -/
def conversation (rounds : List ToolRound) : List Message := rounds.flatMap messages

/-- How many calls were requested, refused ones included. -/
def requested (rounds : List ToolRound) : Nat := Tokens.total (rounds.map fun r => r.calls.length)

private theorem requested_append (rounds : List ToolRound) (r : ToolRound) :
    requested (rounds ++ [r]) = requested rounds + r.calls.length := by
  simp [requested, Tokens.total_append, Tokens.total]

theorem length_le_requested {rounds : List ToolRound} (h : ∀ r ∈ rounds, r.Complete) :
    rounds.length ≤ requested rounds := by
  induction rounds with
  | nil => exact Nat.zero_le _
  | cons r rounds ih =>
    have hr := List.length_pos_iff.2 (h r (List.mem_cons_self ..)).calls_ne
    have hrest := ih fun r' h' => h r' (List.mem_cons_of_mem _ h')
    simp only [requested, List.map_cons, Tokens.total, List.length_cons] at hrest ⊢
    omega

private theorem conversation_append (rounds : List ToolRound) (r : ToolRound) :
    conversation (rounds ++ [r]) = conversation rounds ++ r.messages := by
  simp [conversation]

end ToolRound

/-- What runs of the loop leave in the journal besides their requests. -/
def Entry.isOfLoop : Entry → Bool
  | .event (.retryScheduled ..) | .event (.responseGenerated ..) => true
  | e => e.isOfCall

namespace Loop

open RunTrace ToolRound

variable {l : Loop} {input : LoopInput} {σ : Surroundings (l.workshop input)} {t : RunTrace} {s : State} {k : Nat}
  {rounds : List ToolRound}

/-- The limit of tool calls. -/
def limit (l : Loop) : Nat := l.settings.maxToolCalls.toNat

/-- Tools are offered if there are any and the calls that were counted are below the limit. -/
def offers (l : Loop) (input : LoopInput) (counted : Nat) : Bool := !input.tools.isEmpty && counted < l.limit

theorem turns_eq (l : Loop) (input : LoopInput) (k : Nat) (s : State) :
    l.turns input k s =
      let offer := k != 0 && !input.tools.isEmpty && !s.ledger.limitReached
      l.takeTurn (l.request input s.messages offer) >>= fun
        | .error e => pure (.error e)
        | .ok turn =>
          l.record (.responseGenerated turn.model ((turn.usage.map (·.total)).getD 0)) >>= fun _ =>
            if offer && !turn.calls.isEmpty then
              l.playRound input s.ledger turn.calls >>= fun
                | .error e => pure (.error e)
                | .ok (results, ledger) => l.turns input (k - 1) (s.after turn results ledger)
            else pure (.ok (s.outcome input turn)) := by
  cases k with
  | zero => rw [turns]; rfl
  | succ k => rw [turns]; rfl

/-- A run at the beginning of a turn. -/
structure AtTurn (l : Loop) (input : LoopInput) (arrived : RunTrace) (k : Nat) (s : State)
    (rounds : List ToolRound) : Prop where
  leads : Leads (l.run input) arrived (l.turns input k s)
  messages : s.messages = input.history ++ input.user :: conversation rounds
  complete : ∀ r ∈ rounds, r.Complete
  maxCalls : s.ledger.maxCalls = l.limit
  calls : s.ledger.calls = requested rounds
  fuel : l.limit ≤ k + requested rounds
  iterations : s.iterations = rounds.length
  length_le : rounds.length ≤ l.limit
  asked_le : asked arrived ≤ rounds.length * l.policy.attempts
  entered_le : entered arrived ≤ min (requested rounds) l.limit
  offered : ∀ x ∈ arrived, ∀ request, x.1 = .ask request →
    input.tools.isEmpty = false ∧ request.tools = input.tools.definitions

/-- A turn that sends this request is under way, after these rounds. -/
def InTurn (l : Loop) (input : LoopInput) (t : RunTrace) (rounds : List ToolRound) (since : RunTrace)
    (request : Request) : Prop :=
  ∃ arrived k s, t = arrived ++ since ∧ l.AtTurn input arrived k s rounds ∧
    request = l.request input s.messages (l.offers input (requested rounds)) ∧ AsksOnly request since

/-- What a run may do: attempts at the request of a turn, and entering bodies below the limit and in turns that
offered tools. -/
def runAllows (l : Loop) (input : LoopInput) (t : RunTrace) : Effect → Prop
  | .ask request => ∃ rounds since, l.InTurn input t rounds since request ∧ asked since < l.policy.attempts ∧
      ∀ x ∈ since, x.1.IsAttempt request
  | .note e => e.isOfLoop ∧ (e.isEntered → entered t < l.limit ∧
      ∃ rounds since request, l.InTurn input t rounds since request ∧ l.offers input (requested rounds))
  | .room | .put _ => True
  | .load _ | .save .. => False

def runContract (l : Loop) (σ : Surroundings (l.workshop input)) : Contract runEffects :=
  ⟨l.runAllows input, σ.expects, σ.mayHang⟩

/-- What a run concludes after the rounds and the answer. -/
structure Concludes (input : LoopInput) (rounds : List ToolRound) (outcome : Outcome) : Prop where
  transcript : outcome.transcript = input.user :: conversation rounds ++ [Message.ofAssistant outcome.answer]
  toolCalls : outcome.toolCalls = requested rounds
  iterations : outcome.iterations = rounds.length + 1
  /-- Both numbers fit into 32 bits if few enough calls were requested. -/
  fits (h : requested rounds < UInt32.size - 1) : outcome.toolCalls < UInt32.size ∧ outcome.iterations < UInt32.size

/-- A successful run concludes in the turn that is under way. -/
def Returns (l : Loop) (input : LoopInput) (t : RunTrace) (r : Except RunError Outcome) : Prop :=
  ∀ outcome, r = .ok outcome →
    ∃ rounds since request, l.InTurn input t rounds since request ∧ asked since ≤ l.policy.attempts ∧
      entered since = 0 ∧ Concludes input rounds outcome

/-! ### From turn to turn -/

theorem atTurn_run (l : Loop) (input : LoopInput) :
    l.AtTurn input [] l.limit { messages := input.history ++ [input.user], ledger := { maxCalls := l.limit } } [] where
  leads := .here _
  messages := rfl
  complete := by simp
  maxCalls := rfl
  calls := rfl
  fuel := Nat.le_add_right ..
  iterations := rfl
  length_le := Nat.zero_le _
  asked_le := Nat.zero_le _
  entered_le := Nat.zero_le _
  offered := by simp

/-- The rounds that are left never keep tools from being offered. -/
theorem AtTurn.offer_eq (h : l.AtTurn input t k s rounds) :
    (k != 0 && !input.tools.isEmpty && !s.ledger.limitReached) = l.offers input (requested rounds) := by
  have hfuel := h.fuel
  simp only [offers, Ledger.limitReached, h.maxCalls, h.calls]
  cases input.tools.isEmpty with
  | true => simp
  | false =>
    by_cases hlt : requested rounds < l.limit
    · have hk : k ≠ 0 := by omega
      simp [hlt, hk]
    · simp [hlt, Nat.not_lt.1 hlt]

theorem offers_eq_true {counted : Nat} (h : l.offers input counted = true) :
    input.tools.isEmpty = false ∧ counted < l.limit := by
  simpa [offers] using h

theorem AtTurn.outcome (h : l.AtTurn input t k s rounds) (turn : Turn) :
    Concludes input rounds (s.outcome input turn) where
  transcript := by simp [State.outcome, h.messages]
  toolCalls := h.calls
  iterations := by simp [State.outcome, h.iterations]
  fits hfew := by
    have hrounds := length_le_requested h.complete
    have hcalls : (s.outcome input turn).toolCalls = requested rounds := h.calls
    have hiterations : (s.outcome input turn).iterations = rounds.length + 1 := congrArg (· + 1) h.iterations
    omega

/-- What happens between two turns: the attempts, the note of the reply, and the round. -/
structure Between (l : Loop) (request : Request) (ledger : Ledger) (turn : Turn) (results : List ToolResult)
    (after : Ledger) (u v w : RunTrace) : Prop where
  turnTrace : l.TurnTrace request u
  noted : asked v = 0 ∧ entered v = 0
  roundTrace : RoundTrace (roundBound ledger turn.calls) w
  result : RoundResult ledger turn.calls results after

theorem AtTurn.next {turn : Turn} {results : List ToolResult} {after : Ledger} {u v w : RunTrace}
    (h : l.AtTurn input t k s rounds) (hoffer : l.offers input (requested rounds) = true)
    (hcalls : turn.calls ≠ [])
    (hb : Between l (l.request input s.messages true) s.ledger turn results after u v w)
    (hl : Leads (l.turns input k s) (u ++ (v ++ w)) (l.turns input (k - 1) (s.after turn results after))) :
    l.AtTurn input (t ++ (u ++ (v ++ w))) (k - 1) (s.after turn results after)
      (rounds ++ [⟨turn.text, turn.calls, results⟩]) := by
  obtain ⟨htools, hlt⟩ := offers_eq_true hoffer
  have hpos := List.length_pos_iff.2 hcalls
  have hw := hb.roundTrace.entered_le
  have hcounted := requested_append rounds ⟨turn.text, turn.calls, results⟩
  have hfuel := h.fuel
  constructor
  · exact h.leads.trans hl
  · simp [State.after, h.messages, conversation_append, ToolRound.messages]
  · intro r hr
    rcases List.mem_append.1 hr with hr | hr
    · exact h.complete r hr
    · exact List.mem_singleton.1 hr ▸ ⟨hcalls, hb.result.callIds⟩
  · exact hb.result.maxCalls.trans h.maxCalls
  · rw [hcounted, ← h.calls]
    exact hb.result.calls
  · simp only [hcounted]
    omega
  · simp [State.after, h.iterations]
  · have := length_le_requested h.complete
    rw [List.length_append, List.length_singleton]
    omega
  · rw [asked_append, asked_append, asked_append, hb.noted.1, hb.roundTrace.asked_eq, List.length_append,
      List.length_singleton, Nat.add_mul]
    have := h.asked_le
    have := hb.turnTrace.asked_le
    omega
  · rw [entered_append, entered_append, entered_append, hb.noted.2, hb.turnTrace.entered_eq, hcounted]
    have := h.entered_le
    simp only [roundBound, h.maxCalls, h.calls] at hw
    dsimp only
    omega
  · intro x hx request hr
    rcases List.mem_append.1 hx with hx | hx
    · exact h.offered x hx request hr
    · have none {p : RunTrace} (hp : asked p = 0) : x ∉ p := fun hx => by
        have := List.countP_eq_zero.1 hp x hx
        simp [hr, Effect.isAsk] at this
      have hu : x ∈ u := by simpa [none hb.noted.1, none hb.roundTrace.asked_eq] using hx
      rw [hb.turnTrace.asksOnly x hu request hr]
      exact ⟨htools, rfl⟩

private theorem isOfLoop_of_isOfCall {e : Entry} (h : e.isOfCall = true) : e.isOfLoop = true := by
  unfold Entry.isOfLoop
  split <;> first | rfl | exact h

/-- While a turn takes place, it is under way. -/
theorem AtTurn.inTurn (h : l.AtTurn input t k s rounds) {since : RunTrace} {request : Request}
    (hr : request = l.request input s.messages (l.offers input (requested rounds)))
    (hs : AsksOnly request since) : l.InTurn input (t ++ since) rounds since request :=
  ⟨t, k, s, rfl, h, hr, hs⟩

private theorem asksOnly_of_asked_eq {request : Request} {v : RunTrace} (h : asked v = 0) : AsksOnly request v := by
  intro x hx r hr
  have := List.countP_eq_zero.1 h x hx
  simp [hr, Effect.isAsk] at this

/-- What a turn does, a run may do in it. -/
private theorem AtTurn.allows_turn (h : l.AtTurn input t k s rounds) {request : Request}
    (hr : request = l.request input s.messages (l.offers input (requested rounds))) (u : RunTrace) (e : Effect)
    (he : l.turnAllows request u e) : l.runAllows input (t ++ u) e := by
  cases e with
  | ask r =>
    obtain ⟨rfl, ha, hu⟩ := he
    refine ⟨rounds, u, h.inTurn hr fun x hx r' hr' => ?_, ha, hu⟩
    have := hu x hx
    rwa [hr'] at this
  | note e =>
    cases e with
    | event e =>
      cases e with
      | retryScheduled => exact ⟨rfl, fun hx => nomatch hx⟩
      | _ => exact he.elim
    | _ => exact he.elim
  | room | put => trivial
  | load | save => exact he

/-- What a round does, a run may do after a turn that offered tools. -/
private theorem AtTurn.allows_round (h : l.AtTurn input t k s rounds) {request : Request} {calls : List CallRequest}
    (hr : request = l.request input s.messages (l.offers input (requested rounds)))
    (hoffer : l.offers input (requested rounds) = true) {p : RunTrace} (hp : AsksOnly request p)
    (hn : entered p = 0) (u : RunTrace) (e : Effect) (he : roundAllows (roundBound s.ledger calls) u e) :
    l.runAllows input (t ++ p ++ u) e := by
  cases e with
  | note e =>
    obtain ⟨ho, he, ha⟩ := he
    refine ⟨isOfLoop_of_isOfCall ho, fun hx => ⟨?_, rounds, p ++ u, request, ?_, hoffer⟩⟩
    · have hu := he hx
      have := h.entered_le
      simp only [roundBound, h.maxCalls, h.calls] at hu
      rw [entered_append, entered_append, hn]
      omega
    · rw [List.append_assoc]
      exact h.inTurn hr (asksOnly_append hp (asksOnly_of_asked_eq ha))
  | _ => exact he.elim

/-- From any turn on, a run does only what it may, and it returns only what it concludes. -/
private theorem keeps_turns (h : l.AtTurn input t k s rounds) :
    Keeps (l.runContract σ) (l.Returns input) t (l.turns input k s) := by
  induction k using Nat.strongRecOn generalizing t s rounds with
  | ind k ih =>
    rw [turns_eq, h.offer_eq]
    dsimp only
    generalize hr : l.request input s.messages (l.offers input (requested rounds)) = request
    -- the attempts
    refine keeps_bind.2 (turnTrace_takeTurn.local (h.allows_turn hr.symm) (fun _ _ => id) id fun u reply hu => ?_)
    obtain ⟨hu, hlu⟩ := hu
    cases reply with
    | error e => exact fun _ he => nomatch he
    | ok turn =>
      -- the note of the reply
      refine keeps_bind.2 (keeps_record ⟨rfl, fun hx => nomatch hx⟩ fun v hnoted hlv => ?_)
      have hv : asked v = 0 ∧ entered v = 0 := by
        rcases hnoted with rfl | rfl
        · exact ⟨rfl, rfl⟩
        · exact ⟨rfl, rfl⟩
      have hsince : AsksOnly request (u ++ v) := asksOnly_append hu.asksOnly (asksOnly_of_asked_eq hv.1)
      split
      · -- the round
        rename_i hcalls
        obtain ⟨hoffer, hcalls⟩ : l.offers input (requested rounds) = true ∧ turn.calls ≠ [] := by
          simpa using hcalls
        have hk : k ≠ 0 := by
          have := h.fuel
          have := (offers_eq_true hoffer).2
          omega
        rw [List.append_assoc]
        refine keeps_bind.2 (roundTrace_playRound.local
          (h.allows_round hr.symm hoffer hsince (by rw [entered_append, hu.entered_eq, hv.2]))
          (fun _ _ => id) id fun w reply hw => ?_)
        obtain ⟨hresult, hw, hlw⟩ := hw
        cases reply with
        | error e => exact fun _ he => nomatch he
        | ok reply =>
          obtain ⟨results, after⟩ := reply
          rw [List.append_assoc, List.append_assoc]
          rw [hoffer] at hr
          refine ih (k - 1) (by omega)
            (h.next hoffer hcalls ⟨hr.symm ▸ hu, hv, hw, hresult results after rfl⟩ ?_)
          rw [turns_eq, h.offer_eq, hoffer]
          dsimp only
          rw [hr]
          refine hlu.bind_done (hlv.bind_done ?_)
          rw [if_pos (by simpa using hcalls)]
          simpa using hlw.bind_done (.here _)
      · intro outcome ho
        cases ho
        refine ⟨rounds, u ++ v, request, ?_, ?_, ?_, h.outcome turn⟩
        · rw [List.append_assoc]
          exact h.inTurn hr.symm hsince
        · rw [asked_append, hv.1]
          exact hu.asked_le
        · rw [entered_append, hu.entered_eq, hv.2]

theorem keeps_run (l : Loop) (input : LoopInput) (σ : Surroundings (l.workshop input)) :
    Keeps (l.runContract σ) (l.Returns input) [] (l.run input) :=
  keeps_turns (l.atTurn_run input)

/-! ### Runs by themselves -/

/-- What happens in a run that is performed by itself.  What is cancelled from the start does nothing. -/
def exchanges (l : Loop) (provider : Provider) (cancelAt : Option Nat) (input : LoopInput) (scene : Scene) :
    RunTrace :=
  if cancelAt = some 0 then [] else (l.run input).exchanges provider cancelAt scene

variable {provider : Provider} {cancelAt : Option Nat} {scene : Scene}

private theorem takeTurn_eq_act (l : Loop) (request : Request) :
    ∃ next, l.takeTurn request = .act (.ask request) next := by
  unfold takeTurn reply Retry.call Retry.attemptsFrom
  exact ⟨_, rfl⟩

/-- A run begins with a request. -/
theorem exchanges_run (l : Loop) (input : LoopInput) (provider : Provider) (cancelAt : Option Nat)
    (hc : cancelAt ≠ some 0) (scene : Scene) :
    ∃ answer after, l.exchanges provider cancelAt input scene =
      ⟨.ask (l.request input (input.history ++ [input.user]) (l.offers input 0)), answer⟩ :: after := by
  have hrun : l.run input =
      l.turns input l.limit { messages := input.history ++ [input.user], ledger := { maxCalls := l.limit } } := rfl
  rw [exchanges, if_neg hc, hrun, turns_eq, (l.atTurn_run input).offer_eq]
  dsimp only
  obtain ⟨next, h⟩ := l.takeTurn_eq_act (l.request input (input.history ++ [input.user]) (l.offers input 0))
  rw [show requested [] = 0 from rfl, h]
  exact ⟨_, _, rfl⟩

/-- Wherever a run is performed by itself, it leads on from what has happened. -/
theorem leads_exchanges (l : Loop) (provider : Provider) (cancelAt : Option Nat) (input : LoopInput) (scene : Scene) :
    ∃ rest, Leads (l.run input) (l.exchanges provider cancelAt input scene) rest := by
  unfold exchanges
  split
  · exact ⟨_, .here _⟩
  · exact ⟨_, leads_play ..⟩

/-- Whatever happens in a run that is performed by itself is allowed. -/
theorem allows_exchanges {u v : RunTrace} {x : Exchange runEffects}
    (h : l.exchanges provider cancelAt input scene = u ++ x :: v) : l.runAllows input u x.1 := by
  obtain ⟨rest, hl⟩ := l.leads_exchanges provider cancelAt input scene
  rw [h] at hl
  exact (l.keeps_run input (.any _)).allows_of_leads hl fun _ _ => trivial

/-- What every effect that is allowed preserves holds of whole runs. -/
theorem invariant_exchanges (inv : RunTrace → Prop) (h0 : inv [])
    (hi : ∀ t e a, inv t → l.runAllows input t e → inv (t ++ [⟨e, a⟩])) :
    inv (l.exchanges provider cancelAt input scene) := by
  obtain ⟨rest, hl⟩ := l.leads_exchanges provider cancelAt input scene
  exact (l.keeps_run input (.any _)).invariant inv (fun t e a ht he _ => hi t e a ht he) h0 hl fun _ _ => trivial

/-- A run that is performed by itself and succeeds is led to its outcome by what happened. -/
theorem leads_perform {outcome : Outcome} (h : (l.perform provider cancelAt input scene).1 = .returns (.ok outcome)) :
    Leads (l.run input) (l.exchanges provider cancelAt input scene) (done (.ok outcome)) := by
  unfold perform at h
  unfold exchanges
  dsimp only at h
  split at h
  · split at h <;> cases h
  · rename_i hc
    rw [if_neg hc]
    have hl := leads_play provider cancelAt (l.run input) scene
    split at h
    · rename_i r _ hplay
      rw [hplay] at hl
      cases h
      exact hl
    · cases h
    · split at h <;> cases h
    · split at h <;> cases h

/-- A run that is performed by itself returns what it concludes. -/
theorem returns_perform {outcome : Outcome}
    (h : (l.perform provider cancelAt input scene).1 = .returns (.ok outcome)) :
    l.Returns input (l.exchanges provider cancelAt input scene) (.ok outcome) :=
  (l.keeps_run input (.any _)).of_leads (leads_perform h) fun _ _ => trivial

/-- A run that is performed by itself hangs only if a collaborator does. -/
theorem perform_ne_hangs (hp : ∀ earlier request, Surroundings.Answers (provider.reply earlier request))
    (hw : ¬ (l.workshop input).MayHang) : (l.perform provider cancelAt input scene).1 ≠ .hangs := by
  intro h
  unfold perform at h
  dsimp only at h
  split at h
  · rename_i hc
    subst hc
    cases h
  · have hl := leads_play provider cancelAt (l.run input) scene
    split at h
    · cases h
    · cases h
    · rename_i hplay
      split at h
      · cases h
      · exact play_ne_paused _ _ _ _ (congrArg Prod.fst hplay)
    · rename_i hplay
      rw [hplay] at hl
      refine hw ((l.keeps_run input (.answering _)).of_leads hl fun x hx => ?_)
      obtain ⟨e, answer⟩ := x
      cases e with
      | ask request =>
        obtain ⟨earlier, rfl⟩ := answer_of_mem_exchanges hx rfl
        exact hp earlier request
      | _ => trivial

end Loop

end AgentLoop
