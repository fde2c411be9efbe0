import AgentLoop.Proofs.Replies
import AgentLoop.Proofs.Requests
import AgentLoop.Proofs.RoundPlay
import AgentLoop.Proofs.SideBySide

/-!
# The chronicle of a run

A run that returns is told in full by its turns and its rounds, however much was shed from its requests on the way.
Each turn sent the messages of the conversation so far, as far as they fit, and got a reply; each reply but the last
was followed by a round; and the transcript holds the replies with the results of their rounds, and at the end the
answer.  What is shed from one request is shed from that request only.
-/

namespace AgentLoop

open Process StreamItem RunTrace ToolRound

/-- A turn that took place: the request, how many attempts were made at it, and the reply to the last of them. -/
structure TurnTaken where
  request : Request
  attempts : Nat
  reply : Reply

namespace TurnTaken

/-- The requests that were sent in these turns. -/
def sent (turns : List TurnTaken) : List Request := turns.flatMap fun turn => List.replicate turn.attempts turn.request

/-- The tokens of the turn by its own account. -/
def tokens (turn : TurnTaken) : UInt32 := (turn.reply.usage.map (·.total)).getD 0

/-- The usage that the replies report, one after the other. -/
def usage (turns : List TurnTaken) : Usage := (turns.filterMap (·.reply.usage)).foldl Usage.accumulate {}

private theorem usage_append (turns : List TurnTaken) (turn : TurnTaken) :
    usage (turns ++ [turn]) =
      match turn.reply.usage with
      | some u => (usage turns).accumulate u
      | none => usage turns := by
  unfold usage
  rw [List.filterMap_append, List.foldl_append]
  cases hu : turn.reply.usage with
  | none => simp [hu]
  | some u => simp [hu]

end TurnTaken

namespace Loop

variable {l : Loop} {input : LoopInput} {t u v w : RunTrace} {s : State} {k : Nat} {turns : List TurnTaken}
  {rounds : List ToolRound} {outcome : Outcome}

/-- The notes of these turns, if events are recorded. -/
def notes (l : Loop) (turns : List TurnTaken) : List UInt32 := if l.recordsEvents then turns.map (·.tokens) else []

/-- The turn that followed these rounds sent the conversation up to them, as far as it fits, and got a reply that came
to its proper end. -/
structure Sent (l : Loop) (input : LoopInput) (rounds : List ToolRound) (turn : TurnTaken) : Prop where
  request : turn.request =
    l.request input (input.history ++ input.user :: conversation rounds) (l.offers input (requested rounds))
  pos : 0 < turn.attempts
  le : turn.attempts ≤ l.policy.attempts
  complete : fate turn.reply.items = .complete

/-- The round that followed this turn after these rounds: tools were offered, the calls are those of the reply, and
each result is what its call comes to alone. -/
structure Followed (l : Loop) (input : LoopInput) (rounds : List ToolRound) (turn : TurnTaken) (r : ToolRound) :
    Prop where
  offered : l.offers input (requested rounds) = true
  text : r.text = turn.reply.text
  calls : r.calls = turn.reply.calls
  calls_ne : r.calls ≠ []
  results : (l.workshop input).EachAlone { maxCalls := l.limit, calls := requested rounds } r.calls r.results

/-- What these turns and rounds tell of a trace. -/
structure Recounts (l : Loop) (input : LoopInput) (t : RunTrace) (turns : List TurnTaken) (rounds : List ToolRound) :
    Prop where
  heeds : Heeds t (TurnTaken.sent turns) (turns.map (·.reply)) (l.notes turns)
  sent {i : Nat} {turn : TurnTaken} (h : turns[i]? = some turn) : l.Sent input (rounds.take i) turn
  followed {i : Nat} {r : ToolRound} (h : rounds[i]? = some r) :
    ∃ turn, turns[i]? = some turn ∧ l.Followed input (rounds.take i) turn r

/-- The last reply is the answer; nothing follows it, for it asks for no tools or was offered none. -/
structure Answered (l : Loop) (input : LoopInput) (rounds : List ToolRound) (turn : TurnTaken) (outcome : Outcome) :
    Prop where
  answer : outcome.answer = turn.reply.text
  unoffered : l.offers input (requested rounds) = true → turn.reply.calls = []

/-- A run told in full. -/
structure Chronicle (l : Loop) (input : LoopInput) (t : RunTrace) (outcome : Outcome) (turns : List TurnTaken)
    (rounds : List ToolRound) : Prop extends l.Recounts input t turns rounds, Concludes input rounds outcome where
  length : turns.length = rounds.length + 1
  last : ∃ turn, turns.getLast? = some turn ∧ l.Answered input rounds turn outcome
  usage : outcome.usage = TurnTaken.usage turns

/-! ### Turn after turn -/

private theorem recounts_nil (l : Loop) (input : LoopInput) : l.Recounts input [] [] [] where
  heeds := by
    have hnotes : l.notes [] = [] := by simp [notes]
    rw [hnotes]
    exact heeds_nil
  sent h := by simp at h
  followed h := by simp at h

/-- The note of a turn. -/
private theorem heeds_note {model : String} {turn : TurnTaken}
    (h : Leads (l.record (.responseGenerated model turn.tokens)) u (done ())) : Heeds u [] [] (l.notes [turn]) := by
  have hu := leads_record h
  unfold notes
  split at hu
  · rename_i hr
    subst hu
    rw [if_pos hr]
    exact ⟨rfl, rfl, rfl⟩
  · rename_i hr
    subst hu
    rw [if_neg hr]
    exact heeds_nil

private theorem notes_append (turns more : List TurnTaken) :
    l.notes (turns ++ more) = l.notes turns ++ l.notes more := by
  unfold notes
  split
  · exact List.map_append
  · rfl

/-- An element of a list with one more is one of the list, or that one. -/
theorem getElem?_concat {α : Type} {xs : List α} {x y : α} {i : Nat} (h : (xs ++ [x])[i]? = some y) :
    xs[i]? = some y ∧ i < xs.length ∨ i = xs.length ∧ y = x := by
  have hlt : i < (xs ++ [x]).length := (List.getElem?_eq_some_iff.1 h).1
  rw [List.length_append, List.length_singleton] at hlt
  by_cases hi : i < xs.length
  · rw [List.getElem?_append_left hi] at h
    exact .inl ⟨h, hi⟩
  · obtain rfl : i = xs.length := by omega
    rw [List.getElem?_concat_length] at h
    exact .inr ⟨rfl, (Option.some.inj h).symm⟩

private theorem getElem?_of_append {α : Type} {xs ys : List α} {y : α} {i : Nat} (h : xs[i]? = some y) :
    (xs ++ ys)[i]? = some y := by
  rw [List.getElem?_append_left (List.getElem?_eq_some_iff.1 h).1]
  exact h

/-- One more turn, after all the rounds. -/
private theorem Recounts.turn (h : l.Recounts input t turns rounds) (hlength : turns.length = rounds.length)
    {turn : TurnTaken} (ht : l.Took turn.request u turn.attempts turn.reply)
    (hr : turn.request =
      l.request input (input.history ++ input.user :: conversation rounds) (l.offers input (requested rounds)))
    (hv : Heeds v [] [] (l.notes [turn])) : l.Recounts input (t ++ (u ++ v)) (turns ++ [turn]) rounds where
  heeds := by
    have hall := h.heeds.append (ht.heeds.append hv)
    simpa [TurnTaken.sent, notes_append] using hall
  sent {i other} hi := by
    rcases getElem?_concat hi with ⟨hi, -⟩ | ⟨rfl, rfl⟩
    · exact h.sent hi
    · rw [hlength, List.take_length]
      exact ⟨hr, ht.pos, ht.le, ht.complete⟩
  followed {i r} hi := by
    obtain ⟨other, hother, hfollowed⟩ := h.followed hi
    exact ⟨other, getElem?_of_append hother, hfollowed⟩

/-- One more round, after the last of the turns. -/
private theorem Recounts.round (h : l.Recounts input t turns rounds) (hlength : turns.length = rounds.length + 1)
    {turn : TurnTaken} {r : ToolRound} (hturn : turns[rounds.length]? = some turn)
    (hr : l.Followed input rounds turn r) (hw : Heeds w [] [] []) :
    l.Recounts input (t ++ w) turns (rounds ++ [r]) where
  heeds := by
    have hall := h.heeds.append hw
    simpa using hall
  sent {i other} hi := by
    have hle : i ≤ rounds.length := by
      have hlt := (List.getElem?_eq_some_iff.1 hi).1
      omega
    rw [List.take_append_of_le_length hle]
    exact h.sent hi
  followed {i other} hi := by
    rcases getElem?_concat hi with ⟨hi, hlt⟩ | ⟨rfl, rfl⟩
    · rw [List.take_append_of_le_length hlt.le]
      exact h.followed hi
    · rw [List.take_append_of_le_length (Nat.le_refl _), List.take_length]
      exact ⟨turn, hturn, hr⟩

/-! ### Rounds -/

/-- What a round comes to depends on the ledger only as far as calls are counted. -/
private theorem eachAlone_of_playRound {ledger after : Ledger} {calls : List CallRequest} {results : List ToolResult}
    (h : Leads (l.playRound input ledger calls) w (done (.ok (results, after)))) {limit counted : Nat}
    (hlimit : ledger.maxCalls = limit) (hcounted : ledger.calls = counted) :
    (l.workshop input).EachAlone { maxCalls := limit, calls := counted } calls results := by
  have hendings : ((l.workshop input).timelines ledger calls).map (·.ending) = results.map .returns :=
    Timeline.ending_together (settled_of_playRound h).1
  subst hlimit hcounted
  exact Workshop.eachAlone_of_endings hendings

/-! ### From turn to turn -/

/-- A run at the beginning of a turn, and what has been told of it by then. -/
structure Told (l : Loop) (input : LoopInput) (t : RunTrace) (k : Nat) (s : State) (turns : List TurnTaken)
    (rounds : List ToolRound) : Prop extends l.AtTurn input t k s rounds, l.Recounts input t turns rounds where
  length : turns.length = rounds.length
  usage : s.usage = TurnTaken.usage turns

theorem told_run (l : Loop) (input : LoopInput) :
    l.Told input [] l.limit { messages := input.history ++ [input.user], ledger := { maxCalls := l.limit } } [] [] where
  toAtTurn := l.atTurn_run input
  toRecounts := l.recounts_nil input
  length := rfl
  usage := rfl

/-- One more turn has been taken, and its reply is noted if events are recorded. -/
inductive Taken (l : Loop) (input : LoopInput) :
    RunTrace → Nat → State → List TurnTaken → List ToolRound → TurnTaken → Prop where
  | intro {before u v : RunTrace} {k : Nat} {s : State} {turns : List TurnTaken} {rounds : List ToolRound}
    {turn : TurnTaken} (h : l.Told input before k s turns rounds)
    (hr : turn.request = l.request input s.messages (l.offers input (requested rounds)))
    (ht : l.Took turn.request u turn.attempts turn.reply)
    (hu : Leads (l.takeTurn turn.request) u (done (.ok (turn.reply.turn turn.request))))
    (hv : Leads (l.record (.responseGenerated (turn.reply.model turn.request) turn.tokens)) v (done ())) :
    Taken l input (before ++ (u ++ v)) k s turns rounds turn

/-- What follows a turn: the round of its calls and the turns after it, or nothing. -/
def goOn (l : Loop) (input : LoopInput) (k : Nat) (s : State) (offer : Bool) (turn : Turn) :
    RunProcess (Except RunError Outcome) :=
  if offer && !turn.calls.isEmpty then
    l.playRound input s.ledger turn.calls >>= fun
      | .error e => pure (.error e)
      | .ok (results, ledger) => l.turns input (k - 1) (s.after turn results ledger)
  else pure (.ok (s.outcome input turn))

variable {turn : TurnTaken}

theorem Told.turns_eq (h : l.Told input t k s turns rounds) :
    l.turns input k s = l.takeTurn (l.request input s.messages (l.offers input (requested rounds))) >>= fun
      | .error e => pure (.error e)
      | .ok turn =>
        l.record (.responseGenerated turn.model ((turn.usage.map (·.total)).getD 0)) >>= fun _ =>
          l.goOn input k s (l.offers input (requested rounds)) turn := by
  rw [Loop.turns_eq, h.offer_eq]
  rfl

private theorem Taken.recounts (h : l.Taken input t k s turns rounds turn) :
    l.Recounts input t (turns ++ [turn]) rounds := by
  cases h with
  | intro h hr ht hu hv =>
    rw [h.messages] at hr
    exact h.toRecounts.turn h.length ht hr (heeds_note hv)

private theorem Taken.used (h : l.Taken input t k s turns rounds turn) :
    s.used (turn.reply.turn turn.request) = TurnTaken.usage (turns ++ [turn]) := by
  cases h with
  | intro h =>
    rw [TurnTaken.usage_append, State.used, h.usage]
    rfl

/-- What happened between two turns, where a round returned. -/
private theorem between_of_leads {request : Request} {turn : Turn} {ledger after : Ledger} {results : List ToolResult}
    {event : Event} (hu : Leads (l.takeTurn request) u (done (.ok turn))) (hv : Leads (l.record event) v (done ()))
    (hevent : (Effect.note (.event event)).isEntered = false)
    (hw : Leads (l.playRound input ledger turn.calls) w (done (.ok (results, after)))) :
    Between l request ledger turn results after u v w := by
  have hkeeps : Keeps (l.turnContract (.any (l.workshop input)) request) _ [] (l.takeTurn request) := turnTrace_takeTurn
  have hkeeps' : Keeps (l.roundContract (.any (l.workshop input)) (roundBound ledger turn.calls)) _ []
      (l.playRound input ledger turn.calls) := roundTrace_playRound
  have hturn := hkeeps.of_leads hu fun _ _ => trivial
  have hround := hkeeps'.of_leads hw fun _ _ => trivial
  refine ⟨hturn.1, ?_, hround.2.1, hround.1 results after rfl⟩
  have hnote := leads_record hv
  split at hnote
  · subst hnote
    simp [asked, entered, Effect.isAsk, hevent]
  · subst hnote
    simp [asked, entered]

/-- A turn whose round has returned is followed by another turn. -/
theorem Taken.next (h : l.Taken input t k s turns rounds turn) (ho : l.offers input (requested rounds) = true)
    (hc : turn.reply.calls ≠ []) {results : List ToolResult} {after : Ledger}
    (hw : Leads (l.playRound input s.ledger turn.reply.calls) w (done (.ok (results, after)))) :
    l.Told input (t ++ w) (k - 1) (s.after (turn.reply.turn turn.request) results after) (turns ++ [turn])
      (rounds ++ [⟨turn.reply.text, turn.reply.calls, results⟩]) := by
  have hrecounts := h.recounts
  have hused := h.used
  cases h with
  | @intro before u v _ _ _ _ _ h hr ht hu hv =>
    have hcalls : (turn.reply.turn turn.request).calls ≠ [] := hc
    have hlast : (turns ++ [turn])[rounds.length]? = some turn := by rw [← h.length, List.getElem?_concat_length]
    have hfollowed : l.Followed input rounds turn ⟨turn.reply.text, turn.reply.calls, results⟩ :=
      ⟨ho, rfl, rfl, hc, eachAlone_of_playRound hw h.maxCalls h.calls⟩
    have hlength : (turns ++ [turn]).length = rounds.length + 1 := by
      rw [List.length_append, List.length_singleton, h.length]
    have hnext : Leads (l.turns input k s) (u ++ (v ++ w))
        (l.turns input (k - 1) (s.after (turn.reply.turn turn.request) results after)) := by
      rw [h.turns_eq, ← hr]
      refine hu.bind_done (hv.bind_done ?_)
      rw [goOn, if_pos (by simp [ho, hc])]
      simpa using hw.bind_done (.here _)
    rw [ho] at hr
    have harrived := h.next ho hcalls (hr ▸ between_of_leads hu hv rfl hw) hnext
    refine ⟨by simpa using harrived, hrecounts.round hlength hlast hfollowed (heeds_playRound hw), ?_, hused⟩
    rw [hlength, List.length_append, List.length_singleton]

private theorem Taken.rounds_ne_zero (h : l.Taken input t k s turns rounds turn)
    (ho : l.offers input (requested rounds) = true) : k ≠ 0 := by
  cases h with
  | intro h =>
    have hfuel := h.fuel
    have hbelow := (offers_eq_true ho).2
    omega

/-- After a turn that was taken a run has its answer, or it plays the round of the calls, or it has come through that
to the next turn. -/
theorem Taken.leads_goOn (h : l.Taken input t k s turns rounds turn) {rest : RunProcess (Except RunError Outcome)}
    (hl : Leads (l.goOn input k s (l.offers input (requested rounds)) (turn.reply.turn turn.request)) u rest) :
    (u = [] ∧ (l.offers input (requested rounds) = true → turn.reply.calls = []) ∧
        rest = done (.ok (s.outcome input (turn.reply.turn turn.request)))) ∨
      l.offers input (requested rounds) = true ∧ turn.reply.calls ≠ [] ∧ k ≠ 0 ∧
        (((∀ outcome, rest ≠ done (.ok outcome)) ∧
            ∃ r, Leads (l.playRound input s.ledger turn.reply.calls) u r) ∨
          ∃ v w results after, u = v ++ w ∧
            Leads (l.playRound input s.ledger turn.reply.calls) v (done (.ok (results, after))) ∧
            Leads (l.turns input (k - 1) (s.after (turn.reply.turn turn.request) results after)) w rest) := by
  unfold goOn at hl
  split at hl
  · rename_i hcalls
    obtain ⟨hoffer, hcalls⟩ : l.offers input (requested rounds) = true ∧ turn.reply.calls ≠ [] := by
      simpa using hcalls
    refine .inr ⟨hoffer, hcalls, h.rounds_ne_zero hoffer, ?_⟩
    rcases leads_bind_strict hl with ⟨hrest, r, -, hround⟩ | ⟨r, v, w, rfl, hround, hw⟩
    · exact .inl ⟨fun _ => hrest _, r, hround⟩
    · cases r with
      | error e =>
        obtain ⟨rfl, rfl⟩ := leads_done hw
        rw [List.append_nil]
        exact .inl ⟨fun _ hdone => (nomatch hdone), _, hround⟩
      | ok result => exact .inr ⟨v, w, result.1, result.2, rfl, hround, hw⟩
  · rename_i hcalls
    obtain ⟨rfl, rfl⟩ := leads_done hl
    exact .inl ⟨rfl, fun hoffer => (by simpa [hoffer] using hcalls), rfl⟩

/-- No call of a tool has a part in it. -/
def Apart (t : RunTrace) : Prop := ∀ x ∈ t, ∀ entry, x.1 = .note entry → entry.isOfCall = false

private theorem apart_takeTurn (input : LoopInput) {request : Request} {rest : RunProcess (Except RunError Turn)}
    (h : Leads (l.takeTurn request) t rest) : Apart t := by
  intro x hx entry hentry
  obtain ⟨u, v, rfl⟩ := List.append_of_mem hx
  have hkeeps : Keeps (l.turnContract (.any (l.workshop input)) request) (fun _ _ => True) [] (l.takeTurn request) :=
    keeps_takeTurn
  have hallows := hkeeps.allows_of_leads h fun _ _ => trivial
  rw [hentry] at hallows
  cases entry with
  | event event =>
    cases event with
    | retryScheduled => rfl
    | _ => exact hallows.elim
  | _ => exact hallows.elim

private theorem apart_record {event : Event} {rest : RunProcess Unit} (he : (Entry.event event).isOfCall = false)
    (h : Leads (l.record event) t rest) : Apart t := by
  intro x hx entry hentry
  obtain ⟨u, v, rfl⟩ := List.append_of_mem hx
  have hkeeps : Keeps (.ofAllows fun _ effect => effect = Effect.note (.event event)) (fun _ _ => True) []
      (l.record event) := keeps_record rfl fun _ _ _ => trivial
  have hallows := hkeeps.allows_of_leads h fun _ _ => trivial
  cases hentry.symm.trans hallows
  exact he

private theorem Apart.append (h : Apart t) (h' : Apart u) : Apart (t ++ u) := by
  intro x hx
  rcases List.mem_append.1 hx with hx | hx
  · exact h x hx
  · exact h' x hx

/-- From the beginning of a turn a run is in that turn, and does not return as long as it is, or has taken it. -/
theorem leads_turns (h : l.Told input t k s turns rounds) {rest : RunProcess (Except RunError Outcome)}
    (hl : Leads (l.turns input k s) u rest) :
    (Apart u ∧ ∀ outcome, rest ≠ done (.ok outcome)) ∨
      ∃ v w turn, u = v ++ w ∧ Apart v ∧ l.Taken input (t ++ v) k s turns rounds turn ∧
        Leads (l.goOn input k s (l.offers input (requested rounds)) (turn.reply.turn turn.request)) w rest := by
  rw [h.turns_eq] at hl
  generalize hr : l.request input s.messages (l.offers input (requested rounds)) = request at hl
  rcases leads_bind_strict hl with ⟨hrest, r, -, hu⟩ | ⟨r, u, v, rfl, hu, hv⟩
  · exact .inl ⟨apart_takeTurn input hu, fun _ => hrest _⟩
  · have hapart := apart_takeTurn input hu
    cases r with
    | error e =>
      cases hv
      exact .inl ⟨by simpa using hapart, fun _ hdone => nomatch hdone⟩
    | ok turn =>
      obtain ⟨attempts, reply, htook, rfl⟩ := took_of_leads hu
      rcases leads_bind_strict hv with ⟨hrest, r, -, hnote⟩ | ⟨_, v, w, rfl, hnote, hw⟩
      · exact .inl ⟨hapart.append (apart_record rfl hnote), fun _ => hrest _⟩
      · exact .inr ⟨u ++ v, w, ⟨request, attempts, reply⟩, (List.append_assoc ..).symm,
          hapart.append (apart_record rfl hnote), .intro h hr.symm htook hu hnote, hw⟩

/-- A reply that asks for no tools, or was offered none, is the answer, and nothing is left to be told. -/
theorem Taken.chronicle (h : l.Taken input t k s turns rounds turn)
    (hc : l.offers input (requested rounds) = true → turn.reply.calls = []) :
    l.Chronicle input t (s.outcome input (turn.reply.turn turn.request)) (turns ++ [turn]) rounds := by
  have hrecounts := h.recounts
  have hused := h.used
  cases h with
  | intro h =>
    have hlength : (turns ++ [turn]).length = rounds.length + 1 := by
      rw [List.length_append, List.length_singleton, h.length]
    exact ⟨hrecounts, h.outcome _, hlength, ⟨turn, List.getLast?_concat, rfl, hc⟩, hused⟩

/-- From the beginning of a turn to the return of the run. -/
private theorem chronicle_of_leads (h : l.Told input t k s turns rounds)
    (hl : Leads (l.turns input k s) u (done (.ok outcome))) :
    ∃ turns rounds, l.Chronicle input (t ++ u) outcome turns rounds := by
  induction k using Nat.strongRecOn generalizing t u s turns rounds with
  | ind k ih =>
    rcases leads_turns h hl with ⟨-, hrest⟩ | ⟨v, w, turn, rfl, -, htaken, hw⟩
    · exact absurd rfl (hrest outcome)
    · rcases htaken.leads_goOn hw with ⟨rfl, hcalls, hdone⟩ | ⟨hoffer, hcalls, hk, hround⟩
      · -- the reply is the answer
        cases hdone
        rw [List.append_nil]
        exact ⟨turns ++ [turn], rounds, htaken.chronicle hcalls⟩
      · -- a round follows, and the run goes on from the next turn
        obtain ⟨hrest, -⟩ | ⟨w, x, results, after, rfl, hround, hx⟩ := hround
        · exact absurd rfl (hrest outcome)
        · have hrest := ih (k - 1) (by omega) (htaken.next hoffer hcalls hround) hx
          simpa using hrest

theorem chronicle_run (hl : Leads (l.run input) t (done (.ok outcome))) :
    ∃ turns rounds, l.Chronicle input t outcome turns rounds :=
  chronicle_of_leads (l.told_run input) hl

/-- What was said by the end of a round is what the transcript begins with. -/
private theorem Chronicle.past (h : l.Chronicle input t outcome turns rounds) (i : Nat) :
    input.user :: conversation (rounds.take i) <+: outcome.transcript := by
  have hrounds : conversation rounds = conversation (rounds.take i) ++ conversation (rounds.drop i) := by
    conv => lhs; rw [← List.take_append_drop i rounds]
    exact List.flatMap_append
  rw [h.transcript, hrounds, List.cons_append, List.append_assoc, ← List.cons_append]
  exact List.prefix_append ..

/-- A run that succeeds, by itself or until it would be cancelled, is told in full by its turns and its rounds, and
each turn sent what fits of the history and of the transcript up to the end of the round before it. -/
theorem perform_chronicle (l : Loop) (provider : Provider) (cancelAt : Option Nat) (input : LoopInput) (scene : Scene)
    (h : (l.perform provider cancelAt input scene).1 = .returns (.ok outcome)) :
    ∃ turns rounds, l.Chronicle input (l.exchanges provider cancelAt input scene) outcome turns rounds ∧
      ∀ (i : Nat) (turn : TurnTaken), turns[i]? = some turn → ∃ past, past <+: outcome.transcript ∧
        past = input.user :: conversation (rounds.take i) ∧
        turn.request.messages = (l.window.trim input.system (input.history ++ past)).messages := by
  obtain ⟨turns, rounds, hc⟩ := chronicle_run (leads_perform h)
  refine ⟨turns, rounds, hc, fun i turn hi => ⟨_, hc.past i, rfl, ?_⟩⟩
  rw [(hc.sent hi).request]
  rfl

/-- A model that has one thing looked up before it answers, in a window that has room for little else. -/
def curiousProvider : Provider where
  reply earlier _ :=
    if earlier.isEmpty then .now (.ok (.whole ⟨.ofCalls "one moment" [⟨"a", "clock", ""⟩], none, "m"⟩))
    else .now (.ok (.whole ⟨.ofAssistant "noon", some ⟨7, 1, 8⟩, "m"⟩))

def curiousInput : LoopInput :=
  { resumedInput with
    user := .ofUser "what time is it?"
    tools := .ofTools [{ name := "clock", execute := fun _ _ => .now (.ok "12:00") }] }

theorem perform_chronicle_curious : ∃ outcome,
    (resumedLoop.perform curiousProvider none curiousInput {}).1 = .returns (.ok outcome) ∧
      outcome.transcript =
        [.ofUser "what time is it?", .ofCalls "one moment" [⟨"a", "clock", ""⟩], .ofResult "a" "12:00",
          .ofAssistant "noon"] ∧
      ∃ turns rounds,
        resumedLoop.Chronicle curiousInput (resumedLoop.exchanges curiousProvider none curiousInput {}) outcome turns
          rounds ∧
        ∀ (i : Nat) (turn : TurnTaken), turns[i]? = some turn → ∃ past, past <+: outcome.transcript ∧
          past = curiousInput.user :: conversation (rounds.take i) ∧
          turn.request.messages = (resumedLoop.window.trim curiousInput.system (curiousInput.history ++ past)).messages := by
  have h : (resumedLoop.perform curiousProvider none curiousInput {}).1 = .returns (.ok
      { answer := "noon"
        transcript := [.ofUser "what time is it?", .ofCalls "one moment" [⟨"a", "clock", ""⟩], .ofResult "a" "12:00",
          .ofAssistant "noon"]
        usage := ⟨7, 1, 8⟩
        toolsUsed := ["clock"]
        toolCalls := 1
        iterations := 2 }) := by decide +kernel
  exact ⟨_, h, rfl, perform_chronicle resumedLoop curiousProvider none curiousInput {} h⟩

end Loop

end AgentLoop
