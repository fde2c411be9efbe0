import AgentLoop.Proofs.Consumption

/-!
# What a turn brings

A turn that returns has sent one request again and again, and only the last attempt got a reply.  What the turn brings
is in the chunks of that reply that were consumed: their contents one after the other, all the calls that they ask for,
and the usage that was reported last.  The model is not heard of otherwise: no turn notes what it brings, and neither
does a round.
-/

namespace AgentLoop

open Process StreamItem

/-! ### What a reply says -/

namespace Turn

/-- What the chunks of a reply bring. -/
def said (model : String) (chunks : List Chunk) : Turn where
  text := String.join (contents chunks)
  calls := chunks.flatMap (·.calls)
  usage := (chunks.filterMap (·.usage)).getLast?
  model := model

private theorem said_append (model : String) (chunks : List Chunk) (c : Chunk) :
    said model (chunks ++ [c]) =
      { said model chunks with
        text := (said model chunks).text ++ c.content.getD ""
        calls := (said model chunks).calls ++ c.calls
        usage := c.usage <|> (said model chunks).usage } := by
  have husage : ((chunks ++ [c]).filterMap (·.usage)).getLast? = (c.usage <|> (chunks.filterMap (·.usage)).getLast?) := by
    cases hu : c.usage <;> simp [hu]
  have htext : String.join (contents (chunks ++ [c])) = String.join (contents chunks) ++ c.content.getD "" := by
    rw [contents_append, join_contents_append]
  simp only [said, husage, htext, List.flatMap_append, List.flatMap_singleton]

end Turn

namespace Reply

/-- The model that a reply names; a stream names none, so it is the one that was asked. -/
def model (request : Request) : Reply → String
  | .whole response => if request.stream then request.model else response.model
  | .stream _ => request.model

/-- What a reply to a request brings as far as it is consumed. -/
def turn (request : Request) (reply : Reply) : Turn := Turn.said (reply.model request) (consumed reply.items)

/-- What a reply says. -/
def text (reply : Reply) : String := String.join (heard reply.items)

/-- The tool calls that a reply asks for. -/
def calls (reply : Reply) : List CallRequest := (consumed reply.items).flatMap (·.calls)

/-- The usage that a reply reports last, if it reports any. -/
def usage (reply : Reply) : Option Usage := ((consumed reply.items).filterMap (·.usage)).getLast?

@[simp] theorem text_turn (request : Request) (reply : Reply) : (reply.turn request).text = reply.text := rfl

@[simp] theorem calls_turn (request : Request) (reply : Reply) : (reply.turn request).calls = reply.calls := rfl

@[simp] theorem usage_turn (request : Request) (reply : Reply) : (reply.turn request).usage = reply.usage := rfl

/-- A whole response brings what its message says. -/
theorem said_whole (model : String) (response : Response) :
    Turn.said model (consumed (Reply.whole response).items) =
      ⟨response.message.content, response.message.calls, response.usage, model⟩ := by
  have htext := join_contents_append [] (Loop.chunkOf response)
  cases hu : response.usage with
  | none => simpa [Turn.said, items, consumed, Loop.chunkOf, hu] using htext
  | some => simpa [Turn.said, items, consumed, Loop.chunkOf, hu] using htext

end Reply

/-! ### The model in a trace -/

namespace Exchange

/-- The request that is sent. -/
def request? : Exchange runEffects → Option Request
  | ⟨.ask request, _⟩ => some request
  | _ => none

/-- The reply that is got. -/
def reply? : Exchange runEffects → Option Reply
  | ⟨.ask _, answer⟩ =>
    match answer.ending with
    | .returns (.ok reply) => some reply
    | _ => none
  | _ => none

/-- The event that is recorded. -/
def event? : Exchange runEffects → Option Event
  | ⟨.note (.event e), _⟩ => some e
  | _ => none

end Exchange

/-- The tokens that the note of a turn gives. -/
def Event.tokens? : Event → Option UInt32
  | .responseGenerated _ tokensUsed .. => some tokensUsed
  | _ => none

/-- Neither the model nor the note of a turn has a part in it. -/
def Effect.isBeside : Effect → Bool
  | .ask _ | .note (.event (.responseGenerated ..)) => false
  | _ => true

namespace RunTrace

variable {t u : RunTrace}

/-- The requests that were sent. -/
def requests (t : RunTrace) : List Request := t.filterMap Exchange.request?

/-- The replies that were got. -/
def replies (t : RunTrace) : List Reply := t.filterMap Exchange.reply?

/-- The events that were recorded. -/
def events (t : RunTrace) : List Event := t.filterMap Exchange.event?

/-- The tokens of the turns that were noted. -/
def generated (t : RunTrace) : List UInt32 := (events t).filterMap Event.tokens?

private theorem requests_append (t u : RunTrace) :
    requests (t ++ u) = requests t ++ requests u := List.filterMap_append ..

private theorem replies_append (t u : RunTrace) : replies (t ++ u) = replies t ++ replies u := List.filterMap_append ..

theorem events_append (t u : RunTrace) : events (t ++ u) = events t ++ events u := List.filterMap_append ..

private theorem generated_append (t u : RunTrace) : generated (t ++ u) = generated t ++ generated u := by
  rw [generated, events_append, List.filterMap_append]
  rfl

/-- What a trace tells of the model. -/
structure Heeds (t : RunTrace) (sent : List Request) (got : List Reply) (noted : List UInt32) : Prop where
  requests : requests t = sent
  replies : replies t = got
  generated : generated t = noted

theorem Heeds.append {sent sent' : List Request} {got got' : List Reply} {noted noted' : List UInt32}
    (h : Heeds t sent got noted) (h' : Heeds u sent' got' noted') :
    Heeds (t ++ u) (sent ++ sent') (got ++ got') (noted ++ noted') where
  requests := by rw [requests_append, h.requests, h'.requests]
  replies := by rw [replies_append, h.replies, h'.replies]
  generated := by rw [generated_append, h.generated, h'.generated]

/-- Where the model has no part, it is not heard of. -/
theorem heeds_beside (h : ∀ x ∈ t, x.1.isBeside = true) : Heeds t [] [] [] := by
  have hnone {β : Type} (f : Exchange runEffects → Option β) (hf : ∀ x, x.1.isBeside = true → f x = none) :
      t.filterMap f = [] := by
    rw [List.filterMap_eq_nil_iff]
    intro x hx
    exact hf x (h x hx)
  have hrequest : ∀ x : Exchange runEffects, x.1.isBeside = true → x.request? = none := by
    rintro ⟨e, answer⟩ hx
    cases e with
    | ask => cases hx
    | _ => rfl
  have hreply : ∀ x : Exchange runEffects, x.1.isBeside = true → x.reply? = none := by
    rintro ⟨e, answer⟩ hx
    cases e with
    | ask => cases hx
    | _ => rfl
  have hgenerated : ∀ x : Exchange runEffects, x.1.isBeside = true → x.event?.bind Event.tokens? = none := by
    rintro ⟨e, answer⟩ hx
    cases e with
    | note entry =>
      cases entry with
      | event e =>
        cases e with
        | responseGenerated => cases hx
        | _ => rfl
      | _ => rfl
    | _ => rfl
  refine ⟨hnone _ hrequest, hnone _ hreply, ?_⟩
  rw [generated, events, List.filterMap_filterMap]
  exact hnone _ hgenerated

theorem heeds_nil : Heeds [] [] [] [] := heeds_beside (by simp)

end RunTrace

namespace Loop

open RunTrace

variable {l : Loop} {input : LoopInput} {request : Request} {t : RunTrace}

/-! ### Reading a reply -/

private theorem beside_deliver {delta : String} {r : Bool × Nat} (h : Leads (deliver delta) t (done r)) :
    ∀ x ∈ t, x.1.isBeside = true := by
  obtain ⟨room, u, v, rfl, hu, hv⟩ := leads_bind_done h
  obtain ⟨answer, rfl⟩ : ∃ answer, u = [⟨.room, answer⟩] := by
    cases hu with
    | act hu =>
      cases hu
      exact ⟨_, rfl⟩
  have hput : v = [] ∨ v = [⟨.put delta, ()⟩] := by
    cases room with
    | gone =>
      cases hv
      exact .inl rfl
    | free =>
      cases hv with
      | act hv =>
        cases hv
        exact .inr rfl
    | after ticks =>
      cases hv with
      | wait hv =>
        cases hv with
        | act hv =>
          cases hv
          exact .inr rfl
  rcases hput with rfl | rfl
  · simp [Effect.isBeside]
  · simp [Effect.isBeside]

/-- A chunk is handed out if it says anything, and then it is the last one or reading goes on. -/
theorem collect_chunk (spent due gap : Nat) (model : String) (past : List Chunk) (chunk : Chunk)
    (rest : List (Nat × StreamItem)) :
    collect spent due (Turn.said model past) ((gap, .chunk chunk) :: rest) =
      .wait (due + gap - spent)
        ((if (chunk.content.getD "").isEmpty then pure (true, 0) else deliver (chunk.content.getD "")) >>=
          fun (delivered, waited) =>
            if !delivered then pure (.error .cancelled)
            else if chunk.done then pure (.ok (Turn.said model (past ++ [chunk])))
            else collect (max spent (due + gap) + waited) (due + gap) (Turn.said model (past ++ [chunk])) rest) := by
  rw [collect, Turn.said_append]
  by_cases hempty : (chunk.content.getD "").isEmpty = true
  · simp only [hempty, if_true]
  · simp only [hempty, Bool.false_eq_true, if_false]

/-- Handing out what a chunk says is not heard of by the model. -/
private theorem beside_handOut {delta : String} {r : Bool × Nat}
    (h : Leads (if delta.isEmpty then pure (true, 0) else deliver delta) t (done r)) :
    ∀ x ∈ t, x.1.isBeside = true := by
  split at h
  · cases h
    simp
  · exact beside_deliver h

/-- After a chunk, reading that comes to a proper end has come to it, or goes on with the rest. -/
private theorem leads_collect_chunk {spent due gap : Nat} {model : String} {past : List Chunk} {chunk : Chunk}
    {rest : List (Nat × StreamItem)} {turn : Turn}
    (h : Leads (collect spent due (Turn.said model past) ((gap, .chunk chunk) :: rest)) t (done (.ok turn))) :
    ∃ u v, t = u ++ v ∧ (∀ x ∈ u, x.1.isBeside = true) ∧
      (chunk.done = true ∧ v = [] ∧ turn = Turn.said model (past ++ [chunk]) ∨
        chunk.done = false ∧ ∃ spent' due',
          Leads (collect spent' due' (Turn.said model (past ++ [chunk])) rest) v (done (.ok turn))) := by
  rw [collect_chunk] at h
  cases h with
  | wait h =>
    obtain ⟨⟨delivered, waited⟩, u, v, rfl, hu, hv⟩ := leads_bind_done h
    refine ⟨u, v, rfl, beside_handOut hu, ?_⟩
    cases delivered with
    | false => cases hv
    | true =>
      cases hdone : chunk.done with
      | true =>
        simp only [hdone, Bool.not_true, Bool.false_eq_true, if_false, if_true] at hv
        cases hv
        exact .inl ⟨rfl, rfl, rfl⟩
      | false =>
        simp only [hdone, Bool.not_true, Bool.false_eq_true, if_false] at hv
        exact .inr ⟨rfl, _, _, hv⟩

/-- A stream that is read to its proper end brings what its chunks bring. -/
private theorem leads_collect {spent due : Nat} {model : String} {past : List Chunk} {items : List (Nat × StreamItem)}
    {turn : Turn} (h : Leads (collect spent due (Turn.said model past) items) t (done (.ok turn))) :
    turn = Turn.said model (past ++ consumed items) ∧ fate items = .complete ∧ ∀ x ∈ t, x.1.isBeside = true := by
  induction items generalizing spent due past t with
  | nil =>
    cases h
    have hall : past ++ consumed [] = past := List.append_nil past
    exact ⟨by rw [hall], rfl, by simp⟩
  | cons first rest ih =>
    obtain ⟨gap, item⟩ := first
    cases item with
    | silence =>
      cases h with
      | wait h => cases h
    | failure e =>
      cases h with
      | wait h => cases h
    | chunk chunk =>
      obtain ⟨u, v, rfl, hbeside, ⟨hdone, rfl, rfl⟩ | ⟨hdone, spent', due', hv⟩⟩ := leads_collect_chunk h
      · have hall : consumed ((gap, .chunk chunk) :: rest) = [chunk] := by simp [consumed, hdone]
        have hfate : fate ((gap, .chunk chunk) :: rest) = .complete := by simp [fate, hdone]
        exact ⟨by rw [hall], hfate, by simpa using hbeside⟩
      · have hall : consumed ((gap, .chunk chunk) :: rest) = chunk :: consumed rest := by simp [consumed, hdone]
        have hfate : fate ((gap, .chunk chunk) :: rest) = fate rest := by simp [fate, hdone]
        obtain ⟨hturn, hcomplete, hrest⟩ := ih hv
        refine ⟨by rw [hturn, hall, List.append_assoc, List.singleton_append], hfate.trans hcomplete, fun x hx => ?_⟩
        rcases List.mem_append.1 hx with hx | hx
        · exact hbeside x hx
        · exact hrest x hx

/-! ### Turns -/

private theorem leads_attempt {r : Except ProviderError Reply} (h : Leads (attempt request) t (done r)) :
    ∃ answer, t = [⟨.ask request, answer⟩] ∧ answer.ending = .returns r := by
  obtain ⟨answer, u, v, rfl, hu, hv⟩ := leads_bind_done h
  cases hu with
  | act hu =>
    cases hu
    rw [react_eq] at hv
    cases hv with
    | wait hv =>
      cases he : answer.ending with
      | returns a =>
        rw [he] at hv
        cases hv
        exact ⟨answer, rfl, he⟩
      | faults message =>
        rw [he] at hv
        cases hv
      | hangs =>
        rw [he] at hv
        cases hv

theorem leads_record {e : Event} (h : Leads (l.record e) t (done ())) :
    t = if l.recordsEvents then [⟨.note (.event e), ()⟩] else [] := by
  unfold record at h
  split at h
  · rename_i hr
    rw [if_pos hr]
    cases h with
    | act h =>
      cases h
      rfl
  · rename_i hr
    rw [if_neg hr]
    cases h
    rfl

/-- An attempt sends its request and gets a reply if it succeeds. -/
private theorem heeds_ask (request : Request) {answer : Reaction (Except ProviderError Reply)}
    {r : Except ProviderError Reply}
    (he : answer.ending = .returns r) : Heeds [⟨.ask request, answer⟩] [request] r.toOption.toList [] := by
  refine ⟨rfl, ?_, rfl⟩
  cases r with
  | _ => simp [replies, Exchange.reply?, he, Except.toOption]

/-- After an attempt that failed there is either no other one, or what follows is for the error to say. -/
theorem judged_cases (again : ProviderError → RunProcess (Except RunError Reply)) (r : Except ProviderError Reply) :
    (∃ reply, r = .ok reply ∧ judged again r = pure (.ok reply)) ∨
      (∃ e failure, r = .error e ∧ judged again r = pure (.error failure)) ∨
        ∃ e, r = .error e ∧ judged again r = again e := by
  cases r with
  | ok reply => exact .inl ⟨reply, rfl, rfl⟩
  | error e =>
    by_cases hcancelled : e = .cancelled
    · subst hcancelled
      exact .inr (.inl ⟨_, _, rfl, rfl⟩)
    · have hjudged : judged again (.error e) = if e.isTransient then again e else pure (.error (.provider e)) := by
        cases e with
        | cancelled => exact absurd rfl hcancelled
        | _ => rfl
      by_cases htransient : e.isTransient = true
      · rw [if_pos htransient] at hjudged
        exact .inr (.inr ⟨e, rfl, hjudged⟩)
      · rw [if_neg htransient] at hjudged
        exact .inr (.inl ⟨e, _, rfl, hjudged⟩)

/-- The retry after so many attempts: its note, its delay and the attempts that are left. -/
def retry (l : Loop) (request : Request) (made left : Nat) (e : ProviderError) : RunProcess (Except RunError Reply) :=
  match l.policy.jitteredDelay? (.ofNat made) (l.draw made) with
  | none => .fault Retry.overflowText
  | some delay =>
    l.record (.retryScheduled (.ofNat (made + 1)) (.ofNat delay.milliseconds) e.message) >>= fun _ =>
      sleep delay.ticks >>= fun _ =>
        Retry.attemptsFrom l.policy l.draw l.record (fun _ => attempt request) (made + 1) left

theorem attemptsFrom_retry (l : Loop) (request : Request) (made left : Nat) :
    Retry.attemptsFrom l.policy l.draw l.record (fun _ => attempt request) made (left + 1) =
      attempt request >>= judged (l.retry request made left) := by
  rw [Retry.attemptsFrom]
  refine congrArg (attempt request >>= ·) (funext fun a => ?_)
  cases a with
  | ok => rfl
  | error e => cases e <;> rfl

private theorem heeds_record {e : Event} {u : RunTrace} (h : Leads (l.record e) u (done ()))
    (he : (Effect.note (.event e)).isBeside = true) : Heeds u [] [] [] := by
  have hu := leads_record h
  refine heeds_beside fun x hx => ?_
  split at hu
  · subst hu
    obtain rfl := List.mem_singleton.1 hx
    exact he
  · subst hu
    cases hx

/-- What follows an attempt that may pass another time: nothing if it was the last one, or else the retry. -/
def again (l : Loop) (request : Request) (made : Nat) : Nat → ProviderError → RunProcess (Except RunError Reply)
  | 0, e => pure (.error (.provider e))
  | left + 1, e => l.retry request made left e

theorem attemptsFrom_eq (l : Loop) (request : Request) (made left : Nat) :
    Retry.attemptsFrom l.policy l.draw l.record (fun _ => attempt request) made left =
      attempt request >>= judged (l.again request made left) := by
  cases left with
  | zero => exact attemptsFrom_zero l.policy made
  | succ left => exact attemptsFrom_retry l request made left

/-- A retry that returns has made the attempts that were left. -/
private theorem leads_retry {made left : Nat} {e : ProviderError} {r : Except RunError Reply}
    (h : Leads (l.retry request made left e) t (done r)) :
    ∃ u v, t = u ++ v ∧ Heeds u [] [] [] ∧
      Leads (Retry.attemptsFrom l.policy l.draw l.record (fun _ => attempt request) (made + 1) left) v (done r) := by
  unfold retry at h
  split at h
  · cases h
  · obtain ⟨_, u, v, rfl, hnote, hv⟩ := leads_bind_done h
    obtain ⟨_, v, w, rfl, hsleep, hrest⟩ := leads_bind_done hv
    have hslept : v = [] := by
      cases hsleep with
      | wait hsleep =>
        cases hsleep
        rfl
    exact ⟨u, w, by rw [hslept, List.nil_append], heeds_record hnote rfl, hrest⟩

/-- The first of the attempts that come to a reply has got it, or has failed and is made again. -/
private theorem leads_firstAttempt {made left : Nat} {reply : Reply}
    (h : Leads (Retry.attemptsFrom l.policy l.draw l.record (fun _ => attempt request) made left) t
      (done (.ok reply))) :
    Heeds t [request] [reply] [] ∨ ∃ e u v, t = u ++ v ∧ Heeds u [request] [] [] ∧
      Leads (l.again request made left e) v (done (.ok reply)) := by
  rw [attemptsFrom_eq] at h
  obtain ⟨r, u, v, rfl, hu, hv⟩ := leads_bind_done h
  obtain ⟨answer, rfl, he⟩ := leads_attempt hu
  have hsent := heeds_ask request he
  rcases judged_cases (l.again request made left) r with ⟨_, rfl, hj⟩ | ⟨_, _, rfl, hj⟩ | ⟨e, rfl, hj⟩
  · rw [hj] at hv
    cases hv
    exact .inl hsent
  · rw [hj] at hv
    cases hv
  · rw [hj] at hv
    exact .inr ⟨e, _, v, rfl, hsent, hv⟩

/-- The attempts that come to a reply: all of them are made at the request, and only the last one got a reply. -/
private theorem leads_attemptsFrom {made left : Nat} {reply : Reply}
    (h : Leads (Retry.attemptsFrom l.policy l.draw l.record (fun _ => attempt request) made left) t
      (done (.ok reply))) :
    ∃ failed ≤ left, Heeds t (List.replicate (failed + 1) request) [reply] [] := by
  induction left generalizing made t with
  | zero =>
    rcases leads_firstAttempt h with hsent | ⟨e, u, v, rfl, -, hv⟩
    · exact ⟨0, Nat.le_refl _, hsent⟩
    · cases hv
  | succ left ih =>
    rcases leads_firstAttempt h with hsent | ⟨e, u, v, rfl, hsent, hv⟩
    · exact ⟨0, Nat.zero_le _, hsent⟩
    · obtain ⟨v, w, rfl, hnoted, hw⟩ := leads_retry hv
      obtain ⟨failed, hle, hrest⟩ := ih hw
      exact ⟨failed + 1, Nat.succ_le_succ hle, hsent.append (hnoted.append hrest)⟩

/-- What is known of a turn that took place: its request, the attempts that were made at it, and the reply. -/
structure Took (l : Loop) (request : Request) (t : RunTrace) (attempts : Nat) (reply : Reply) : Prop where
  pos : 0 < attempts
  le : attempts ≤ l.policy.attempts
  heeds : Heeds t (List.replicate attempts request) [reply] []
  /-- The stream of the reply came to its proper end. -/
  complete : fate reply.items = .complete

/-- A turn that returns took place, and it brings what its reply says. -/
theorem took_of_leads {turn : Turn} (h : Leads (l.takeTurn request) t (done (.ok turn))) :
    ∃ attempts reply, l.Took request t attempts reply ∧ turn = reply.turn request := by
  obtain ⟨r, u, v, rfl, hu, hv⟩ := leads_bind_done h
  cases r with
  | error e => cases hv
  | ok reply =>
    have hpolicy := l.policy.attempts_pos
    obtain ⟨failed, hle, hsent⟩ := leads_attemptsFrom hu
    have took (hv : ∀ x ∈ v, x.1.isBeside = true) (hfate : fate reply.items = .complete) :
        l.Took request (u ++ v) (failed + 1) reply := by
      refine ⟨Nat.succ_pos _, by omega, ?_, hfate⟩
      simpa using hsent.append (heeds_beside hv)
    cases reply with
    | stream items =>
      have hread : Leads (collect 0 0 (Turn.said request.model []) items) v (done (.ok turn)) := by
        cases hv with
        | yield hv => exact hv
      obtain ⟨hturn, hfate, hbeside⟩ := leads_collect hread
      exact ⟨_, _, took hbeside hfate, hturn⟩
    | whole response =>
      have hfate : fate (Reply.whole response).items = .complete := rfl
      dsimp only at hv
      by_cases hstream : request.stream = true
      · rw [if_pos hstream] at hv
        have hread : Leads (collect 0 0 (Turn.said request.model []) (Reply.whole response).items) v (done (.ok turn)) := hv
        obtain ⟨hturn, -, hbeside⟩ := leads_collect hread
        refine ⟨_, _, took hbeside hfate, ?_⟩
        rw [hturn, Reply.turn, Reply.model, if_pos hstream]
        rfl
      · rw [if_neg hstream] at hv
        cases hv
        refine ⟨_, _, took (by simp) hfate, ?_⟩
        rw [Reply.turn, Reply.model, if_neg hstream, Reply.said_whole]

/-! ### Rounds -/

/-- The model has no part in a round. -/
theorem heeds_playRound {ledger : Ledger} {calls : List CallRequest} {r : Except RunError (List ToolResult × Ledger)}
    (h : Leads (l.playRound input ledger calls) t (done r)) : Heeds t [] [] [] := by
  refine heeds_beside fun x hx => ?_
  obtain ⟨u, v, rfl⟩ := List.append_of_mem hx
  have hkeeps : Keeps (l.roundContract (.any (l.workshop input)) (roundBound ledger calls)) _ []
      (l.playRound input ledger calls) := keeps_playRound
  have hallows := hkeeps.allows_of_leads h fun _ _ => trivial
  obtain ⟨e, answer⟩ := x
  cases e with
  | note entry =>
    obtain ⟨hcall, -⟩ := hallows
    cases entry with
    | event e =>
      cases e with
      | toolExecuted => rfl
      | _ => cases hcall
    | _ => rfl
  | _ => exact hallows.elim

end Loop

end AgentLoop
