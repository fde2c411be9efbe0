import AgentLoop.Proofs.Course
import AgentLoop.Proofs.Instant
import AgentLoop.Scripted.Provider

/-!
# Streaming agrees with plain execution

A provider that only completes hands a stream its whole response as one chunk.  Then a streamed run does what the
plain run does, at the same times and to the same end, and besides hands the texts of the responses to the consumer.
The two runs are played side by side: their scenes differ only in what does not matter, and the feed of the streamed
run lags behind by the texts of responses that have just arrived.
-/

namespace AgentLoop

open Process

/-! ### What does not matter -/

def Request.plain (request : Request) : Request := { request with stream := false }

/-- An event without the model it names. -/
def Event.plain : Event → Event
  | .responseGenerated _ tokensUsed durationMs timestamp => .responseGenerated "" tokensUsed durationMs timestamp
  | event => event

/-- An entry without the flag of its request, or without the model that its event names. -/
def Entry.plain : Entry → Entry
  | .asked request => .asked request.plain
  | .event e => .event e.plain
  | other => other

def World.plain (world : World) : World :=
  { world with
    journal := world.journal.map fun (time, entry) => (time, entry.plain)
    asked := world.asked.map Request.plain }

/-- A provider that has only whole responses, and for which it makes no difference whether it is called for a stream. -/
structure Provider.OnlyCompletes (provider : Provider) : Prop where
  whole {earlier : List Request} {request : Request} {reply : Reply}
    (h : (provider.reply earlier request).ending = .returns (.ok reply)) : ∃ response, reply = .whole response
  plain (earlier : List Request) (request : Request) :
    provider.reply (earlier.map Request.plain) request.plain = provider.reply earlier request

theorem Provider.OnlyCompletes.reply_eq {provider : Provider} (h : provider.OnlyCompletes) {earlier earlier' : List Request}
    {request request' : Request} (he : earlier.map Request.plain = earlier'.map Request.plain)
    (hr : request.plain = request'.plain) : provider.reply earlier request = provider.reply earlier' request' := by
  rw [← h.plain earlier, ← h.plain earlier', he, hr]

/-- A provider that plays a script without chunks only completes. -/
private theorem Scripted.ProviderScript.onlyCompletes {script : Scripted.ProviderScript} (h : script.chunked = false) :
    script.provider.OnlyCompletes where
  whole {earlier request reply} hr := by
    simp only [provider] at hr
    cases ha : (script.step earlier request.model).answer with
    | failure | hang => simp [ha, ending] at hr
    | reply response items => exact ⟨response, by simpa [ha, ending, h] using hr.symm⟩
  plain earlier request := by
    have hstep : script.step (earlier.map Request.plain) request.model = script.step earlier request.model := by
      simp only [step, List.countP_map]
      rfl
    simp only [provider]
    rw [show request.plain.model = request.model from rfl, hstep]
    cases (script.step earlier request.model).answer <;> simp [ending, h]

/-! ### Consumers that keep up -/

namespace Feed

variable {f : Feed} {now : Nat}

/-- The consumer stays, and the buffer takes everything or is read at once. -/
structure KeepsUp (f : Feed) (now : Nat) : Prop where
  stays : f.consumer.take = none
  ready : f.capacity = none ∨ f.consumer.pause = 0 ∧ f.start ≤ now ∧ ∀ time ∈ f.readAt, time ≤ now

theorem KeepsUp.room (h : f.KeepsUp now) : f.room now = .free := by
  unfold Feed.room dropsAt
  rw [h.stays]
  cases hc : f.capacity with
  | none => rfl
  | some n =>
    obtain hnone | ⟨-, -, hread⟩ := h.ready
    · cases hc.symm.trans hnone
    · dsimp only [Option.any_none]
      rw [if_neg Bool.false_ne_true]
      split
      · rfl
      · split
        · rfl
        · rename_i t ht
          exact if_pos (hread t (List.mem_of_getElem? ht))

theorem KeepsUp.later {later : Nat} (h : f.KeepsUp now) (hl : now ≤ later) : f.KeepsUp later where
  stays := h.stays
  ready := h.ready.imp_right fun ⟨hp, hs, hr⟩ => ⟨hp, Nat.le_trans hs hl, fun time ht => Nat.le_trans (hr time ht) hl⟩

theorem KeepsUp.put (h : f.KeepsUp now) (delta : String) : (f.put now delta).KeepsUp now where
  stays := h.stays
  ready := h.ready.imp_right fun ⟨hp, hs, hr⟩ => by
    refine ⟨hp, hs, fun time ht => ?_⟩
    rcases List.mem_append.1 ht with ht | ht
    · exact hr time ht
    · -- the delta is read as soon as the one before it, if there is one
      have hready : f.readyAt ≤ now := by
        unfold readyAt
        split
        · exact hs
        · rename_i t hlast
          have := hr t (List.mem_of_getLast? hlast)
          omega
      exact Nat.le_of_eq ((List.mem_singleton.1 ht).trans (Nat.max_eq_left hready))

end Feed

/-! ### Responses that arrive -/

/-- The texts of responses, without those that are empty. -/
def texts (responses : List Response) : List String := (responses.map (·.message.content)).filter (!·.isEmpty)

private theorem texts_append (responses more : List Response) :
    texts (responses ++ more) = texts responses ++ texts more := by
  simp [texts]

/-- What is at hand once so many ticks are over, unless the limit comes first. -/
def reached (limit : Option Nat) (now ticks : Nat) : Bool := ticks == 0 || !limit.any (· ≤ now + ticks)

def wholeResponse? : Ending (Except ProviderError Reply) → Option Response
  | .returns (.ok (.whole response)) => some response
  | _ => none

/-- The response that an exchange at this time leads to, if it arrives. -/
def Exchange.response? (limit : Option Nat) (now : Nat) : Exchange runEffects → Option Response
  | ⟨.ask _, answer⟩ => if reached limit now answer.after then wholeResponse? answer.ending else none
  | _ => none

namespace Process

variable {α β : Type} {provider : Provider} {limit : Option Nat}

/-- The responses that arrive in a play. -/
def responses (provider : Provider) (limit : Option Nat) : RunProcess α → Scene → List Response
  | done _, _ => []
  | act e next, s =>
    let (answer, after) := e.perform provider s
    (Exchange.response? limit s.world.now ⟨e, answer⟩).toList ++ responses provider limit (next answer) after
  | wait n next, s =>
    if n = 0 then responses provider limit next s
    else if limit.any (· ≤ s.world.now + n) then []
    else responses provider limit next (s.atTime (s.world.now + n))
  | yield next, s => if limit.any (· ≤ s.world.now) then [] else responses provider limit next s
  | fault _, _ => []
  | hang, _ => []

private theorem responses_bind (p : RunProcess α) (f : α → RunProcess β) (s : Scene) :
    (p >>= f).responses provider limit s = p.responses provider limit s ++
      match p.play provider limit s with
      | (.finished a, s) => (f a).responses provider limit s
      | _ => [] := by
  show (p.bind f).responses provider limit s = _
  induction p generalizing s with
  | done | fault | hang => rfl
  | act e next ih =>
    simp only [Process.bind, responses, play]
    rw [ih, List.append_assoc]
  | wait n next ih =>
    simp only [Process.bind, responses, play]
    split
    · exact ih _
    · split
      · rfl
      · exact ih _
  | yield next ih =>
    simp only [Process.bind, responses, play]
    split
    · rfl
    · exact ih _

theorem react_eq {S : Signature} (r : Reaction α) : react r = .wait r.after (r.ending.rest (S := S)) := by
  unfold react
  cases r.ending <;> rfl

private theorem play_react (r : Reaction α) (s : Scene) : (react r).play provider limit s =
    if reached limit s.world.now r.after then
      ((r.ending.rest (S := runEffects)).play provider limit (s.atTime (s.world.now + r.after)))
    else (.paused (s.world.now + r.after) r.ending.rest, s) := by
  rw [react_eq, play, reached]
  by_cases hr : r.after = 0
  · simp [hr, Scene.atTime]
  · by_cases hl : limit.any (· ≤ s.world.now + r.after) = true <;> simp [hr, hl]

private theorem responses_react (r : Reaction α) (s : Scene) : (react r).responses provider limit s = [] := by
  have hrest (s : Scene) : (r.ending.rest (S := runEffects)).responses provider limit s = [] := by
    cases r.ending <;> rfl
  rw [react_eq, responses, hrest, hrest]
  split <;> simp

end Process

/-! ### Side by side -/

/-- A plain run is in one scene and a streamed run in the other. -/
structure Scene.Beside (s t : Scene) : Prop where
  world : t.world.plain = s.world.plain
  feed : t.feed.KeepsUp t.world.now

private theorem Scene.Beside.now {s t : Scene} (h : s.Beside t) : t.world.now = s.world.now :=
  show t.world.plain.now = s.world.plain.now by rw [h.world]

private theorem Scene.Beside.atTime {s t : Scene} (h : s.Beside t) {time : Nat} (ht : s.world.now ≤ time) :
    (s.atTime time).Beside (t.atTime time) where
  world := congrArg (fun world : World => { world with now := time }) h.world
  feed := h.feed.later (h.now ▸ ht)

private theorem Scene.Beside.note {s t : Scene} (h : s.Beside t) {e e' : Entry} (he : e.plain = e'.plain) :
    (s.note e).Beside (t.note e') where
  world := by
    have hj := congrArg World.journal h.world
    have ha := congrArg World.asked h.world
    have ho := congrArg World.operations h.world
    have hs := congrArg World.store h.world
    simp only [World.plain] at hj ha ho hs
    simp [World.plain, Scene.note, hj, ha, ho, hs, h.now, he]
  feed := h.feed

/-- Two plays stop alike, with values that match. -/
def Stop.Matches {α β : Type} (R : α → β → Prop) : Stop α → Stop β → Prop
  | .finished a, .finished b => R a b
  | .broke message, .broke message' => message = message'
  | .paused due _, .paused due' _ => due = due'
  | .stuck, .stuck => True
  | _, _ => False

/-- What is still to be handed out where a play stops. -/
def Stop.owed {α : Type} (owes : α → List String) : Stop α → List String
  | .finished a => owes a
  | _ => []

/-- Played in scenes side by side, the processes stop alike in scenes side by side.  What the second one hands out in the
meantime is what was to be handed out before and the texts of the responses that arrive, up to what is still to be
handed out then. -/
def Beside {α β : Type} (provider : Provider) (limit : Option Nat) (debt : List String) (R : α → β → Prop)
    (owes : α → List String) (p : RunProcess α) (q : RunProcess β) : Prop :=
  ∀ s t : Scene, s.Beside t →
    (p.play provider limit s).1.Matches R (q.play provider limit t).1 ∧
      (p.play provider limit s).2.Beside (q.play provider limit t).2 ∧
      (q.play provider limit t).2.feed.deltas ++ (p.play provider limit s).1.owed owes =
        t.feed.deltas ++ debt ++ texts (p.responses provider limit s)

namespace Beside

variable {α β γ δ : Type} {provider : Provider} {limit : Option Nat} {debt : List String} {R : α → β → Prop}
  {owes : α → List String}

private theorem done {a : α} {b : β} (h : R a b) : Beside provider limit (owes a) R owes (.done a) (.done b) :=
  fun _ _ hst => ⟨h, hst, by simp [play, responses, Stop.owed, texts]⟩

private theorem bind {R' : γ → δ → Prop} {owes' : γ → List String} {p : RunProcess α} {q : RunProcess β}
    {f : α → RunProcess γ}
    {g : β → RunProcess δ} (h : Beside provider limit debt R owes p q)
    (hf : ∀ a b, R a b → Beside provider limit (owes a) R' owes' (f a) (g b)) :
    Beside provider limit debt R' owes' (p >>= f) (q >>= g) := by
  intro s t hst
  obtain ⟨hm, hb, hd⟩ := h s t hst
  rw [play_bind, play_bind, responses_bind]
  revert hm hb hd
  generalize p.play provider limit s = x, q.play provider limit t = y
  obtain ⟨stop, s'⟩ := x
  obtain ⟨stop', t'⟩ := y
  intro hm hb hd
  cases stop <;> cases stop' <;> try exact hm.elim
  case finished a b =>
    obtain ⟨hm', hb', hd'⟩ := hf a b hm s' t' hb
    refine ⟨hm', hb', ?_⟩
    rw [hd', texts_append, ← List.append_assoc, ← hd]
    rfl
  case broke | paused | stuck => exact ⟨hm, hb, by simpa [Stop.owed] using hd⟩

/-- Nothing but notes. -/
def noteContract : Contract runEffects := .ofAllows fun _ effect => ∃ entry, effect = .note entry

/-- A process that only takes notes does the same in both scenes. -/
private theorem of_notes {p : RunProcess α} {post : RunTrace → α → Prop} {u : RunTrace}
    (h : Keeps noteContract post u p) :
    Beside provider limit [] Eq (fun _ => []) p p := by
  induction p generalizing u with
  | done a => exact Beside.done rfl
  | fault message => exact fun s t hst => ⟨rfl, hst, by simp [play, responses, Stop.owed, texts]⟩
  | hang => exact fun s t hst => ⟨trivial, hst, by simp [play, responses, Stop.owed, texts]⟩
  | act e next ih =>
    obtain ⟨⟨entry, rfl⟩, hnext⟩ := h
    exact fun s t hst => ih () (hnext () trivial) _ _ (hst.note rfl)
  | wait n next ih =>
    intro s t hst
    have hn := hst.now
    unfold play responses
    split
    · exact ih h s t hst
    · dsimp only
      rw [hn]
      split
      · exact ⟨rfl, hst, by simp [Stop.owed, texts]⟩
      · exact ih h _ _ (hst.atTime (Nat.le_add_right ..))
  | yield next ih =>
    intro s t hst
    have hn := hst.now
    unfold play responses
    rw [hn]
    split
    · exact ⟨rfl, hst, by simp [Stop.owed, texts]⟩
    · exact ih h s t hst

private theorem pure {a : α} {b : β} (h : R a b) (hd : owes a = debt) :
    Beside provider limit debt R owes (pure a) (pure b) :=
  hd ▸ Beside.done h

private theorem note {e e' : Entry} (he : e.plain = e'.plain) :
    Beside provider limit [] Eq (fun _ => []) (RunProcess.note e) (RunProcess.note e') :=
  fun _ _ hst => ⟨rfl, hst.note he, by simp [RunProcess.note, ask, play, responses, Exchange.response?, Effect.perform,
    Scene.note, Stop.owed, texts]⟩

private theorem sleep (ticks : Nat) :
    Beside provider limit [] Eq (fun _ => []) (Process.sleep ticks) (Process.sleep ticks) :=
  have h : Keeps noteContract (fun _ _ => True) [] (Process.sleep ticks) := trivial
  of_notes h

end Beside

namespace Loop

variable {l : Loop} {draw : Nat → UInt64} {provider : Provider} {limit : Option Nat} {request request' : Request}

/-- The loop without a consumer, -/
def plain (l : Loop) : Loop := { l with streams := false }

/-- and with one; the delays of its retries may be spread by other random words. -/
def streaming (l : Loop) (draw : Nat → UInt64) : Loop := { l with streams := true, draw }

/-- What is to be handed out of an answer. -/
def due {ε : Type} : Except ε Reply → List String
  | .ok (.whole response) => texts [response]
  | _ => []

/-- Both have the same answer, and it is no stream. -/
def SameAnswer {ε : Type} (a b : Except ε Reply) : Prop :=
  a = b ∧ ∀ reply, a = .ok reply → ∃ response, reply = .whole response

/-- After both have asked, the answer arrives for both at the same time, or for neither. -/
private theorem beside_react (provider : Provider) (limit : Option Nat) (request : Request)
    {answer : Reaction (Except ProviderError Reply)} {s t : Scene}
    (hw : ∀ reply, answer.ending = .returns (.ok reply) → ∃ response, reply = .whole response) (hst : s.Beside t) :
    ((react answer).play provider limit s).1.Matches SameAnswer ((react answer).play provider limit t).1 ∧
      ((react answer).play provider limit s).2.Beside ((react answer).play provider limit t).2 ∧
      ((react answer).play provider limit t).2.feed.deltas ++ ((react answer).play provider limit s).1.owed due =
        t.feed.deltas ++ texts (Exchange.response? limit s.world.now ⟨.ask request, answer⟩).toList := by
  obtain ⟨after, ending⟩ := answer
  rw [play_react, play_react, hst.now, Exchange.response?]
  by_cases hreached : reached limit s.world.now after = true
  · have hlater := hst.atTime (Nat.le_add_right s.world.now after)
    rw [if_pos hreached, if_pos hreached, if_pos hreached]
    cases ending with
    | faults message => exact ⟨rfl, hlater, rfl⟩
    | hangs => exact ⟨trivial, hlater, rfl⟩
    | returns a =>
      refine ⟨⟨rfl, fun reply ha => hw reply (congrArg _ ha)⟩, hlater, ?_⟩
      cases a with
      | error => rfl
      | ok reply =>
        obtain ⟨response, rfl⟩ := hw reply rfl
        rfl
  · rw [if_neg hreached, if_neg hreached, if_neg hreached]
    exact ⟨rfl, hst, rfl⟩

private theorem beside_ask (provider : Provider) {s t : Scene} (hst : s.Beside t)
    (hr : request.plain = request'.plain) :
    (Effect.perform provider (.ask request) s).2.Beside (Effect.perform provider (.ask request') t).2 where
  world := by
    have he : (Entry.asked request).plain = (Entry.asked request').plain := congrArg Entry.asked hr
    have hnote := (hst.note he).world
    have h := congrArg (fun world : World => { world with asked := world.asked ++ [request.plain] }) hnote
    simpa [World.plain, Scene.note, Effect.perform, hr] using h
  feed := hst.feed

private theorem beside_attempt (hp : provider.OnlyCompletes) (hr : request.plain = request'.plain) :
    Beside provider limit [] SameAnswer due (attempt request) (attempt request') := by
  intro s t hst
  have hasked : s.world.asked.map Request.plain = t.world.asked.map Request.plain :=
    show s.world.plain.asked = t.world.plain.asked by rw [hst.world]
  have hreply := hp.reply_eq hasked hr
  obtain ⟨hm, hb, hd⟩ := beside_react provider limit request
    (fun reply (h : (provider.reply s.world.asked request).ending = _) => hp.whole h) (beside_ask provider hst hr)
  have hresponses : (attempt request).responses provider limit s =
      (Exchange.response? limit s.world.now ⟨.ask request, provider.reply s.world.asked request⟩).toList ++
        (react (provider.reply s.world.asked request)).responses provider limit
          (Effect.perform provider (.ask request) s).2 := rfl
  have hplay : (attempt request').play provider limit t =
      (react (provider.reply s.world.asked request)).play provider limit (Effect.perform provider (.ask request') t).2 := by
    rw [hreply]
    rfl
  rw [hplay, hresponses, responses_react, List.append_nil, List.append_nil]
  exact ⟨hm, hb, hd⟩

theorem notes_record (event : Event) (t : RunTrace) :
    Keeps Beside.noteContract (fun _ _ => True) t (l.record event) := by
  unfold record
  split
  · exact ⟨⟨_, rfl⟩, fun _ _ => trivial⟩
  · trivial

/-- What comes of an attempt, if another one is made after a failure that may pass. -/
def judged (again : ProviderError → RunProcess (Except RunError Reply)) :
    Except ProviderError Reply → RunProcess (Except RunError Reply)
  | .ok value => pure (.ok value)
  | .error .cancelled => pure (.error .cancelled)
  | .error e => if e.isTransient then again e else pure (.error (.provider e))

theorem attemptsFrom_zero (policy : RetryPolicy) (made : Nat) :
    Retry.attemptsFrom policy draw l.record (fun _ => attempt request) made 0 =
      attempt request >>= judged fun e => pure (.error (.provider e)) := by
  unfold Retry.attemptsFrom
  refine congrArg (attempt request >>= ·) (funext fun a => ?_)
  cases a with
  | ok => rfl
  | error e => cases e <;> rfl

private theorem attemptsFrom_succ (hj : l.policy.effectiveJitter = 0) (made left : Nat) :
    Retry.attemptsFrom l.policy draw l.record (fun _ => attempt request) made (left + 1) =
      attempt request >>= judged fun e =>
        let delay := l.policy.baseDelay (.ofNat made)
        l.record (.retryScheduled (.ofNat (made + 1)) (.ofNat delay.milliseconds) e.message) >>= fun _ =>
          sleep delay.ticks >>= fun _ =>
            Retry.attemptsFrom l.policy draw l.record (fun _ => attempt request) (made + 1) left := by
  have hdelay : l.policy.jitteredDelay? (.ofNat made) (draw made) = some (l.policy.baseDelay (.ofNat made)) := if_pos hj
  rw [Retry.attemptsFrom, hdelay]
  refine congrArg (attempt request >>= ·) (funext fun a => ?_)
  cases a with
  | ok => rfl
  | error e => cases e <;> rfl

/-- What comes of the same answer is the same, if that is so for another attempt. -/
private theorem beside_judged {a b : Except ProviderError Reply}
    {again again' : ProviderError → RunProcess (Except RunError Reply)}
    (hab : SameAnswer a b) (hagain : ∀ e, Beside provider limit [] SameAnswer due (again e) (again' e)) :
    Beside provider limit (due a) SameAnswer due (judged again a) (judged again' b) := by
  obtain ⟨rfl, hwhole⟩ := hab
  have failed (e : RunError) : Beside provider limit [] SameAnswer due
      (pure (.error e) : RunProcess (Except RunError Reply)) (pure (.error e)) :=
    .pure ⟨rfl, fun _ h => nomatch h⟩ rfl
  unfold judged
  split
  · obtain ⟨response, rfl⟩ := hwhole _ rfl
    exact .pure ⟨rfl, fun other ho => ⟨response, (Except.ok.inj ho).symm⟩⟩ rfl
  · exact failed _
  · split
    · exact hagain _
    · exact failed _

private theorem beside_attemptsFrom (hp : provider.OnlyCompletes) (hj : l.policy.effectiveJitter = 0)
    (hr : request.plain = request'.plain) (made left : Nat) :
    Beside provider limit [] SameAnswer due
      (Retry.attemptsFrom l.policy l.draw l.record (fun _ => attempt request) made left)
      (Retry.attemptsFrom l.policy draw l.record (fun _ => attempt request') made left) := by
  induction left generalizing made with
  | zero =>
    rw [attemptsFrom_zero, attemptsFrom_zero]
    refine (beside_attempt hp hr).bind fun a b hab => beside_judged hab fun e => ?_
    exact .pure ⟨rfl, fun _ h => nomatch h⟩ rfl
  | succ left ih =>
    rw [attemptsFrom_succ hj, attemptsFrom_succ hj]
    refine (beside_attempt hp hr).bind fun a b hab => beside_judged hab fun e => ?_
    refine (Beside.of_notes (notes_record _ [])).bind fun _ _ _ => ?_
    exact (Beside.sleep _).bind fun _ _ _ => ih _

/-- The same turn, but perhaps another name of the model. -/
def SameTurn (a b : Except RunError Turn) : Prop :=
  match a, b with
  | .ok turn, .ok turn' => ∃ model, turn' = { turn with model }
  | .error e, .error e' => e = e'
  | _, _ => False

/-- A response in one chunk. -/
def chunkOf (response : Response) : Chunk :=
  { content := some response.message.content, calls := response.message.calls, done := true, usage := response.usage }

private theorem collect_chunkOf (response : Response) (model : String) :
    collect 0 0 ⟨"", [], none, model⟩ [(0, .chunk (chunkOf response))] =
      .wait 0 ((if response.message.content.isEmpty then pure (true, 0) else deliver response.message.content) >>=
        fun (delivered, _) =>
          if !delivered then pure (.error .cancelled)
          else pure (.ok ⟨response.message.content, response.message.calls, response.usage, model⟩)) := by
  simp only [collect, chunkOf]
  by_cases hempty : response.message.content.isEmpty = true <;> simp [hempty]

private theorem play_deliver {t : Scene} (h : t.feed.KeepsUp t.world.now) (delta : String) :
    (deliver delta).play provider limit t =
      (.finished (true, 0), { t with feed := t.feed.put t.world.now delta }) := by
  have hroom : RunProcess.room.play provider limit t = (.finished .free, t) := by
    rw [← h.room]
    rfl
  rw [deliver, play_bind, hroom]
  rfl

/-- The one chunk of a response is handed out at once. -/
private theorem beside_collect (response : Response) (model : String) :
    Beside provider limit (texts [response]) SameTurn (fun _ => [])
      (pure (.ok ⟨response.message.content, response.message.calls, response.usage, response.model⟩))
      (collect 0 0 ⟨"", [], none, model⟩ [(0, .chunk (chunkOf response))]) := by
  intro s t hst
  rw [collect_chunkOf]
  by_cases hempty : response.message.content.isEmpty = true
  · rw [if_pos hempty]
    exact ⟨⟨model, rfl⟩, hst, by simp [texts, hempty]; rfl⟩
  · rw [if_neg hempty]
    have hplay : ((deliver response.message.content >>= fun (delivered, _) =>
        if !delivered then pure (.error .cancelled)
        else pure (.ok ⟨response.message.content, response.message.calls, response.usage, model⟩) :
          RunProcess (Except RunError Turn))).play provider limit t =
        (.finished (.ok ⟨response.message.content, response.message.calls, response.usage, model⟩),
          { t with feed := t.feed.put t.world.now response.message.content }) := by
      rw [play_bind, play_deliver hst.feed]
      rfl
    rw [play, if_pos rfl, hplay]
    refine ⟨⟨model, rfl⟩, ⟨hst.world, hst.feed.put _⟩, ?_⟩
    have hempty : response.message.content.isEmpty = false := by simpa using hempty
    have htexts : texts [response] = [response.message.content] := by simp [texts, hempty]
    rw [htexts]
    show t.feed.deltas ++ [response.message.content] ++ [] = _ ++ texts []
    rfl

private theorem beside_takeTurn (hp : provider.OnlyCompletes) (hj : l.policy.effectiveJitter = 0)
    (hs : request.stream = false) (hs' : request'.stream = true) (hr : request.plain = request'.plain) :
    Beside provider limit [] SameTurn (fun _ => []) (l.plain.takeTurn request) ((l.streaming draw).takeTurn request') := by
  refine (beside_attemptsFrom hp hj hr 0 _).bind fun a b hab => ?_
  obtain ⟨rfl, hwhole⟩ := hab
  cases a with
  | error e => exact .pure rfl rfl
  | ok reply =>
    obtain ⟨response, rfl⟩ := hwhole reply rfl
    dsimp only
    rw [if_neg (by simp [hs]), if_pos hs']
    exact beside_collect response request'.model

theorem notes_playRound (input : LoopInput) (ledger : Ledger) (calls : List CallRequest) :
    Keeps Beside.noteContract (fun _ _ => True) [] (l.playRound input ledger calls) := by
  refine (keeps_playRound (σ := .any _)).mono (fun u e he => ?_) (fun _ _ => id) (fun _ => trivial) fun _ _ _ => trivial
  cases e with
  | note entry => exact ⟨entry, rfl⟩
  | _ => exact he.elim

private theorem beside_record {e e' : Event} (he : e.plain = e'.plain) :
    Beside provider limit [] Eq (fun _ => []) (l.plain.record e) ((l.streaming draw).record e') := by
  show Beside provider limit [] Eq (fun _ => []) (if l.recordsEvents then _ else _) (if l.recordsEvents then _ else _)
  split
  · exact .note (congrArg Entry.event he)
  · exact .pure rfl rfl

private theorem beside_turns (hp : provider.OnlyCompletes) (hj : l.policy.effectiveJitter = 0) (input : LoopInput)
    (k : Nat)
    (s : State) :
    Beside provider limit [] Eq (fun _ => []) (l.plain.turns input k s) ((l.streaming draw).turns input k s) := by
  induction k using Nat.strongRecOn generalizing s with
  | ind k ih =>
    rw [turns_eq, turns_eq]
    dsimp only
    refine (beside_takeTurn hp hj (by rfl) (by rfl) (by rfl)).bind fun a b hab => ?_
    cases a with
    | error e =>
      cases b with
      | error e' => exact .pure (congrArg _ hab) rfl
      | ok => exact hab.elim
    | ok turn =>
      cases b with
      | error => exact hab.elim
      | ok turn' =>
        obtain ⟨model, rfl⟩ := hab
        refine (beside_record (by rfl)).bind fun _ _ _ => ?_
        by_cases hcalls : (k != 0 && !input.tools.isEmpty && !s.ledger.limitReached && !turn.calls.isEmpty) = true
        · rw [if_pos hcalls, if_pos hcalls]
          refine (Beside.of_notes (notes_playRound input s.ledger turn.calls)).bind fun r r' hr => ?_
          obtain rfl := hr
          cases r with
          | error e => exact .pure rfl rfl
          | ok round =>
            have hk : k ≠ 0 := by
              rintro rfl
              cases hcalls
            exact ih (k - 1) (by omega) _
        · rw [if_neg hcalls, if_neg hcalls]
          exact .pure rfl rfl

/-! ### Runs by themselves -/

/-- The responses that arrive in a plain run by itself, each of which completes a turn. -/
def arrived (l : Loop) (provider : Provider) (cancelAt : Option Nat) (input : LoopInput) (scene : Scene) : List Response :=
  if cancelAt = some 0 then [] else (l.plain.run input).responses provider cancelAt scene

/-- What a streamed run by itself has to do with the plain one. -/
structure Agrees (l : Loop) (draw : Nat → UInt64) (provider : Provider) (cancelAt : Option Nat) (input : LoopInput)
    (scene : Scene) : Prop where
  /-- It comes to the same end. -/
  ending : ((l.streaming draw).perform provider cancelAt input scene).1 =
    (l.plain.perform provider cancelAt input scene).1
  /-- Its journal has the same entries at the same times, apart from the flags of the requests and the models that the
  events name; it is over at the same time and leaves the same store. -/
  world : ((l.streaming draw).perform provider cancelAt input scene).2.world.plain =
    (l.plain.perform provider cancelAt input scene).2.world.plain
  /-- It hands out the texts of the responses, in their order. -/
  deltas : ((l.streaming draw).perform provider cancelAt input scene).2.feed.deltas =
    scene.feed.deltas ++ texts (l.arrived provider cancelAt input scene)

/-- What a run by itself comes to where its play stops. -/
def concluded (cancelAt : Option Nat) :
    Stop (Except RunError Outcome) × Scene → Ending (Except RunError Outcome) × Scene
  | (.finished outcome, s) => (.returns outcome, s)
  | (.broke message, s) => (.faults message, s)
  | (.paused .., s) | (.stuck, s) =>
    match cancelAt with
    | some t => (.returns (.error .cancelled), s.atTime t)
    | none => (.hangs, s)

theorem perform_eq (l : Loop) (provider : Provider) {cancelAt : Option Nat} (hc : cancelAt ≠ some 0) (input : LoopInput)
    (scene : Scene) : l.perform provider cancelAt input scene =
      concluded cancelAt ((l.run input).play provider cancelAt scene) := by
  unfold perform
  rw [if_neg hc]
  generalize (l.run input).play provider cancelAt scene = x
  obtain ⟨stop, s⟩ := x
  cases stop <;> rfl

private theorem beside_concluded (cancelAt : Option Nat) {x y : Stop (Except RunError Outcome) × Scene}
    (hm : x.1.Matches Eq y.1) (hb : x.2.Beside y.2) :
    (concluded cancelAt y).1 = (concluded cancelAt x).1 ∧
      (concluded cancelAt y).2.world.plain = (concluded cancelAt x).2.world.plain ∧
      (concluded cancelAt y).2.feed = y.2.feed := by
  obtain ⟨stop, s⟩ := x
  obtain ⟨stop', t⟩ := y
  cases stop <;> cases stop' <;> try exact hm.elim
  case finished => exact ⟨congrArg Ending.returns hm.symm, hb.world, rfl⟩
  case broke => exact ⟨congrArg Ending.faults hm.symm, hb.world, rfl⟩
  case paused | stuck =>
    cases cancelAt with
    | none => exact ⟨rfl, hb.world, rfl⟩
    | some time => exact ⟨rfl, congrArg (fun world : World => { world with now := time }) hb.world, rfl⟩

/-- With a provider that only completes and a consumer that keeps up, streaming makes no difference but that the texts
are handed out. -/
theorem perform_streaming (hp : provider.OnlyCompletes) (hj : l.policy.effectiveJitter = 0) {scene : Scene}
    (hf : scene.feed.KeepsUp scene.world.now) (draw : Nat → UInt64) (cancelAt : Option Nat) (input : LoopInput) :
    l.Agrees draw provider cancelAt input scene := by
  by_cases hc : cancelAt = some 0
  · subst hc
    exact ⟨rfl, rfl, (List.append_nil _).symm⟩
  · have hrun : Beside provider cancelAt [] Eq (fun _ => []) (l.plain.run input) ((l.streaming draw).run input) :=
      beside_turns hp hj input _ _
    obtain ⟨hm, hb, hd⟩ := hrun scene scene ⟨rfl, hf⟩
    have howed : ((l.plain.run input).play provider cancelAt scene).1.owed (fun _ => []) = [] := by
      unfold Stop.owed
      split <;> rfl
    rw [howed, List.append_nil, List.append_nil] at hd
    obtain ⟨hending, hworld, hfeed⟩ := beside_concluded cancelAt hm hb
    constructor
    · rw [perform_eq _ _ hc, perform_eq _ _ hc, hending]
    · rw [perform_eq _ _ hc, perform_eq _ _ hc, hworld]
    · rw [perform_eq _ _ hc, hfeed, hd, arrived, if_neg hc]

/-- A model that fails once and then answers. -/
def faltering : Scripted.ProviderScript where
  shared := [⟨1, .failure (.network "reset")⟩, ⟨1, .reply ⟨.ofAssistant "noon", none, "m"⟩ []⟩]

def watcher : Loop where
  settings := { model := "m", temperature := .finite false 0 0, maxToolCalls := 5 }
  window := ⟨1000, 10⟩
  policy := { jitter := .finite false 0 0 }

def question : LoopInput where
  system := "s"
  user := .ofUser "what time is it?"
  context := ⟨"what time is it?", []⟩

/-- A consumer who reads at once from a buffer for one delta. -/
def listener : Scene where
  feed := { capacity := some 1 }

theorem perform_streaming_faltering : faltering.provider.OnlyCompletes ∧ watcher.policy.effectiveJitter = 0 ∧
    listener.feed.KeepsUp listener.world.now ∧
    watcher.Agrees (fun _ => 7) faltering.provider none question listener ∧
    ((watcher.streaming fun _ => 7).perform faltering.provider none question listener).2.feed.deltas = ["noon"] := by
  have hp : faltering.provider.OnlyCompletes := Scripted.ProviderScript.onlyCompletes rfl
  have hj : watcher.policy.effectiveJitter = 0 := by decide +kernel
  have hf : listener.feed.KeepsUp listener.world.now := ⟨rfl, .inr ⟨rfl, Nat.le_refl _, by simp [listener]⟩⟩
  exact ⟨hp, hj, hf, perform_streaming hp hj hf _ none question, by decide +kernel⟩

end Loop

end AgentLoop
