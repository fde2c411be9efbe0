import AgentLoop.Proofs.Alongside
import AgentLoop.Proofs.ReadThrough
import AgentLoop.Proofs.Timelines

/-!
# Chunking is invisible

A turn can be split into chunks in many ways: its text, its calls and its usage may come in one piece or in several,
and whatever comes after a last chunk is not read.  A streamed run does the same in all of them, and hands out the same
text, if in other pieces.  If chunks and consumer take no time, the runs do so at the same times.  A response that is
given as a whole is one of the ways, so a provider with chunks can stand in for one that only completes.
-/

namespace AgentLoop

open Process StreamItem

/-! ### Ways to split a reply -/

namespace StreamItem

/-- The stream without what is not read: all after a last chunk, or after what reading does not get past. -/
def curtailed : List (Nat × StreamItem) → List (Nat × StreamItem)
  | (gap, .chunk c) :: rest => (gap, .chunk c) :: if c.done then [] else curtailed rest
  | first :: _ => [first]
  | [] => []

end StreamItem

namespace Reply

/-- Replies that say the same and end alike, whatever the chunks that they come in. -/
structure Resplit (r r' : Reply) : Prop where
  fate : fate r.items = fate r'.items
  text : r.text = r'.text
  calls : r.calls = r'.calls
  usage : r.usage = r'.usage

instance (r r' : Reply) : Decidable (r.Resplit r') :=
  decidable_of_iff (fate r.items = fate r'.items ∧ r.text = r'.text ∧ r.calls = r'.calls ∧ r.usage = r'.usage)
    ⟨fun ⟨hf, ht, hc, hu⟩ => ⟨hf, ht, hc, hu⟩, fun ⟨hf, ht, hc, hu⟩ => ⟨hf, ht, hc, hu⟩⟩

private theorem Resplit.said {r r' : Reply} (h : r.Resplit r') (model : String) :
    Turn.said model (consumed r'.items) = Turn.said model (consumed r.items) := by
  have htext : String.join (contents (consumed r'.items)) = String.join (contents (consumed r.items)) := h.text.symm
  have hcalls : (consumed r'.items).flatMap (·.calls) = (consumed r.items).flatMap (·.calls) := h.calls.symm
  have husage : ((consumed r'.items).filterMap (·.usage)).getLast? = ((consumed r.items).filterMap (·.usage)).getLast? :=
    h.usage.symm
  rw [Turn.said, Turn.said, htext, hcalls, husage]

def curtailed : Reply → Reply
  | .whole response => .whole response
  | .stream items => .stream (StreamItem.curtailed items)

end Reply

namespace Provider

/-- Asked for a stream, both give replies that say the same, or fail alike. -/
def Resplits (p q : Provider) : Prop :=
  ∀ earlier request, request.stream = true →
    (p.reply earlier request).Matches (Agree Reply.Resplit) (q.reply earlier request)

/-- What arrives on a stream is all there at once. -/
def Prompt (p : Provider) : Prop :=
  ∀ earlier request items, (p.reply earlier request).ending = .returns (.ok (.stream items)) → ∀ x ∈ items, x.1 = 0

/-- The provider without what is not read of its streams. -/
def curtailed (p : Provider) : Provider where
  reply earlier request :=
    let r := p.reply earlier request
    ⟨r.after, r.ending.map (Except.map Reply.curtailed)⟩

end Provider

/-! ### What is seen of the world -/

/-- The world without its times. -/
def World.timeless (world : World) : World :=
  { world with now := 0, journal := world.journal.map fun (_, entry) => (0, entry) }

def Request.seen (flags : Bool) (request : Request) : Request := if flags then request else request.plain

def Entry.seen (flags : Bool) (entry : Entry) : Entry := if flags then entry else entry.plain

@[simp] theorem Request.seen_true : Request.seen true = id := rfl

@[simp] theorem Request.seen_false : Request.seen false = Request.plain := rfl

@[simp] theorem Entry.seen_true (entry : Entry) : entry.seen true = entry := rfl

@[simp] theorem Entry.seen_false (entry : Entry) : entry.seen false = entry.plain := rfl

/-- The world with its times or without them, and with the flags of requests and the models that events name or
without those. -/
def World.seen (times flags : Bool) (world : World) : World where
  now := if times then world.now else 0
  journal := world.journal.map fun (time, entry) => (if times then time else 0, entry.seen flags)
  asked := world.asked.map (Request.seen flags)
  operations := world.operations
  store := world.store

namespace World

variable {times flags : Bool} {world world' : World}

private theorem seen_all (world : World) : world.seen true true = world := by
  simp [seen]

private theorem seen_untimed (world : World) : world.seen false true = world.timeless := by
  simp [seen, timeless]

private theorem seen_plain (world : World) : world.seen false false = world.plain.timeless := by
  simp [seen, timeless, plain]

/-- Less is seen of the same. -/
private theorem untimed_of_seen (h : world'.seen true flags = world.seen true flags) :
    world'.seen false flags = world.seen false flags := by
  have htimeless (world : World) : world.seen false flags = (world.seen true flags).timeless := by
    simp [seen, timeless]
  rw [htimeless, htimeless, h]

private theorem now_of_seen (h : world'.seen times flags = world.seen times flags) (ht : times = true) :
    world'.now = world.now := by
  have hnow := congrArg World.now h
  simpa [seen, ht] using hnow

private theorem asked_of_seen (h : world'.seen times flags = world.seen times flags) :
    world'.asked.map (Request.seen flags) = world.asked.map (Request.seen flags) :=
  congrArg World.asked h

/-- Where no times are seen, the clock is not. -/
private theorem seen_atTime (h : world'.seen times flags = world.seen times flags) {time time' : Nat}
    (ht : times = true → time' = time) :
    ({ world' with now := time' } : World).seen times flags = ({ world with now := time } : World).seen times flags := by
  show ({ world'.seen times flags with now := if times then time' else 0 } : World) =
    { world.seen times flags with now := if times then time else 0 }
  rw [h]
  cases times with
  | false => rfl
  | true => rw [ht rfl]

private theorem seen_note (scene : Scene) (entry : Entry) :
    (scene.note entry).world.seen times flags =
      { scene.world.seen times flags with
        journal := (scene.world.seen times flags).journal ++ [((scene.world.seen times flags).now, entry.seen flags)] } := by
  simp [seen, Scene.note]

end World

/-! ### Two streamed runs, or one and a plain one -/

/-- The same is seen of both worlds, and the same text has been handed out if both runs are streamed. -/
structure Scene.LooksLike (times flags : Bool) (s t : Scene) : Prop where
  world : t.world.seen times flags = s.world.seen times flags
  text (h : flags = true) : String.join t.feed.deltas = String.join s.feed.deltas

/-- Moreover no consumer leaves, and if times matter nothing keeps the runs waiting. -/
structure Scene.Abreast (times flags : Bool) (limit : Option Nat) (s t : Scene) : Prop
    extends s.LooksLike times flags t where
  stays : s.feed.consumer.take = none
  stays' : t.feed.consumer.take = none
  inTime (h : times = true) : s.InTime limit
  inTime' (h : times = true) : t.InTime limit

namespace Scene

variable {times flags : Bool} {limit : Option Nat} {s t s' t' : Scene} {more more' : List String}

private theorem HandsOut.seen (h : s.HandsOut times limit more s') :
    s'.world.seen times flags = s.world.seen times flags := by
  rw [h.world]
  exact World.seen_atTime rfl fun ht => (h.atOnce ht).1

private theorem InTime.later (h : s.InTime limit) {ticks : Nat} (hl : limit.any (· ≤ s.world.now + ticks) = false) :
    (s.atTime (s.world.now + ticks)).InTime limit :=
  ⟨h.feed.later (Nat.le_add_right ..), hl⟩

private theorem Abreast.now (h : s.Abreast times flags limit t) (ht : times = true) : t.world.now = s.world.now :=
  World.now_of_seen h.world ht

private theorem Abreast.note (h : s.Abreast times flags limit t) {e e' : Entry} (he : e.seen flags = e'.seen flags) :
    (s.note e).Abreast times flags limit (t.note e') where
  world := by rw [World.seen_note, World.seen_note, h.world, he]
  stays := h.stays
  stays' := h.stays'
  text := h.text
  inTime ht := ⟨(h.inTime ht).feed, (h.inTime ht).before⟩
  inTime' ht := ⟨(h.inTime' ht).feed, (h.inTime' ht).before⟩

/-- Where times are not seen, there must be no limit. -/
private theorem lasts_abreast (hlimit : times = true ∨ limit = none) : Lasts limit (Abreast times flags limit) where
  clock h := hlimit.symm.imp_right h.now
  later {s t} h ticks hl :=
    { world := World.seen_atTime h.world fun ht => by rw [h.now ht]
      stays := h.stays
      stays' := h.stays'
      text := h.text
      inTime ht := (h.inTime ht).later hl
      inTime' ht := (h.inTime' ht).later (h.now ht ▸ hl) }
  note h e := h.note rfl

/-- Both ask for the same, one of them perhaps without a stream. -/
private theorem Abreast.ask (h : s.Abreast times flags limit t) (p q : Provider) {request request' : Request}
    (hr : request'.seen flags = request.seen flags) :
    (Effect.perform p (.ask request) s).2.Abreast times flags limit (Effect.perform q (.ask request') t).2 where
  world := by
    have hentry : (Entry.asked request).seen flags = (Entry.asked request').seen flags := by
      cases flags with
      | false => exact congrArg Entry.asked hr.symm
      | true => exact congrArg Entry.asked hr.symm
    have hnote := (h.note hentry).world
    have hasked := congrArg (fun world : World => { world with asked := world.asked ++ [request.seen flags] }) hnote
    simpa [World.seen, Scene.note, Effect.perform, hr] using hasked
  stays := h.stays
  stays' := h.stays'
  text := h.text
  inTime ht := ⟨(h.inTime ht).feed, (h.inTime ht).before⟩
  inTime' ht := ⟨(h.inTime' ht).feed, (h.inTime' ht).before⟩

/-- Both hand out the same text. -/
private theorem Abreast.handOut (h : s.Abreast times true limit t) (hs : s.HandsOut times limit more s')
    (ht : t.HandsOut times limit more' t') (htext : String.join more' = String.join more) :
    s'.Abreast times true limit t' where
  world := by rw [hs.seen, ht.seen, h.world]
  stays := hs.stays h.stays
  stays' := ht.stays h.stays'
  text _ := by rw [hs.feed.deltas, ht.feed.deltas, String.join_append, String.join_append, h.text rfl, htext]
  inTime := hs.inTime
  inTime' := ht.inTime

/-- One of them hands out something that the other, plain one does not. -/
private theorem Abreast.handOut_plain (h : s.Abreast times false limit t) (hs : s.HandsOut times limit more s') :
    s'.Abreast times false limit t where
  world := by rw [hs.seen, h.world]
  stays := hs.stays h.stays
  stays' := h.stays'
  text hf := nomatch hf
  inTime := hs.inTime
  inTime' := h.inTime'

end Scene

/-- What is expected of the providers: what they say is the same, it is there at once if times matter, and without
flags the second one only completes. -/
structure Provider.Suits (times flags : Bool) (p q : Provider) : Prop where
  resplits : p.Resplits q
  prompt (h : times = true) : p.Prompt
  prompt' (h : times = true) : q.Prompt
  onlyCompletes (h : flags = false) : q.OnlyCompletes

/-- What is known of the replies of such providers. -/
structure Reply.Suits (times flags : Bool) (r r' : Reply) : Prop where
  resplit : r.Resplit r'
  prompt (h : times = true) : ∀ x ∈ r.items, x.1 = 0
  prompt' (h : times = true) : ∀ x ∈ r'.items, x.1 = 0
  whole (h : flags = false) : ∃ response, r' = .whole response

private theorem Provider.Prompt.items {p : Provider} (h : p.Prompt) {earlier : List Request} {request : Request}
    {r : Reply}
    (hr : (p.reply earlier request).ending = .returns (.ok r)) : ∀ x ∈ r.items, x.1 = 0 := by
  cases r with
  | whole response =>
    intro x hx
    rw [List.mem_singleton.1 hx]
  | stream items => exact h earlier request items hr

/-- The second provider is asked for a stream only if flags are seen, and gives a suitable reply in any case. -/
private theorem Provider.Suits.matches {times flags : Bool} {p q : Provider} (h : p.Suits times flags q)
    {earlier earlier' : List Request} {request request' : Request} (hstream : request.stream = true)
    (he : earlier'.map (Request.seen flags) = earlier.map (Request.seen flags))
    (hr : request'.seen flags = request.seen flags) :
    (p.reply earlier request).Matches (Agree (Reply.Suits times flags)) (q.reply earlier' request') := by
  have hreply : q.reply earlier' request' = q.reply earlier request := by
    cases flags with
    | false => exact (h.onlyCompletes rfl).reply_eq he hr
    | true =>
      have hasked : earlier' = earlier := by simpa using he
      rw [hasked, show request' = request from hr]
  rw [hreply]
  obtain ⟨hafter, hending⟩ := h.resplits earlier request hstream
  refine ⟨hafter, hending.imp fun a b hp hq hab => hab.imp fun r r' ha hb hsame => ?_⟩
  subst ha hb
  exact ⟨hsame, fun ht => Prompt.items (h.prompt ht) hp, fun ht => Prompt.items (h.prompt' ht) hq,
    fun hf => (h.onlyCompletes hf).whole hq⟩

namespace Loop

open Scene

variable {l : Loop} {p q : Provider} {times flags : Bool} {limit : Option Nat}

private theorem abreast_attempt (hlimit : times = true ∨ limit = none) (h : p.Suits times flags q)
    {request request' : Request}
    (hstream : request.stream = true) (hr : request'.seen flags = request.seen flags) :
    Alongside p q limit (Abreast times flags limit) (Agree (Reply.Suits times flags)) (attempt request)
      (attempt request') := by
  intro s t hst
  have hmatches := h.matches hstream (World.asked_of_seen hst.world) hr
  exact Alongside.react (lasts_abreast hlimit) hmatches _ _ (hst.ask p q hr)

/-- Replies that say the same are read alike. -/
private theorem abreast_read (hlimit : times = true ∨ limit = none) {request request' : Request} {r r' : Reply}
    (h : r.Suits times flags r') (hstream : request.stream = true) (hstream' : request'.stream = flags)
    (hmodel : request'.model = request.model) :
    Alongside p q limit (Abreast times flags limit) (Agree (SameBut fun model model' => flags = true → model' = model))
      (read request r) (read request' r') := by
  intro s t hst
  obtain ⟨s', hs, hhanded⟩ := play_read (p := p) hlimit hstream hst.stays hst.inTime h.prompt
  cases flags with
  | true =>
    obtain ⟨t', ht, hhanded'⟩ := play_read (p := q) hlimit hstream' hst.stays' hst.inTime' h.prompt'
    rw [hs, ht]
    refine ⟨?_, hst.handOut hhanded hhanded' h.resplit.text.symm⟩
    rw [← h.resplit.fate, h.resplit.said, hmodel]
    cases fate r.items with
    | complete => exact ⟨_, rfl, fun _ => rfl⟩
    | fails e => exact rfl
    | silent => exact trivial
  | false =>
    obtain ⟨response, rfl⟩ := h.whole rfl
    have hread : read request' (.whole response) =
        pure (.ok ⟨response.message.content, response.message.calls, response.usage, response.model⟩) := by
      rw [read, if_neg (by simp [hstream'])]
    have hsaid := h.resplit.said response.model
    have hcomplete : fate r.items = .complete := h.resplit.fate
    rw [Reply.said_whole] at hsaid
    rw [hs, hread, hcomplete, hsaid]
    exact ⟨⟨_, rfl, fun hf => absurd hf Bool.false_ne_true⟩, hst.handOut_plain hhanded⟩

/-- A turn with the one provider does what it does with the other. -/
private theorem abreast_takeTurn (hlimit : times = true ∨ limit = none) (h : p.Suits times flags q)
    {request request' : Request}
    (hstream : request.stream = true) (hstream' : request'.stream = flags) (hr : request'.seen flags = request.seen flags)
    (hmodel : request'.model = request.model) :
    Alongside p q limit (Abreast times flags limit) (Agree (SameBut fun model model' => flags = true → model' = model))
      ((l.withStreams true).takeTurn request) ((l.withStreams flags).takeTurn request') := by
  rw [takeTurn_eq_read, takeTurn_eq_read]
  have hattempts := alongside_attemptsFrom (l := l) (lasts_abreast hlimit) (abreast_attempt hlimit h hstream hr) 0
    (l.policy.attempts - 1)
  refine hattempts.bind fun a b hab => ?_
  cases a with
  | error e =>
    cases b with
    | error e' => exact .pure hab
    | ok r' => exact hab.elim
  | ok r =>
    cases b with
    | error e' => exact hab.elim
    | ok r' => exact abreast_read hlimit hab hstream hstream' hmodel

private theorem abreast_run (hlimit : times = true ∨ limit = none) (h : p.Suits times flags q) (input : LoopInput) :
    Alongside p q limit (Abreast times flags limit) Eq ((l.withStreams true).run input)
      ((l.withStreams flags).run input) := by
  refine alongside_turns (M := fun model model' => flags = true → model' = model) (lasts_abreast hlimit)
    (fun messages offer => abreast_takeTurn hlimit h rfl rfl ?_ rfl) (fun tokens hmodel s t hst => hst.note ?_) _ _
  · cases flags with
    | false => rfl
    | true => rfl
  · cases flags with
    | false => rfl
    | true => rw [hmodel rfl]

end Loop

/-! ### What is not read -/

namespace Loop

variable {l : Loop} {p : Provider} {limit : Option Nat}

private theorem collect_curtailed (items : List (Nat × StreamItem)) (spent due : Nat) (turn : Turn) :
    collect spent due turn (curtailed items) = collect spent due turn items := by
  induction items generalizing spent due turn with
  | nil => rfl
  | cons first rest ih =>
    obtain ⟨gap, item⟩ := first
    cases item with
    | silence | failure => rfl
    | chunk c =>
      cases hdone : c.done with
      | true => simp [curtailed, collect, hdone]
      | false => simp [curtailed, collect, hdone, ih]

private theorem read_curtailed (request : Request) (r : Reply) : read request r.curtailed = read request r := by
  cases r with
  | whole => rfl
  | stream items => simp only [Reply.curtailed, read, collect_curtailed]

/-- Nothing is asked of the model. -/
def unaskingContract : Contract runEffects := .ofAllows fun _ effect => effect.isAsk = false

private theorem unasking_read (request : Request) (r : Reply) :
    Keeps unaskingContract (fun _ _ => True) [] (read request r) := by
  have hcollect {turn : Turn} {items : List (Nat × StreamItem)} :
      Keeps unaskingContract (fun _ _ => True) [] (collect 0 0 turn items) :=
    keeps_collect (fun _ => rfl) (fun _ _ => rfl) fun _ _ => trivial
  cases r with
  | whole response =>
    by_cases hstream : request.stream = true
    · rw [read, if_pos hstream]
      exact hcollect
    · rw [read, if_neg hstream]
      trivial
  | stream => exact hcollect

/-- What asks for nothing does not depend on the provider. -/
private theorem play_unasking {α : Type} {x : RunProcess α} {post : RunTrace → α → Prop} {t : RunTrace}
    (h : Keeps unaskingContract post t x) (p q : Provider) (s : Scene) : x.play q limit s = x.play p limit s := by
  induction x generalizing t s with
  | done | fault | hang => rfl
  | act e next ih =>
    have heq : e.perform q s = e.perform p s := by
      cases e with
      | ask => cases h.1
      | _ => rfl
    unfold play
    rw [heq]
    exact ih _ (h.2 _ trivial) _
  | wait n next ih =>
    unfold play
    split
    · exact ih h s
    · dsimp only
      split
      · rfl
      · exact ih h _
  | yield next ih =>
    unfold play
    split
    · rfl
    · exact ih h s

private theorem lasts_eq (limit : Option Nat) : Lasts limit fun s t => t = s where
  clock h := .inr (congrArg (·.world.now) h)
  later h _ _ := by rw [h]
  note h _ := by rw [h]

private theorem curtailed_attempt (p : Provider) (request : Request) :
    Alongside p p.curtailed limit (fun s t => t = s) (Agree fun r r' => r' = r.curtailed) (attempt request)
      (attempt request) := by
  intro s t hst
  subst hst
  have hmatches : (p.reply t.world.asked request).Matches (Agree fun r r' => r' = r.curtailed)
      (p.curtailed.reply t.world.asked request) := by
    refine ⟨rfl, ?_⟩
    simp only [Provider.curtailed]
    cases (p.reply t.world.asked request).ending with
    | returns a => cases a <;> exact rfl
    | faults => exact rfl
    | hangs => exact trivial
  exact Alongside.react (lasts_eq limit) hmatches _ _ rfl

private theorem curtailed_run (l : Loop) (p : Provider) (input : LoopInput) :
    Alongside p p.curtailed limit (fun s t => t = s) Eq ((l.withStreams true).run input)
      ((l.withStreams true).run input) := by
  refine alongside_turns (M := fun model model' => model' = model) (lasts_eq limit) (fun messages offer => ?_)
    (fun tokens hmodel s t hst => by rw [hmodel, hst]) _ _
  rw [takeTurn_eq_read]
  have hattempts := alongside_attemptsFrom (l := l) (lasts_eq limit)
    (curtailed_attempt p ((l.withStreams true).request input messages offer)) 0 (l.policy.attempts - 1)
  refine hattempts.bind fun a b hab => ?_
  cases a with
  | error e =>
    cases b with
    | error e' => exact .pure hab
    | ok r' => exact hab.elim
  | ok r =>
    cases b with
    | error e' => exact hab.elim
    | ok r' =>
      obtain rfl : r' = r.curtailed := hab
      intro s t hst
      subst hst
      dsimp only
      rw [read_curtailed, play_unasking (unasking_read _ r) p p.curtailed]
      generalize (read _ r).play p limit t = x
      obtain ⟨stop, s'⟩ := x
      refine ⟨?_, rfl⟩
      cases stop with
      | finished turn =>
        cases turn with
        | error e => exact rfl
        | ok turn => exact ⟨turn.model, rfl, rfl⟩
      | _ => first | exact rfl | exact trivial

/-! ### Runs by themselves -/

/-- If two runs do the same then they end alike, in scenes that are still related or have been cut at the same time. -/
private theorem alongside_perform {l m : Loop} {p q : Provider} {rel rel' : Scene → Scene → Prop} {input : LoopInput}
    {cancelAt : Option Nat} (hc : cancelAt ≠ some 0) (h : Alongside p q cancelAt rel Eq (l.run input) (m.run input))
    (hover : ∀ {s t : Scene}, rel s t → rel' s t)
    (hcut : ∀ {s t : Scene} (time : Nat), rel s t → rel' (s.atTime time) (t.atTime time)) {s t : Scene} (hst : rel s t) :
    (l.perform p cancelAt input s).1 = (m.perform q cancelAt input t).1 ∧
      rel' (l.perform p cancelAt input s).2 (m.perform q cancelAt input t).2 := by
  obtain ⟨hm, hrel⟩ := h s t hst
  rw [perform_eq _ _ hc, perform_eq _ _ hc]
  revert hm hrel
  generalize (l.run input).play p cancelAt s = x, (m.run input).play q cancelAt t = y
  obtain ⟨stop, s'⟩ := x
  obtain ⟨stop', t'⟩ := y
  intro hm hrel
  cases stop <;> cases stop' <;> try exact hm.elim
  case finished => exact ⟨congrArg Ending.returns hm, hover hrel⟩
  case broke => exact ⟨congrArg Ending.faults hm, hover hrel⟩
  case paused | stuck =>
    cases cancelAt with
    | none => exact ⟨rfl, hover hrel⟩
    | some time => exact ⟨rfl, hcut time hrel⟩

/-- The run without what is not read of the streams. -/
private theorem perform_curtailed (l : Loop) (p : Provider) (cancelAt : Option Nat) (input : LoopInput)
    (scene : Scene) :
    (l.withStreams true).perform p.curtailed cancelAt input scene =
      (l.withStreams true).perform p cancelAt input scene := by
  by_cases hc : cancelAt = some 0
  · subst hc
    rfl
  · have hover {s t : Scene} (h : t = s) : t = s := h
    have hcut {s t : Scene} (time : Nat) (h : t = s) : t.atTime time = s.atTime time := by rw [h]
    obtain ⟨hending, hscene⟩ := alongside_perform hc (l.curtailed_run p input) hover hcut (rfl : scene = scene)
    exact Prod.ext hending.symm hscene

/-- Nothing keeps the runs waiting but what the providers and tools take, and none is cancelled after its time. -/
structure AtOnce (p q : Provider) (cancelAt : Option Nat) (scene : Scene) : Prop where
  left : p.Prompt
  right : q.Prompt
  feed : scene.feed.KeepsUp scene.world.now
  begins : ∀ time ∈ cancelAt, time = 0 ∨ scene.world.now < time

private theorem perform_abreast (l : Loop) {p q : Provider} {times flags : Bool} {cancelAt : Option Nat}
    (hlimit : times = true ∨ cancelAt = none) (h : p.Suits times flags q) (input : LoopInput) {scene : Scene}
    (hs : scene.feed.consumer.take = none) (ht : times = true → AtOnce p q cancelAt scene) :
    ((l.withStreams true).perform p cancelAt input scene).1 =
        ((l.withStreams flags).perform q cancelAt input scene).1 ∧
      ((l.withStreams true).perform p cancelAt input scene).2.LooksLike times flags
        ((l.withStreams flags).perform q cancelAt input scene).2 := by
  by_cases hc : cancelAt = some 0
  · subst hc
    exact ⟨rfl, rfl, fun _ => rfl⟩
  · have hbegins (h : times = true) : scene.InTime cancelAt := by
      refine ⟨(ht h).feed, ?_⟩
      cases cancelAt with
      | none => rfl
      | some time =>
        have hlt := (ht h).begins time rfl
        have hne : time ≠ 0 := fun hzero => hc (congrArg some hzero)
        simp only [Option.any_some, decide_eq_false_iff_not]
        omega
    refine alongside_perform hc (abreast_run hlimit h input) Scene.Abreast.toLooksLike (fun time hst => ?_)
      ⟨⟨rfl, fun _ => rfl⟩, hs, hs, hbegins, hbegins⟩
    exact ⟨World.seen_atTime hst.world fun _ => rfl, hst.text⟩

/-- How a streamed run with the one provider compares with runs with the other one. -/
structure Indistinct (l : Loop) (p q : Provider) (cancelAt : Option Nat) (input : LoopInput) (scene : Scene) : Prop where
  /-- Both come to the same end, and an outcome is the same in all its parts. -/
  ending : ((l.withStreams true).perform p cancelAt input scene).1 =
    ((l.withStreams true).perform q cancelAt input scene).1
  /-- Both send the same requests and execute the same tools, in the same order; and so for all that is written down. -/
  world : ((l.withStreams true).perform p cancelAt input scene).2.world.timeless =
    ((l.withStreams true).perform q cancelAt input scene).2.world.timeless
  /-- Both hand out the same text. -/
  text : String.join ((l.withStreams true).perform p cancelAt input scene).2.feed.deltas =
    String.join ((l.withStreams true).perform q cancelAt input scene).2.feed.deltas
  /-- If nothing keeps them waiting, then both do everything at the same times. -/
  atOnce (h : AtOnce p q cancelAt scene) : ((l.withStreams true).perform p cancelAt input scene).2.world =
    ((l.withStreams true).perform q cancelAt input scene).2.world
  /-- What comes after a last chunk has no effect. -/
  curtailed : (l.withStreams true).perform p.curtailed cancelAt input scene =
    (l.withStreams true).perform p cancelAt input scene
  /-- If the other provider only completes, then the plain run with it comes to the same end as well, -/
  ending_plain (h : q.OnlyCompletes) : ((l.withStreams true).perform p cancelAt input scene).1 =
    ((l.withStreams false).perform q cancelAt input scene).1
  /-- and writes down the same, apart from the flags of the requests and the models that events name. -/
  world_plain (h : q.OnlyCompletes) : ((l.withStreams true).perform p cancelAt input scene).2.world.plain.timeless =
    ((l.withStreams false).perform q cancelAt input scene).2.world.plain.timeless

/-- Two providers that say the same in other chunks make no difference to a streamed run with a consumer that stays,
and neither does one that gives whole responses. -/
theorem perform_resplit (l : Loop) {p q : Provider} (h : p.Resplits q) (input : LoopInput) {scene : Scene}
    (hs : scene.feed.consumer.take = none) {cancelAt : Option Nat}
    (hc : cancelAt = none ∨ AtOnce p q cancelAt scene) : l.Indistinct p q cancelAt input scene := by
  -- times are looked at where they are the same, and not at all where there is no limit
  have compare (flags : Bool) (hflags : flags = false → q.OnlyCompletes) :
      ((l.withStreams true).perform p cancelAt input scene).1 =
          ((l.withStreams flags).perform q cancelAt input scene).1 ∧
        ((l.withStreams true).perform p cancelAt input scene).2.LooksLike false flags
          ((l.withStreams flags).perform q cancelAt input scene).2 := by
    rcases hc with hnone | hat
    · have hsuits : p.Suits false flags q := ⟨h, (nomatch ·), (nomatch ·), hflags⟩
      exact l.perform_abreast (.inr hnone) hsuits input hs (nomatch ·)
    · have hsuits : p.Suits true flags q := ⟨h, fun _ => hat.left, fun _ => hat.right, hflags⟩
      obtain ⟨hending, hlooks⟩ := l.perform_abreast (.inl rfl) hsuits input hs fun _ => hat
      exact ⟨hending, World.untimed_of_seen hlooks.world, hlooks.text⟩
  obtain ⟨hending, hlooks⟩ := compare true (nomatch ·)
  constructor
  · exact hending
  · rw [← World.seen_untimed, ← World.seen_untimed, hlooks.world]
  · exact (hlooks.text rfl).symm
  · intro hat
    have hsuits : p.Suits true true q := ⟨h, fun _ => hat.left, fun _ => hat.right, (nomatch ·)⟩
    obtain ⟨-, htimed⟩ := l.perform_abreast (.inl rfl) hsuits input hs fun _ => hat
    have hworld := htimed.world
    rw [World.seen_all, World.seen_all] at hworld
    exact hworld.symm
  · exact perform_curtailed l p cancelAt input scene
  · exact fun hq => (compare false fun _ => hq).1
  · intro hq
    rw [← World.seen_plain, ← World.seen_plain, (compare false fun _ => hq).2.world]

/-- A provider that gives one reply and then another one, again and again. -/
def giving (first others : Reply) : Provider where
  reply earlier _ := .now (.ok (if earlier.isEmpty then first else others))

private theorem giving_resplits {first first' others others' : Reply} (h : first.Resplit first')
    (h' : others.Resplit others') :
    (giving first others).Resplits (giving first' others') := by
  intro earlier request _
  refine ⟨rfl, ?_⟩
  show Reply.Resplit (if earlier.isEmpty then first else others) (if earlier.isEmpty then first' else others')
  split
  · exact h
  · exact h'

private theorem giving_prompt {first others : Reply} (h : ∀ x ∈ first.items, x.1 = 0)
    (h' : ∀ x ∈ others.items, x.1 = 0) :
    (giving first others).Prompt := by
  intro earlier request items hr
  have hreply : (if earlier.isEmpty then first else others) = .stream items := by
    simpa [giving, Reaction.now] using hr
  have hitems : items = Reply.items (if earlier.isEmpty then first else others) := by rw [hreply]; rfl
  rw [hitems]
  split
  · exact h
  · exact h'

/-- A model that looks at the clock and answers, in drops: an empty chunk, a text in two pieces, a call and two reports
of usage apart from each other, a chunk that comes too late, and a stream that is closed without a last chunk. -/
def dripping : Provider :=
  giving
    (.stream [(0, .chunk { content := some "let me ", usage := some ⟨1, 1, 2⟩ }), (0, .chunk {}),
      (0, .chunk { calls := [⟨"a", "clock", ""⟩] }),
      (0, .chunk { content := some "see", usage := some ⟨3, 2, 5⟩, done := true }),
      (0, .chunk { content := some "more", calls := [⟨"b", "clock", ""⟩] })])
    (.stream [(0, .chunk { content := some "no" }), (0, .chunk { content := some "on" })])

/-- The same model with whole responses. -/
def pouring : Provider :=
  giving (.whole ⟨.ofCalls "let me see" [⟨"a", "clock", ""⟩], some ⟨3, 2, 5⟩, "m"⟩) (.whole ⟨.ofAssistant "noon", none, "m"⟩)

def clockQuestion : LoopInput :=
  { question with tools := .ofTools [{ name := "clock", execute := fun _ _ => ⟨3, .returns (.ok "12")⟩ }] }

theorem perform_resplit_dripping : dripping.Resplits pouring ∧ listener.feed.consumer.take = none ∧
    AtOnce dripping pouring (some 9) listener ∧
    watcher.Indistinct dripping pouring (some 9) clockQuestion listener ∧
    ((watcher.withStreams true).perform dripping (some 9) clockQuestion listener).1 = .returns (.ok
      { answer := "noon"
        transcript := [.ofUser "what time is it?", .ofCalls "let me see" [⟨"a", "clock", ""⟩], .ofResult "a" "12",
          .ofAssistant "noon"]
        usage := ⟨3, 2, 5⟩
        toolsUsed := ["clock"]
        toolCalls := 1
        iterations := 2 }) := by
  have hsplit : dripping.Resplits pouring := giving_resplits (by decide) (by decide)
  have hfeed : listener.feed.KeepsUp listener.world.now := ⟨rfl, .inr ⟨rfl, Nat.le_refl _, by simp [listener]⟩⟩
  have hat : AtOnce dripping pouring (some 9) listener :=
    ⟨giving_prompt (by decide) (by decide), giving_prompt (by decide) (by decide), hfeed, fun time ht => .inr (by
      obtain rfl := Option.some.inj ht
      decide)⟩
  exact ⟨hsplit, rfl, hat, watcher.perform_resplit hsplit clockQuestion rfl (.inr hat), by decide +kernel⟩

end Loop

end AgentLoop
