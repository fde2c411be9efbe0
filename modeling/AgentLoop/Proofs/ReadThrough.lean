import AgentLoop.Proofs.Replies

/-!
# Reading a reply through

With a consumer that stays, the reading of a stream stops where the stream ends it, and everything that it says is
handed out.  Without a limit this may take any time.  If all chunks are there and the consumer keeps up it takes none,
and then it does not matter whether there is a limit that is still ahead.
-/

namespace AgentLoop

open Process StreamItem

/-! ### Handing out what a stream says -/

/-- The consumer reads at once, and the limit is not reached. -/
structure Scene.InTime (limit : Option Nat) (scene : Scene) : Prop where
  feed : scene.feed.KeepsUp scene.world.now
  before : limit.any (· ≤ scene.world.now) = false

/-- Nothing has happened but that these texts were handed out, at once if times matter. -/
structure Scene.HandsOut (times : Bool) (limit : Option Nat) (s : Scene) (more : List String) (s' : Scene) : Prop where
  feed : s.feed.Grown more s'.feed
  world : s'.world = { s.world with now := s'.world.now }
  atOnce (h : times = true) : s'.world.now = s.world.now ∧ s'.InTime limit

namespace Scene

variable {times : Bool} {limit : Option Nat} {s s' s'' : Scene} {more others : List String}

private theorem HandsOut.refl (h : times = true → s.InTime limit) : s.HandsOut times limit [] s :=
  ⟨.refl _, rfl, fun ht => ⟨rfl, h ht⟩⟩

private theorem HandsOut.trans (h : s.HandsOut times limit more s') (h' : s'.HandsOut times limit others s'') :
    s.HandsOut times limit (more ++ others) s'' where
  feed := h.feed.trans h'.feed
  world := by rw [h'.world, h.world]
  atOnce ht := ⟨(h'.atOnce ht).1.trans (h.atOnce ht).1, (h'.atOnce ht).2⟩

theorem HandsOut.stays (h : s.HandsOut times limit more s') (hs : s.feed.consumer.take = none) :
    s'.feed.consumer.take = none :=
  h.feed.take.trans hs

theorem HandsOut.inTime (h : s.HandsOut times limit more s') (ht : times = true) : s'.InTime limit := (h.atOnce ht).2

end Scene

namespace Loop

open Scene

variable {p : Provider} {times : Bool} {limit : Option Nat} {s : Scene} {request : Request}

/-- A wait is over at once, or its time passes. -/
private theorem play_wait {α : Type} (hlimit : times = true ∨ limit = none) (ht : times = true → s.InTime limit)
    {ticks : Nat}
    (hticks : times = true → ticks = 0) (x : RunProcess α) :
    ∃ s', (wait ticks x).play p limit s = x.play p limit s' ∧ s.HandsOut times limit [] s' := by
  by_cases hzero : ticks = 0
  · exact ⟨s, by rw [play, if_pos hzero], .refl ht⟩
  · have hfalse : times = false := by
      cases times with
      | false => rfl
      | true => exact absurd (hticks rfl) hzero
    obtain rfl : limit = none := hlimit.resolve_left (by simp [hfalse])
    refine ⟨s.atTime (s.world.now + ticks), ?_, .refl _, rfl, by simp [hfalse]⟩
    rw [play, if_neg hzero]
    rfl

/-- A consumer that stays gets what is handed out, at once if it keeps up. -/
private theorem play_deliver_of_stays (hlimit : times = true ∨ limit = none) (hs : s.feed.consumer.take = none)
    (ht : times = true → s.InTime limit) (delta : String) :
    ∃ waited s', (deliver delta).play p limit s = (.finished (true, waited), s') ∧
      s.HandsOut times limit [delta] s' := by
  have hroom : RunProcess.room.play p limit s = (.finished (s.feed.room s.world.now), s) := rfl
  have hput {s : Scene} (ht : times = true → s.InTime limit) :
      s.HandsOut times limit [delta] { s with feed := s.feed.put s.world.now delta } :=
    ⟨Feed.grown_put .., rfl, fun h => ⟨rfl, (ht h).feed.put delta, (ht h).before⟩⟩
  rw [deliver, play_bind, hroom]
  cases hfree : s.feed.room s.world.now with
  | gone => exact absurd hfree (Feed.room_ne_gone hs _)
  | free => exact ⟨0, _, rfl, hput ht⟩
  | after ticks =>
    have hfalse : times ≠ true := by
      intro h
      rw [(ht h).feed.room] at hfree
      cases hfree
    have hticks : times = true → ticks = 0 := fun h => absurd h hfalse
    obtain ⟨s', hwait, hpassed⟩ := play_wait (p := p) hlimit ht hticks
      (RunProcess.put delta >>= fun _ => pure (true, ticks))
    exact ⟨ticks, _, hwait, hpassed.trans (hput hpassed.inTime)⟩

/-- What a chunk says is handed out, if it says anything. -/
private theorem play_handOut (hlimit : times = true ∨ limit = none) (hs : s.feed.consumer.take = none)
    (ht : times = true → s.InTime limit) (c : Chunk) :
    ∃ waited s', (if (c.content.getD "").isEmpty then pure (true, 0) else deliver (c.content.getD "") :
        RunProcess (Bool × Nat)).play p limit s = (.finished (true, waited), s') ∧
      s.HandsOut times limit (contents [c]) s' := by
  rw [contents_singleton]
  split
  · exact ⟨0, s, rfl, .refl ht⟩
  · exact play_deliver_of_stays hlimit hs ht _

end Loop

/-- Where the reading of a stream stops that ends like this. -/
def StreamEnd.stop (turn : Turn) : StreamEnd → Stop (Except RunError Turn)
  | .complete => .finished (.ok turn)
  | .fails e => .finished (.error (.provider e))
  | .silent => .stuck

namespace Loop

open Scene

variable {p : Provider} {times : Bool} {limit : Option Nat} {s : Scene} {request : Request}

/-- A stream is read to its end, and all that it says is handed out. -/
private theorem play_collect (hlimit : times = true ∨ limit = none) {model : String} {items : List (Nat × StreamItem)}
    {spent due : Nat} {past : List Chunk} (hs : s.feed.consumer.take = none) (ht : times = true → s.InTime limit)
    (hprompt : times = true → due ≤ spent ∧ ∀ x ∈ items, x.1 = 0) :
    ∃ s', (collect spent due (Turn.said model past) items).play p limit s =
        ((fate items).stop (Turn.said model (past ++ consumed items)), s') ∧
      s.HandsOut times limit (heard items) s' := by
  induction items generalizing spent due past s with
  | nil =>
    have hall : past ++ consumed [] = past := List.append_nil past
    rw [hall]
    exact ⟨s, rfl, .refl ht⟩
  | cons first rest ih =>
    obtain ⟨gap, item⟩ := first
    have hticks : times = true → due + gap - spent = 0 := by
      intro h
      have hgap : gap = 0 := (hprompt h).2 _ (List.mem_cons_self ..)
      have hle := (hprompt h).1
      omega
    cases item with
    | silence =>
      obtain ⟨s', hwait, hpassed⟩ := play_wait (p := p) hlimit ht hticks .hang
      exact ⟨s', hwait, hpassed⟩
    | failure e =>
      obtain ⟨s', hwait, hpassed⟩ := play_wait (p := p) hlimit ht hticks
        (pure (.error (.provider e)) : RunProcess (Except RunError Turn))
      exact ⟨s', hwait, hpassed⟩
    | chunk c =>
      rw [collect_chunk]
      obtain ⟨s₁, hwait, hpassed⟩ := play_wait (p := p) hlimit ht hticks _
      obtain ⟨waited, s₂, hhand, hhanded⟩ := play_handOut (p := p) hlimit (hpassed.stays hs) hpassed.inTime c
      have htwo := hpassed.trans hhanded
      rw [hwait, play_bind, hhand]
      dsimp only
      rw [heard_chunk]
      cases hdone : c.done with
      | true =>
        have hconsumed : consumed ((gap, .chunk c) :: rest) = [c] := by simp [consumed, hdone]
        have hfate : fate ((gap, .chunk c) :: rest) = .complete := by simp [fate, hdone]
        rw [hconsumed, hfate]
        exact ⟨s₂, rfl, by simpa using htwo⟩
      | false =>
        have hprompt' : times = true → due + gap ≤ max spent (due + gap) + waited ∧ ∀ x ∈ rest, x.1 = 0 := fun h =>
          ⟨by omega, fun x hx => (hprompt h).2 x (List.mem_cons_of_mem _ hx)⟩
        obtain ⟨s₃, hrest, hothers⟩ : ∃ s₃,
            (collect (max spent (due + gap) + waited) (due + gap) (Turn.said model (past ++ [c])) rest).play p limit s₂ =
              ((fate rest).stop (Turn.said model (past ++ [c] ++ consumed rest)), s₃) ∧
            s₂.HandsOut times limit (heard rest) s₃ := ih (htwo.stays hs) htwo.inTime hprompt'
        have hconsumed : consumed ((gap, .chunk c) :: rest) = c :: consumed rest := by simp [consumed, hdone]
        have hfate : fate ((gap, .chunk c) :: rest) = fate rest := by simp [fate, hdone]
        rw [List.append_assoc, List.singleton_append] at hrest
        rw [hconsumed, hfate]
        exact ⟨s₃, hrest, by simpa using htwo.trans hothers⟩

/-- A turn reads the reply to its request. -/
def read (request : Request) : Reply → RunProcess (Except RunError Turn)
  | .whole response =>
    if request.stream then collect 0 0 ⟨"", [], none, request.model⟩ [(0, .chunk (chunkOf response))]
    else pure (.ok ⟨response.message.content, response.message.calls, response.usage, response.model⟩)
  | .stream items => do
    Process.pass
    collect 0 0 ⟨"", [], none, request.model⟩ items

/-- A turn is a request that is sent until there is a reply, and then the reading of that. -/
theorem takeTurn_eq_read (l : Loop) (request : Request) :
    l.takeTurn request = l.reply request >>= fun
      | .error e => pure (.error e)
      | .ok reply => read request reply := by
  refine congrArg (l.reply request >>= ·) (funext fun a => ?_)
  cases a with
  | error e => rfl
  | ok reply => cases reply <;> rfl

/-- A reply to a streamed request is read to its end. -/
theorem play_read (hlimit : times = true ∨ limit = none) (hstream : request.stream = true) {reply : Reply}
    (hs : s.feed.consumer.take = none) (ht : times = true → s.InTime limit)
    (hprompt : times = true → ∀ x ∈ reply.items, x.1 = 0) :
    ∃ s', (read request reply).play p limit s =
        ((fate reply.items).stop (Turn.said request.model (consumed reply.items)), s') ∧
      s.HandsOut times limit (heard reply.items) s' := by
  obtain ⟨s', hplay, hhanded⟩ : ∃ s', (collect 0 0 (Turn.said request.model []) reply.items).play p limit s =
        ((fate reply.items).stop (Turn.said request.model (consumed reply.items)), s') ∧
      s.HandsOut times limit (heard reply.items) s' :=
    play_collect hlimit hs ht fun h => ⟨Nat.le_refl _, hprompt h⟩
  refine ⟨s', ?_, hhanded⟩
  rw [← hplay]
  cases reply with
  | whole response =>
    rw [read, if_pos hstream]
    rfl
  | stream items =>
    have hgoes : limit.any (· ≤ s.world.now) = false := by
      rcases hlimit with h | rfl
      · exact (ht h).before
      · rfl
    show (Process.yield (collect 0 0 ⟨"", [], none, request.model⟩ items)).play p limit s = _
    rw [play, hgoes]
    rfl

end Loop

end AgentLoop
