import AgentLoop.Proofs.Account
import AgentLoop.Proofs.Streaming

/-!
# What is consumed of a stream

A stream is consumed up to the first chunk that is marked as the last, up to its close, or up to an error.  A streamed
run goes from one stream to the next only when the one before is consumed to its proper end, and hands out what the
chunks say as it consumes them.  So at any time it has handed out all that the earlier streams said and some of what
the stream at hand says; an answer is what the last stream said, and an error that arrives on a stream ends the run.
Whenever the run waits it has handed out everything that it has read, unless it is room that it waits for.
-/

namespace AgentLoop

open Process

/-! ### Streams -/

/-- What arrives on the stream of a reply; a whole response comes in one chunk. -/
def Reply.items : Reply → List (Nat × StreamItem)
  | .stream items => items
  | .whole response => [(0, .chunk (Loop.chunkOf response))]

/-- How reading a stream ends: with a last chunk or the close of the stream, with an error, or not at all. -/
inductive StreamEnd where
  | complete
  | fails (e : ProviderError)
  | silent
  deriving DecidableEq, Repr

namespace StreamItem

variable {past rest : List (Nat × StreamItem)}

/-- The chunks of a stream that are consumed. -/
def consumed : List (Nat × StreamItem) → List Chunk
  | (_, .chunk c) :: rest => c :: if c.done then [] else consumed rest
  | _ => []

def fate : List (Nat × StreamItem) → StreamEnd
  | [] => .complete
  | (_, .silence) :: _ => .silent
  | (_, .failure e) :: _ => .fails e
  | (_, .chunk c) :: rest => if c.done then .complete else fate rest

/-- The contents of chunks, without those that are empty. -/
def contents (chunks : List Chunk) : List String := (chunks.map fun c => c.content.getD "").filter (!·.isEmpty)

/-- What a stream says as far as it is consumed. -/
def heard (items : List (Nat × StreamItem)) : List String := contents (consumed items)

/-- Nothing but chunks after which reading goes on. -/
def Ongoing (items : List (Nat × StreamItem)) : Prop := ∀ x ∈ items, ∃ c, x.2 = .chunk c ∧ c.done = false

theorem contents_append (chunks more : List Chunk) : contents (chunks ++ more) = contents chunks ++ contents more := by
  simp [contents]

theorem contents_singleton (c : Chunk) :
    contents [c] = if (c.content.getD "").isEmpty then [] else [c.content.getD ""] := by
  cases h : (c.content.getD "").isEmpty <;> simp [contents, h]

theorem join_contents_append (texts : List String) (c : Chunk) :
    String.join (texts ++ contents [c]) = String.join texts ++ c.content.getD "" := by
  rw [contents_singleton]
  split
  · rename_i h
    have hempty : c.content.getD "" = "" := by simpa using h
    simp [hempty]
  · simp

theorem heard_chunk (gap : Nat) (c : Chunk) (rest : List (Nat × StreamItem)) :
    heard ((gap, .chunk c) :: rest) = contents [c] ++ if c.done then [] else heard rest := by
  show contents ([c] ++ if c.done then [] else consumed rest) = _
  rw [contents_append]
  split <;> rfl

private theorem heard_append (h : Ongoing past) (rest : List (Nat × StreamItem)) :
    heard (past ++ rest) = heard past ++ heard rest := by
  induction past with
  | nil => rfl
  | cons first past ih =>
    obtain ⟨gap, item⟩ := first
    obtain ⟨c, rfl, hc⟩ := h _ (List.mem_cons_self ..)
    rw [List.cons_append, heard_chunk, heard_chunk, hc, ih fun x hx => h x (List.mem_cons_of_mem _ hx)]
    exact (List.append_assoc ..).symm

private theorem fate_append (h : Ongoing past) (rest : List (Nat × StreamItem)) : fate (past ++ rest) = fate rest := by
  induction past with
  | nil => rfl
  | cons first past ih =>
    obtain ⟨gap, item⟩ := first
    obtain ⟨c, rfl, hc⟩ := h _ (List.mem_cons_self ..)
    rw [List.cons_append, fate, hc]
    exact ih fun x hx => h x (List.mem_cons_of_mem _ hx)

private theorem Ongoing.concat (h : Ongoing past) {gap : Nat} {c : Chunk} (hc : c.done = false) :
    Ongoing (past ++ [(gap, .chunk c)]) := by
  intro x hx
  rcases List.mem_append.1 hx with hx | hx
  · exact h x hx
  · exact List.mem_singleton.1 hx ▸ ⟨c, rfl, hc⟩

end StreamItem

open StreamItem

/-- The stream that an exchange opens. -/
def Exchange.items? : Exchange runEffects → Option (List (Nat × StreamItem))
  | ⟨.ask _, answer⟩ =>
    match answer.ending with
    | .returns (.ok reply) => some reply.items
    | _ => none
  | _ => none

namespace RunTrace

variable {t u : RunTrace} {items : List (Nat × StreamItem)} {part : List String} {text : String}

/-- The streams that were opened. -/
def opened (t : RunTrace) : List (List (Nat × StreamItem)) := t.filterMap Exchange.items?

private theorem opened_append (t u : RunTrace) : opened (t ++ u) = opened t ++ opened u := List.filterMap_append ..

/-- All streams are consumed to their proper ends, and everything they said is handed out. -/
structure Settled (t : RunTrace) : Prop where
  complete : ∀ items ∈ opened t, fate items = .complete
  handed : deltas t = (opened t).flatMap heard

/-- This is the last stream, this much of what it says is handed out, and everything is settled about the others. -/
structure Consuming (t : RunTrace) (items : List (Nat × StreamItem)) (part : List String) : Prop where
  others : ∃ others, opened t = others ++ [items] ∧ (∀ other ∈ others, fate other = .complete) ∧
    deltas t = others.flatMap heard ++ part

/-- Everything is settled, and the last stream said this. -/
structure Answers (t : RunTrace) (text : String) : Prop where
  settled : Settled t
  last : ∃ items, (opened t).getLast? = some items ∧ text = String.join (heard items)

/-- Nothing but the part of the last stream is still to be handed out. -/
inductive Heard (t : RunTrace) : Prop where
  | settled (h : Settled t)
  | consuming {items : List (Nat × StreamItem)} {part : List String} (h : Consuming t items part) (hp : part <+: heard items)

/-- What is known of the streams once a turn or a run has come to an answer or to an error. -/
inductive Hears (t : RunTrace) : Except RunError String → Prop where
  | answers {text : String} (h : Answers t text) : Hears t (.ok text)
  | fails {failure : RunError} (h : Settled t) : Hears t (.error failure)
  | interrupted {items : List (Nat × StreamItem)} {e : ProviderError} (h : Consuming t items (heard items))
    (hf : fate items = .fails e) : Hears t (.error (.provider e))

/-- What a run that is at rest waits for, with what is left of it, and how much it has handed out by then: all there is;
nothing yet of the stream that it has just asked for; all before the one thing that waits for room; all before what is
left to be read; or all that a stream said before it fell silent. -/
inductive Awaits {α : Type} (t : RunTrace) (p : RunProcess α) : Prop where
  | settled (h : Settled t)
  | reply {items : List (Nat × StreamItem)} {request : Request} {answer : Reaction (Except ProviderError Reply)}
    (h : Consuming t items []) (hl : t.getLast? = some ⟨.ask request, answer⟩)
  | room {items : List (Nat × StreamItem)} {part : List String} {delta : String} {ticks : Nat}
    (h : Consuming t items part) (hp : part ++ [delta] <+: heard items) (hl : t.getLast? = some ⟨.room, .after ticks⟩)
  | item {past rest : List (Nat × StreamItem)} {spent due : Nat} {turn : Turn}
    {f : Except RunError Turn → RunProcess α} (ho : Ongoing past) (h : Consuming t (past ++ rest) (heard past))
    (hp : p = Loop.collect spent due turn rest >>= f)
  | silent {items : List (Nat × StreamItem)} (h : Consuming t items (heard items)) (hf : fate items = .silent)

private theorem Settled.append (h : Settled t) (hs : opened u = []) (hd : deltas u = []) : Settled (t ++ u) where
  complete := by rw [opened_append, hs, List.append_nil]; exact h.complete
  handed := by rw [opened_append, deltas_append, hs, hd, List.append_nil, List.append_nil]; exact h.handed

private theorem Consuming.append (h : Consuming t items part) (hs : opened u = []) {more : List String}
    (hd : deltas u = more) :
    Consuming (t ++ u) items (part ++ more) := by
  obtain ⟨others, hstreams, hcomplete, hdeltas⟩ := h.others
  exact ⟨others, by rw [opened_append, hs, List.append_nil, hstreams], hcomplete,
    by rw [deltas_append, hdeltas, hd, List.append_assoc]⟩

private theorem Answers.append (h : Answers t text) (hs : opened u = []) (hd : deltas u = []) :
    Answers (t ++ u) text where
  settled := h.settled.append hs hd
  last := by rw [opened_append, hs, List.append_nil]; exact h.last

private theorem Consuming.settled (h : Consuming t items (heard items)) (hf : fate items = .complete) : Settled t := by
  obtain ⟨others, hstreams, hcomplete, hdeltas⟩ := h.others
  refine ⟨fun other ho => ?_, ?_⟩
  · rw [hstreams] at ho
    rcases List.mem_append.1 ho with ho | ho
    · exact hcomplete other ho
    · exact List.mem_singleton.1 ho ▸ hf
  · rw [hdeltas, hstreams, List.flatMap_append, List.flatMap_singleton]

theorem Consuming.getLast? (h : Consuming t items part) : (opened t).getLast? = some items := by
  obtain ⟨others, hstreams, -⟩ := h.others
  rw [hstreams, List.getLast?_concat]

/-- A stream is opened once everything is settled about those before. -/
private theorem Settled.opens (h : Settled t) {x : Exchange runEffects} (hx : x.items? = some items)
    (hd : deltas [x] = []) :
    Consuming (t ++ [x]) items [] := by
  refine ⟨opened t, ?_, h.complete, ?_⟩
  · rw [opened_append, opened, opened, List.filterMap_cons_some hx, List.filterMap_nil]
  · rw [deltas_append, hd, List.append_nil, List.append_nil, h.handed]

private theorem settled_nil : Settled [] := ⟨by simp [opened], rfl⟩

private theorem Awaits.bind {α β : Type} {p : RunProcess α} (h : Awaits t p) (g : α → RunProcess β) :
    Awaits t (p >>= g) := by
  cases h with
  | settled h => exact .settled h
  | reply h hl => exact .reply h hl
  | room h hp hl => exact .room h hp hl
  | item ho h hp => exact .item ho h (by rw [hp]; exact LawfulMonad.bind_assoc ..)
  | silent h hf => exact .silent h hf

/-! ### Listening -/

/-- A streamed run may only ask for a stream when everything is settled, hand out what the last stream says, and save
the messages that belong to what the last stream said.  Its consumer is there whenever there is something for it. -/
def hearContract (kept : String → List Message) : Contract runEffects where
  allows t
    | .ask request => Settled t ∧ request.stream = true
    | .put delta => ∃ items part, Consuming t items part ∧ part ++ [delta] <+: heard items
    | .save _ messages => ∃ text, Answers t text ∧ messages = kept text
    | .note _ | .load _ | .room => True
  expects
    | .room, room => room ≠ .gone
    | _, _ => True
  mayHang := True

/-- Who listens keeps to this, and is at rest only as described. -/
abbrev Listens {α : Type} (kept : String → List Message) (post : RunTrace → α → Prop) (t : RunTrace)
    (p : RunProcess α) : Prop :=
  Stays (hearContract kept) Awaits post t p

variable {α β : Type} {kept : String → List Message} {p : RunProcess α}

private theorem Listens.bind {post : RunTrace → α → Prop} {post' : RunTrace → β → Prop} {f : α → RunProcess β}
    (h : Listens kept post t p) (hf : ∀ u a, post u a → Listens kept post' u (f a)) : Listens kept post' t (p >>= f) :=
  stays_bind.2 (h.imp (fun _ _ hq => hq.bind f) hf)

/-- Who only takes notes leaves everything settled. -/
private theorem Settled.listens {post : RunTrace → α → Prop} (h : Settled t) (hp : Keeps Beside.noteContract post u p) :
    Listens kept (fun v _ => Settled v) t p := by
  induction p generalizing t u with
  | done => exact h
  | act e next ih =>
    obtain ⟨⟨entry, rfl⟩, hnext⟩ := hp
    exact ⟨trivial, fun _ _ => ih () (h.append rfl rfl) (hnext () trivial)⟩
  | wait n next ih | yield next ih => exact ⟨.settled h, ih h hp⟩
  | fault => exact .settled h
  | hang => exact ⟨.settled h, trivial⟩

end RunTrace

open RunTrace

/-! ### Turns -/

namespace Loop

variable {l : Loop} {t : RunTrace} {items rest : List (Nat × StreamItem)} {request : Request}
  {kept : String → List Message}

private theorem listens_deliver {delta : String} {part : List String} (h : Consuming t items part)
    (hp : part ++ [delta] <+: heard items) :
    Listens kept (fun u r => r.1 = true ∧ Consuming u items (part ++ [delta])) t (deliver delta) := by
  refine stays_bind.2 ⟨trivial, fun room hroom => ?_⟩
  have hroomed : Consuming (t ++ [⟨.room, room⟩]) items part := by
    have := h.append (u := [⟨.room, room⟩]) rfl (show deltas _ = [] from rfl)
    rwa [List.append_nil] at this
  have hput (ticks : Nat) : Listens kept (fun u r => r.1 = true ∧ Consuming u items (part ++ [delta]))
      (t ++ [⟨.room, room⟩]) (RunProcess.put delta >>= fun _ => pure (true, ticks)) :=
    ⟨⟨items, part, hroomed, hp⟩, fun _ _ => ⟨rfl, hroomed.append rfl rfl⟩⟩
  cases room with
  | gone => exact absurd rfl hroom
  | free => exact hput 0
  | after ticks => exact ⟨.room hroomed hp List.getLast?_concat, hput ticks⟩

/-- Reading on after some chunks of a stream. -/
private theorem listens_collect (past : List (Nat × StreamItem)) {spent due : Nat} {turn : Turn} (ho : Ongoing past)
    (h : Consuming t (past ++ rest) (heard past)) (ht : turn.text = String.join (heard past)) :
    Listens kept (fun u r => Hears u (r.map (·.text))) t (collect spent due turn rest) := by
  induction rest generalizing t past spent due turn with
  | nil =>
    have hall : heard (past ++ []) = heard past := by rw [List.append_nil]
    have hcomplete : fate (past ++ []) = .complete := fate_append ho []
    rw [← hall] at h ht
    exact .answers ⟨h.settled hcomplete, _, h.getLast?, ht⟩
  | cons first rest ih =>
    obtain ⟨gap, item⟩ := first
    have hawaits : Awaits t (collect spent due turn ((gap, item) :: rest)) := .item ho h (bind_done _).symm
    unfold collect at hawaits ⊢
    refine ⟨hawaits, ?_⟩
    cases item with
    | silence =>
      have hall : heard (past ++ (gap, .silence) :: rest) = heard past :=
        (heard_append ho _).trans (List.append_nil _)
      exact ⟨.silent (hall ▸ h) (fate_append ho _), trivial⟩
    | failure e =>
      have hall : heard (past ++ (gap, .failure e) :: rest) = heard past :=
        (heard_append ho _).trans (List.append_nil _)
      exact .interrupted (hall ▸ h) (fate_append ho _)
    | chunk chunk =>
      -- whether or not there was something to hand out, this chunk is done with
      have hnext {u : RunTrace} {spent due : Nat} {turn' : Turn}
          (hu : Consuming u (past ++ (gap, .chunk chunk) :: rest) (heard past ++ contents [chunk]))
          (ht' : turn'.text = turn.text ++ chunk.content.getD "") :
          Listens kept (fun u r => Hears u (r.map (·.text))) u
            (if chunk.done then pure (.ok turn') else collect spent due turn' rest) := by
        rw [ht, ← join_contents_append] at ht'
        split
        · rename_i hdone
          have hall : heard (past ++ (gap, .chunk chunk) :: rest) = heard past ++ contents [chunk] := by
            rw [heard_append ho, heard_chunk, if_pos hdone, List.append_nil]
          have hcomplete : fate (past ++ (gap, .chunk chunk) :: rest) = .complete := by
            rw [fate_append ho, fate, if_pos hdone]
          rw [← hall] at hu ht'
          exact .answers ⟨hu.settled hcomplete, _, hu.getLast?, ht'⟩
        · rename_i hdone
          have hsofar : heard (past ++ [(gap, .chunk chunk)]) = heard past ++ contents [chunk] := by
            rw [heard_append ho, heard_chunk, if_neg hdone]
            exact congrArg _ (List.append_nil _)
          rw [List.append_cons, ← hsofar] at hu
          rw [← hsofar] at ht'
          exact ih _ (ho.concat (by simpa using hdone)) hu ht'
      have hprefix : heard past ++ contents [chunk] <+: heard (past ++ (gap, .chunk chunk) :: rest) := by
        rw [heard_append ho, heard_chunk, ← List.append_assoc]
        exact List.prefix_append ..
      dsimp only
      rw [contents_singleton] at hnext hprefix
      split
      · rename_i hempty
        rw [if_pos hempty, List.append_nil] at hnext
        exact hnext h rfl
      · rename_i hempty
        rw [if_neg hempty] at hnext hprefix
        refine (listens_deliver h hprefix).bind fun u r hr => ?_
        rw [hr.1]
        exact hnext hr.2 rfl

/-- What a request comes to: a stream is opened, or everything is still settled. -/
def Opens {ε : Type} (t : RunTrace) : Except ε Reply → Prop
  | .ok reply => Consuming t reply.items [] ∧ ∃ request answer, t.getLast? = some ⟨.ask request, answer⟩
  | .error _ => Settled t

private theorem listens_attempt (h : Settled t) (hs : request.stream = true) :
    Listens kept Opens t (attempt request) := by
  refine stays_bind.2 ⟨⟨h, hs⟩, fun answer _ => ?_⟩
  have hlast : List.getLast? (t ++ [(⟨.ask request, answer⟩ : Exchange runEffects)]) = some ⟨.ask request, answer⟩ :=
    List.getLast?_concat
  cases hx : Exchange.items? ⟨.ask request, answer⟩ with
  | some items =>
    have hopens := h.opens hx rfl
    refine stays_react (fun _ => .reply hopens hlast) (fun _ => trivial) fun r hr => ?_
    simp only [Exchange.items?, hr] at hx
    cases r with
    | error => cases hx
    | ok reply => exact ⟨Option.some.inj hx ▸ hopens, _, _, hlast⟩
  | none =>
    have hsettled : Settled (t ++ [⟨.ask request, answer⟩]) :=
      h.append (by rw [opened, List.filterMap_cons_none hx, List.filterMap_nil]) rfl
    refine stays_react (fun _ => .settled hsettled) (fun _ => trivial) fun r hr => ?_
    simp only [Exchange.items?, hr] at hx
    cases r with
    | error => exact hsettled
    | ok => cases hx

private theorem listens_attemptsFrom {made left : Nat} (h : Settled t) (hs : request.stream = true) :
    Listens kept Opens t (Retry.attemptsFrom l.policy l.draw l.record (fun _ => attempt request) made left) := by
  induction left generalizing made t with
  | zero =>
    unfold Retry.attemptsFrom
    refine (listens_attempt h hs).bind fun u r hr => ?_
    split
    · exact hr
    · exact hr
    · split <;> exact hr
  | succ left ih =>
    unfold Retry.attemptsFrom
    refine (listens_attempt h hs).bind fun u r hr => ?_
    split
    · exact hr
    · exact hr
    · split
      · dsimp only
        split
        · exact .settled hr
        · exact (Settled.listens hr (notes_record _ [])).bind fun v _ hv =>
            stays_bind.2 ⟨.settled hv, ih hv⟩
      · exact hr

private theorem listens_takeTurn (h : Settled t) (hs : request.stream = true) :
    Listens kept (fun u r => Hears u (r.map (·.text))) t (l.takeTurn request) := by
  have begins {u : RunTrace} {items : List (Nat × StreamItem)} {model : String} (hu : Consuming u items []) :
      Listens kept (fun u r => Hears u (r.map (·.text))) u (collect 0 0 ⟨"", [], none, model⟩ items) :=
    listens_collect [] (fun _ h => nomatch h) hu rfl
  refine (listens_attemptsFrom h hs).bind fun u r hr => ?_
  split
  · exact .fails hr
  · dsimp only
    rw [if_pos hs]
    exact begins hr.1
  · obtain ⟨hopened, _, _, hlast⟩ := hr
    exact ⟨.reply hopened hlast, begins hopened⟩

private theorem listens_turns {input : LoopInput} {k : Nat} {s : State} (h : Settled t) (hs : l.streams = true) :
    Listens kept (fun u r => Hears u (r.map (·.answer))) t (l.turns input k s) := by
  induction k using Nat.strongRecOn generalizing t s with
  | ind k ih =>
    rw [turns_eq]
    dsimp only
    refine (listens_takeTurn h hs).bind fun u r hr => ?_
    cases r with
    | error e =>
      cases hr with
      | fails h => exact .fails h
      | interrupted h hf => exact .interrupted h hf
    | ok turn =>
      obtain ⟨ha⟩ := hr
      have hnote (event : Event) : Listens kept (fun v _ => Answers v turn.text) u (l.record event) := by
        unfold record
        split
        · exact ⟨trivial, fun _ _ => ha.append rfl rfl⟩
        · exact ha
      refine (hnote _).bind fun v _ hnoted => ?_
      split
      · rename_i hcalls
        refine (hnoted.settled.listens (notes_playRound ..)).bind fun w r hw => ?_
        cases r with
        | error e => exact .fails hw
        | ok round =>
          have hk : k ≠ 0 := by
            rintro rfl
            cases hcalls
          exact ih (k - 1) (by omega) hw
      · exact .answers hnoted

end Loop

/-! ### Runs -/

namespace Engine

open Loop

variable {e : Engine} {command : Command} {t : RunTrace} {kept : String → List Message}

private theorem notes_admission (e : Engine) (command : Command) :
    Keeps Beside.noteContract (fun _ _ => True) t (e.admission command) :=
  prelude_admission (c := Beside.noteContract) trivial fun _ entry _ => ⟨entry, rfl⟩

private theorem notes_systemPrompt {system query : String} :
    Keeps Beside.noteContract (fun _ _ => True) t (e.systemPrompt system query) :=
  prelude_systemPrompt (c := Beside.noteContract) trivial fun _ => ⟨.retrieved query, rfl⟩

private theorem listens_history (h : Settled t) : Listens kept (fun u _ => Settled u) t (e.history command) := by
  unfold history
  split
  · exact h
  · split
    · exact h
    · refine stays_bind.2 ⟨trivial, fun answer _ => ?_⟩
      have hasked : Settled (t ++ [⟨.load command, answer⟩]) := h.append rfl rfl
      refine stays_bind.2 (stays_react (fun _ => .settled hasked) (fun _ => trivial) fun loaded _ => ?_)
      cases loaded <;> exact hasked

private theorem listens_converse (e : Engine) (command : Command) :
    Listens kept (fun u r => Hears u (r.map (·.answer))) [] (e.converse command true) := by
  refine (settled_nil.listens (notes_admission (t := []) e command)).bind fun t r ht => ?_
  split
  · exact .fails ht
  · refine (listens_history ht).bind fun u history hu => ?_
    exact (hu.listens (notes_systemPrompt (t := []))).bind fun v system hv => listens_turns hv rfl

/-- What is known where a streamed run returns: what was heard, and that an answer is kept if anything is. -/
structure HeardOut (e : Engine) (command : Command) (t : RunTrace) (r : Except RunError Outcome) : Prop where
  hears : Hears t (r.map (·.answer))
  kept {outcome : Outcome} (h : r = .ok outcome) (hk : e.keepsHistory = true) :
    ∃ answer, ⟨.save command (e.turnOf command outcome.answer), answer⟩ ∈ t

theorem listens_run (e : Engine) (command : Command) :
    Listens (e.turnOf command) (e.HeardOut command) [] (e.run command true) := by
  rw [run_eq]
  refine Listens.bind ((e.listens_converse command).both (e.keeps_converse command true) fun _ _ _ => trivial)
    fun t r ⟨hears, hanswered⟩ => ?_
  cases r with
  | error failure => exact ⟨hears, fun h => nomatch h⟩
  | ok outcome =>
    rw [settle_ok hanswered]
    split
    · obtain ⟨ha⟩ := hears
      refine ⟨⟨_, ha, rfl⟩, fun answer _ => ?_⟩
      have hsaved : Answers (t ++ [⟨.save command (e.turnOf command outcome.answer), answer⟩]) outcome.answer :=
        ha.append rfl rfl
      refine stays_bind.2 (stays_react (fun _ => .settled hsaved.settled) (fun _ => trivial) fun _ _ => ?_)
      refine ⟨.answers hsaved, fun h _ => ?_⟩
      cases h
      exact ⟨answer, List.mem_append_right _ (List.mem_singleton.2 rfl)⟩
    · rename_i hk
      exact ⟨hears, fun _ hk' => absurd hk' hk⟩

/-! ### At any time -/

section

variable {rest : RunProcess (Except RunError Outcome)}

theorem answered_of_attended (h : Attended t) : (hearContract kept).Answered t := by
  rintro ⟨e, answer⟩ hx
  cases e with
  | room => exact h _ hx
  | _ => trivial

/-- At any time in a streamed run, nothing but what the last stream says is still to be handed out. -/
theorem heard_of_leads (hl : Leads (e.run command true) t rest) (ha : Attended t) : Heard t := by
  refine (e.listens_run command).keeps.invariant Heard ?_ (.settled settled_nil) hl (answered_of_attended ha)
  intro u f answer hu hf _
  have quiet (hs : opened [⟨f, answer⟩] = []) (hd : deltas [⟨f, answer⟩] = []) : Heard (u ++ [⟨f, answer⟩]) := by
    cases hu with
    | settled h => exact .settled (h.append hs hd)
    | consuming h hp => exact .consuming (h.append hs hd) (by rwa [List.append_nil])
  cases f with
  | note | load | save | room => exact quiet rfl rfl
  | put delta =>
    obtain ⟨items, part, hc, hp⟩ := hf
    exact .consuming (hc.append rfl rfl) hp
  | ask request =>
    cases hx : Exchange.items? ⟨.ask request, answer⟩ with
    | some items => exact .consuming (hf.1.opens hx rfl) List.nil_prefix
    | none => exact .settled (hf.1.append (by rw [opened, List.filterMap_cons_none hx, List.filterMap_nil]) rfl)

/-- Whenever a streamed run is at rest, it has handed out everything that it has read, unless it waits for room. -/
theorem awaits_of_leads (hl : Leads (e.run command true) t rest) (ha : Attended t) (hr : rest.AtRest) : Awaits t rest :=
  (e.listens_run command).rests_of_leads hl (answered_of_attended ha) hr

theorem heardOut_of_leads {r : Except RunError Outcome} (hl : Leads (e.run command true) t (.done r))
    (ha : Attended t) : e.HeardOut command t r :=
  (e.listens_run command).keeps.of_leads hl (answered_of_attended ha)

end

end Engine

end AgentLoop
