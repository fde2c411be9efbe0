import AgentLoop.Proofs.Memory
import AgentLoop.Proofs.StandIn

/-!
# Best-effort collaborators fail open

A store that fails, a retriever that fails or finds nothing, and hooks that fail when they are told what has happened
are of no consequence.  Whatever is done with an engine has the same answers without that store and that retriever, and
with hooks that do not fail: the model is sent the same requests, the tools are entered at the same times, and the same
events are recorded.  Only the calls of the store and of the retriever are missing from the journal.
-/

namespace AgentLoop

open Process

/-! ### Hooks that do not fail -/

/-- All is well if it returns at all. -/
def Reaction.forgiving {ε : Type} (r : Reaction (Except ε Unit)) : Reaction (Except ε Unit) :=
  { r with
    ending :=
      match r.ending with
      | .returns _ => .returns (.ok ())
      | .faults message => .faults message
      | .hangs => .hangs }

/-- The hook as it would be if it did not fail when it is told what has happened. -/
def Hook.forgiving (h : Hook) : Hook :=
  { h with
    afterToolCall := h.afterToolCall.map fun answer context nth call result =>
      (answer context nth call result).forgiving
    afterComplete := h.afterComplete.map fun answer context result => (answer context result).forgiving }

/-- Whoever goes on without a look at the answer goes on in the same way. -/
private theorem Process.react_forgiving {S : Signature} {ε β : Type} (r : Reaction (Except ε Unit)) (p : Process S β) :
    (react r.forgiving >>= fun _ => p) = react r >>= fun _ => p := by
  obtain ⟨after, ending⟩ := r
  cases ending <;> rfl

namespace HookChain

variable {S : Signature} (note : Entry → Process S Unit) (hooks : List Hook) (context : HookContext)

private theorem beforeStart_forgiving :
    beforeStart note (hooks.map (·.forgiving)) context = beforeStart note hooks context := by
  unfold beforeStart
  rw [List.filterMap_map]
  rfl

private theorem beforeToolCall_forgiving (nth : Nat) (call : ToolCall) :
    beforeToolCall note (hooks.map (·.forgiving)) context nth call = beforeToolCall note hooks context nth call := by
  unfold beforeToolCall
  rw [List.filterMap_map]
  rfl

private theorem forM_forgiving {tell : Hook → Process S Unit} (ht : ∀ h, tell h.forgiving = tell h) :
    (hooks.map (·.forgiving)).forM tell = hooks.forM tell := by
  induction hooks with
  | nil => rfl
  | cons h rest ih =>
    show (tell h.forgiving >>= fun _ => (rest.map (·.forgiving)).forM tell) = tell h >>= fun _ => rest.forM tell
    rw [ht, ih]

private theorem afterToolCall_forgiving (nth : Nat) (call : ToolCall) (result : ToolResult) :
    afterToolCall note (hooks.map (·.forgiving)) context nth call result =
      afterToolCall note hooks context nth call result := by
  refine forM_forgiving hooks fun h => ?_
  unfold Hook.forgiving
  cases h.afterToolCall with
  | none => rfl
  | some answer => exact congrArg (note _ >>= ·) (funext fun _ => react_forgiving ..)

private theorem afterComplete_forgiving (result : ExecutionResult) :
    afterComplete note (hooks.map (·.forgiving)) context result = afterComplete note hooks context result := by
  refine forM_forgiving hooks fun h => ?_
  unfold Hook.forgiving
  cases h.afterComplete with
  | none => rfl
  | some answer => exact congrArg (note _ >>= ·) (funext fun _ => react_forgiving ..)

/-- Hooks that come to an end do not keep the others from being told. -/
private theorem leads_forM {tell : Hook → Process S Unit} {told : Hook → List (Exchange S)} {before rest : List Hook}
    (ht : ∀ h ∈ before, Leads (tell h) (told h) (done ())) :
    Leads ((before ++ rest).forM tell) (before.flatMap told) (rest.forM tell) := by
  induction before with
  | nil => exact .here _
  | cons h before ih =>
    exact (ht h (List.mem_cons_self ..)).bind_done (ih fun h' hm => ht h' (List.mem_cons_of_mem _ hm))

end HookChain

namespace Workshop

variable (w : Workshop)

def forgiving : Workshop := { w with hooks := w.hooks.map (·.forgiving) }

private theorem invoke_forgiving (nth : Nat) (call : ToolCall) : w.forgiving.invoke nth call = w.invoke nth call := by
  unfold invoke forgiving
  simp only [HookChain.afterToolCall_forgiving]

private theorem execute_forgiving (maxCalls nth : Nat) (request : CallRequest) :
    w.forgiving.execute maxCalls nth request = w.execute maxCalls nth request := by
  have hmalformed : w.forgiving.malformed request = w.malformed request := rfl
  unfold execute
  simp only [invoke_forgiving, hmalformed]
  unfold forgiving
  simp only [HookChain.beforeToolCall_forgiving]

private theorem round_forgiving (ledger : Ledger) (requests : List CallRequest) :
    w.forgiving.round ledger requests = w.round ledger requests := by
  unfold round
  simp only [execute_forgiving]

end Workshop

namespace Loop

variable (l : Loop)

def forgiving : Loop := { l with hooks := l.hooks.map (·.forgiving) }

private theorem playRound_forgiving (input : LoopInput) (ledger : Ledger) (calls : List CallRequest) :
    l.forgiving.playRound input ledger calls = l.playRound input ledger calls := by
  have hround : (l.forgiving.workshop input).round ledger calls = (l.workshop input).round ledger calls :=
    (l.workshop input).round_forgiving ledger calls
  unfold playRound
  rw [hround]

private theorem turns_forgiving (input : LoopInput) (rounds : Nat) (s : State) :
    l.forgiving.turns input rounds s = l.turns input rounds s := by
  induction rounds generalizing s with
  | zero =>
    unfold turns
    rfl
  | succ rounds ih =>
    unfold turns
    simp only [playRound_forgiving, ih]
    rfl

private theorem run_forgiving (input : LoopInput) : l.forgiving.run input = l.run input := turns_forgiving ..

end Loop

namespace Engine

/-- The engine as it would be if no hook failed when it is told what has happened. -/
def forgiving (e : Engine) : Engine := { e with hooks := e.hooks.map (·.forgiving) }

private theorem admission_forgiving (e : Engine) (command : Command) :
    e.forgiving.admission command = e.admission command := by
  unfold admission
  simp only [forgiving, HookChain.beforeStart_forgiving]
  rfl

theorem run_forgiving (e : Engine) (command : Command) (streams : Bool) :
    e.forgiving.run command streams = e.run command streams := by
  have hloop (input : LoopInput) : (e.forgiving.loop command streams).run input = (e.loop command streams).run input :=
    (e.loop command streams).run_forgiving input
  unfold run converse
  simp only [admission_forgiving, hloop]
  rfl

private theorem afterComplete_forgiving (e : Engine) (command : Command) (result : ExecutionResult) :
    e.forgiving.afterComplete command result = e.afterComplete command result :=
  HookChain.afterComplete_forgiving ..

/-! ### Doing without -/

/-- A failure, or nothing but blanks. -/
def FindsNothing (answer : Except RetrievalError String) : Prop :=
  ∀ context, answer = .ok context → Text.isBlankText context = true

/-- Whatever the query is, nothing is found, and at once. -/
def IsUseless (retrieve : String → Reaction (Except RetrievalError String)) : Prop :=
  ∀ query, ∃ answer, retrieve query = .now answer ∧ FindsNothing answer

/-- `e'` is `e` without what is out of order. -/
structure DoesWithout (o : Outage) (e' e : Engine) : Prop where
  /-- Apart from the store and the retriever, they only differ in what hooks return when they are told something. -/
  rest : ∃ store retriever retrieval, e'.forgiving =
    { e.forgiving with store, retriever, config := { e.config with retrieval } }
  store_same (h : o.store = none) : e'.store = e.store
  store_gone (h : o.store.isSome) : e'.store = none
  store_broken (h : o.store.isSome) : ∃ store, e.store = some store ∧ store.Fails
  retriever_same (h : o.retriever = false) : e'.retriever = e.retriever ∧ e'.config.retrieval = e.config.retrieval
  retriever_gone (h : o.retriever = true) : e'.retriever = none ∨ e'.config.retrieval.enabled = false
  retriever_useless (h : o.retriever = true) {retrieve : String → Reaction (Except RetrievalError String)}
    (hr : e.retriever = some retrieve) : IsUseless retrieve

/-- A search that finds nothing costs its time and nothing else. -/
private theorem systemPrompt_of_findsNothing {e : Engine} {retrieve : String → Reaction (Except RetrievalError String)}
    (hr : e.retriever = some retrieve) (henabled : e.config.retrieval.enabled = true) {query : String}
    {answer : Except RetrievalError String} (ha : (retrieve query).ending = .returns answer) (hn : FindsNothing answer)
    (system : String) :
    e.systemPrompt system query =
      RunProcess.note (.retrieved query) >>= fun _ => sleep (retrieve query).after >>= fun _ => pure system := by
  unfold systemPrompt
  rw [hr]
  dsimp only
  rw [henabled]
  refine congrArg (RunProcess.note _ >>= ·) (funext fun _ => ?_)
  unfold react
  rw [ha]
  cases answer with
  | error failure => rfl
  | ok context =>
    show wait _ (if Text.isBlankText context then pure system else pure _) = _
    rw [if_pos (hn context rfl)]
    rfl

variable {o : Outage} {e e' : Engine} (h : DoesWithout o e' e) (command : Command) (streams : Bool)

private theorem visible_admission (o : Outage) (e : Engine) :
    Keeps o.visible (fun _ _ => True) [] (e.admission command) :=
  prelude_admission (c := o.visible) trivial fun _ entry he => by cases entry <;> first | rfl | cases he

private theorem visible_loop (o : Outage) (l : Loop) (input : LoopInput) :
    Keeps o.visible (fun _ _ => True) [] (l.run input) := by
  refine (l.keeps_run input (.any _)).mono (fun u effect ha => ?_) (fun _ _ => id) id fun _ _ _ => trivial
  cases effect with
  | note entry => cases entry <;> first | rfl | exact absurd ha.1 (by simp [Entry.isOfLoop, Entry.isOfCall])
  | load | save => exact ha.elim
  | ask | room | put => rfl

private theorem visible_afterComplete (o : Outage) (e : Engine) (result : ExecutionResult) :
    Keeps o.visible (fun _ _ => True) [] (e.afterComplete command result) := by
  refine (e.keeps_afterComplete command result).mono (fun u effect ha => ?_) (fun _ _ => id) id fun _ _ => id
  obtain ⟨entry, rfl, hc⟩ := ha
  cases entry <;> first | rfl | cases hc

include h

private theorem DoesWithout.admission : e'.admission command = e.admission command := by
  obtain ⟨_, _, _, hrest⟩ := h.rest
  rw [← admission_forgiving e', ← admission_forgiving e, hrest]
  rfl

private theorem DoesWithout.loop (input : LoopInput) :
    (e'.loop command streams).run input = (e.loop command streams).run input := by
  obtain ⟨_, _, _, hrest⟩ := h.rest
  have hloop : (e'.loop command streams).forgiving = (e.loop command streams).forgiving :=
    congrArg (Engine.loop · command streams) hrest
  rw [← Loop.run_forgiving (e'.loop command streams), ← Loop.run_forgiving (e.loop command streams), hloop]

private theorem DoesWithout.keepsHistory_same (ho : o.store = none) : e'.keepsHistory = e.keepsHistory := by
  rw [Engine.keepsHistory, Engine.keepsHistory, h.store_same ho]

private theorem DoesWithout.keepsHistory_gone (ho : o.store.isSome) : e'.keepsHistory = false := by
  rw [Engine.keepsHistory, h.store_gone ho]
  rfl

private theorem DoesWithout.between : o.Between e'.partners e.partners where
  provider := by
    obtain ⟨_, _, _, hrest⟩ := h.rest
    exact congrArg (·.provider) hrest
  store_same ho := by rw [partners, partners, h.store_same ho]
  store_broken ho := by
    obtain ⟨store, hs, hf⟩ := h.store_broken ho
    rwa [partners, hs]

private theorem DoesWithout.history : Replaces o e.partners (e'.history command) (e.history command) := by
  cases ho : o.store with
  | none =>
    have heq : e'.history command = e.history command := by
      unfold Engine.history
      rw [h.keepsHistory_same ho]
    have hload (command : Command) : o.answer? (.load command) = none := by simp [Outage.answer?, ho]
    rw [heq]
    exact replaces_of_keeps (prelude_history (t := []) (c := o.visible) trivial fun _ => hload)
  | some failures =>
    have hload (command : Command) : o.answer? (.load command) = some (.now (.error failures.1)) := by
      simp [Outage.answer?, ho]
    obtain ⟨store, hs, hfails⟩ := h.store_broken (ho ▸ rfl)
    unfold Engine.history
    rw [h.keepsHistory_gone (ho ▸ rfl), Engine.keepsHistory, hs]
    split
    · exact replaces_pure _
    · refine replaces_act (hload command) rfl (fun s => ?_) fun answer => ?_
      · obtain ⟨failure, hf⟩ := hfails.load s.world.operations s.world.store command
        have hanswer : (Effect.perform e.partners (.load command) s).1 = .now (.error failure) := by
          simp [Effect.perform, partners, hs, hf]
        rw [hanswer]
        rfl
      · exact (indifferent_react _).bind fun loaded => by cases loaded <;> trivial

private theorem DoesWithout.systemPrompt (system query : String) :
    Replaces o e.partners (e'.systemPrompt system query) (e.systemPrompt system query) := by
  cases ho : o.retriever with
  | false =>
    have heq : e'.systemPrompt system query = e.systemPrompt system query := by
      unfold Engine.systemPrompt
      rw [(h.retriever_same ho).1, (h.retriever_same ho).2]
    have hnote (query : String) : o.answer? (.note (.retrieved query)) = none := by
      simp [Outage.answer?, Outage.hides, ho]
    rw [heq]
    exact replaces_of_keeps (prelude_systemPrompt (t := []) (c := o.visible) trivial fun _ => hnote query)
  | true =>
    have hnote (query : String) : o.answer? (.note (.retrieved query)) = some () := by
      simp [Outage.answer?, Outage.hides, ho]
    have heq : e'.systemPrompt system query = pure system := by
      unfold Engine.systemPrompt
      rcases h.retriever_gone ho with hgone | hgone
      · rw [hgone]
      · rw [hgone]
        split <;> rfl
    rw [heq]
    cases hr : e.retriever with
    | none =>
      unfold Engine.systemPrompt
      rw [hr]
      exact replaces_pure _
    | some retrieve =>
      cases henabled : e.config.retrieval.enabled with
      | false =>
        unfold Engine.systemPrompt
        rw [hr, henabled]
        exact replaces_pure _
      | true =>
        obtain ⟨answer, hanswer, hnothing⟩ := h.retriever_useless ho hr query
        rw [systemPrompt_of_findsNothing hr henabled (hanswer ▸ rfl) hnothing, hanswer]
        exact replaces_act (hnote query) rfl (fun _ => rfl) fun _ => trivial

private theorem DoesWithout.keep (outcome : Outcome) :
    Replaces o e.partners (e'.keep command outcome) (e.keep command outcome) := by
  cases ho : o.store with
  | none =>
    have heq : e'.keep command outcome = e.keep command outcome := by
      unfold Engine.keep
      rw [h.keepsHistory_same ho]
    have hsave (command : Command) (messages : List Message) : o.answer? (.save command messages) = none := by
      simp [Outage.answer?, ho]
    rw [heq]
    exact replaces_of_keeps (keeps_keep (t := []) (c := o.visible) trivial (fun _ => hsave) e command outcome)
  | some failures =>
    have heq : e'.keep command outcome = pure () := by
      unfold Engine.keep
      rw [h.keepsHistory_gone (ho ▸ rfl)]
      rfl
    have hsave (command : Command) (messages : List Message) :
        o.answer? (.save command messages) = some (.now (.error failures.2)) := by
      simp [Outage.answer?, ho]
    obtain ⟨store, hs, hfails⟩ := h.store_broken (ho ▸ rfl)
    rw [heq, Engine.keep, Engine.keepsHistory, hs]
    split
    · exact replaces_pure _
    · split
      · rename_i user answer _ _
        refine replaces_act (hsave command [user, answer]) rfl (fun s => ?_) fun answer => ?_
        · obtain ⟨failure, hf⟩ := hfails.save s.world.operations s.world.store command [user, answer]
          have hanswer : (Effect.perform e.partners (.save command [user, answer]) s).1 = .now (.error failure) := by
            simp [Effect.perform, partners, hs, hf]
          rw [hanswer]
          rfl
        · exact (indifferent_react _).bind fun _ => trivial
      · exact replaces_pure _

private theorem DoesWithout.settle (r : Except RunError Outcome) :
    Replaces o e.partners (e'.settle command r) (e.settle command r) := by
  cases r with
  | error failure => exact replaces_pure _
  | ok outcome => exact (h.keep command outcome).bind fun _ => replaces_pure _

private theorem DoesWithout.run : Replaces o e.partners (e'.run command streams) (e.run command streams) := by
  rw [run_eq, run_eq]
  refine Replaces.bind (Replaces.bind ?_ fun r => ?_) (h.settle command)
  · rw [h.admission]
    exact replaces_of_keeps (visible_admission command o e)
  · cases r with
    | error => exact replaces_pure _
    | ok context =>
      refine (h.history command).bind fun history => (h.systemPrompt _ _).bind fun system => ?_
      rw [h.loop]
      exact replaces_of_keeps (visible_loop o _ _)

private theorem DoesWithout.standsIn : StandsIn o e' e := by
  obtain ⟨_, _, _, hrest⟩ := h.rest
  have same {α : Type} (f : Engine → α) : f e'.forgiving = f _ := congrArg f hrest
  refine ⟨h.between, same (·.recordsEvents), same (·.deadline), same (·.permits),
    fun command streams => ⟨(h.run command streams).eq, (h.run command streams).indifferent⟩, fun command result => ?_⟩
  have hafter : e'.afterComplete command result = e.afterComplete command result := by
    rw [← afterComplete_forgiving e', ← afterComplete_forgiving e, hrest]
    rfl
  have hreplaces : Replaces o e.partners _ _ := replaces_of_keeps (visible_afterComplete command o e result)
  rw [hafter]
  exact ⟨hreplaces.eq, hreplaces.indifferent⟩

end Engine

/-! ### Who is told -/

/-- It comes to an end, in success or in failure. -/
def Reaction.Returns {α : Type} (r : Reaction α) : Prop := ∃ a, r.ending = .returns a

private theorem Reaction.Returns.leads {S : Signature} {α β : Type} {r : Reaction α} (h : r.Returns) (p : Process S β) :
    Leads (react r >>= fun _ => p) [] p := by
  obtain ⟨after, ending⟩ := r
  obtain ⟨a, ha⟩ := h
  cases ha
  exact .wait (.here _)

namespace Hook

variable (context : HookContext)

/-- What the journal has of telling a hook about a tool call. -/
def toldOfCall (call : ToolCall) (result : ToolResult) (h : Hook) : List Entry :=
  match h.afterToolCall with
  | none => []
  | some _ => [.afterToolCall h.name context call result]

/-- What the journal has of telling a hook about a result. -/
def toldOfCompletion (result : ExecutionResult) (h : Hook) : List Entry :=
  match h.afterComplete with
  | none => []
  | some _ => [.afterComplete h.name context result, .afterCompleteEnd h.name]

end Hook

namespace HookChain

variable {context : HookContext} {before rest : List Hook}

/-- Hooks that fail do not keep the others from being told. -/
private theorem leads_afterToolCall {nth : Nat} {call : ToolCall} {result : ToolResult}
    (hr : ∀ h ∈ before, ∀ answer, h.afterToolCall = some answer → (answer context nth call result).Returns) :
    Leads (afterToolCall Task.note (before ++ rest) context nth call result)
      (before.flatMap fun h => (h.toldOfCall context call result).map fun entry => ⟨.entry entry, ()⟩)
      (afterToolCall Task.note rest context nth call result) := by
  refine leads_forM fun h hm => ?_
  have hr := hr h hm
  unfold Hook.toldOfCall
  cases ha : h.afterToolCall with
  | none => exact .here _
  | some answer => exact .act ((hr answer ha).leads (done ()))

private theorem leads_afterComplete {result : ExecutionResult}
    (hr : ∀ h ∈ before, ∀ answer, h.afterComplete = some answer → (answer context result).Returns) :
    Leads (afterComplete RunProcess.note (before ++ rest) context result)
      (before.flatMap fun h => (h.toldOfCompletion context result).map fun entry => ⟨.note entry, ()⟩)
      (afterComplete RunProcess.note rest context result) := by
  refine leads_forM fun h hm => ?_
  have hr := hr h hm
  unfold Hook.toldOfCompletion
  cases ha : h.afterComplete with
  | none => exact .here _
  | some answer =>
    exact .act ((hr answer ha).leads (RunProcess.note (.afterCompleteEnd h.name)) |>.trans (.act (.here _)))

end HookChain

namespace Engine

variable {o : Outage} {e e' : Engine}

/-- What is out of order is of no consequence. -/
structure FailsOpen (o : Outage) (e' e : Engine) : Prop where
  /-- Whatever is done has the same answers, and leaves the same behind but for the calls of what is out of order. -/
  performs {store : Store} {s : Service} (ho : e.open? store = some s) (actions : List Action) :
    e'.open? store = some s ∧
      e'.performAll actions s = (e.performAll actions s).map fun (answers, t) => (answers, t.without o)
  /-- Whoever else is served, step by step they do the same, if nobody who is under way cares what is said by those who
  are out of order; and nobody who joins them does. -/
  steps {s : Service} (hs : s.Indifferent o e.partners) :
    e'.step? (s.without o) = (e.step? s).map (·.without o) ∧ ∀ t, e.step? s = some t → t.Indifferent o e.partners
  /-- Nobody can care if always the same is said. -/
  constant (hc : ∀ (effect : Effect) (answer : effect.Answer), o.answer? effect = some answer →
    ∀ scene, (effect.perform e.partners scene).1 = answer) (s : Service) : s.Indifferent o e.partners
  /-- A retriever that takes its time before it fails or finds nothing costs that time only. -/
  searches {retrieve : String → Reaction (Except RetrievalError String)} {query : String}
    {answer : Except RetrievalError String} (hr : e.retriever = some retrieve)
    (henabled : e.config.retrieval.enabled = true) (ha : (retrieve query).ending = .returns answer)
    (hn : FindsNothing answer) (system : String) :
    e.systemPrompt system query =
      RunProcess.note (.retrieved query) >>= fun _ => sleep (retrieve query).after >>= fun _ => pure system
  /-- Hooks that fail when they are told of a tool call do not keep the others from being told the same, -/
  toldOfCall {context : HookContext} {nth : Nat} {call : ToolCall} {result : ToolResult} {before rest : List Hook}
    (hh : e.hooks = before ++ rest)
    (hr : ∀ h ∈ before, ∀ answer, h.afterToolCall = some answer → (answer context nth call result).Returns) :
    Leads (HookChain.afterToolCall Task.note e.hooks context nth call result)
      (before.flatMap fun h => (h.toldOfCall context call result).map fun entry => ⟨.entry entry, ()⟩)
      (HookChain.afterToolCall Task.note rest context nth call result)
  /-- nor do those that fail when they are told of a result. -/
  toldOfCompletion {command : Command} {result : ExecutionResult} {before rest : List Hook}
    (hh : e.hooks = before ++ rest)
    (hr : ∀ h ∈ before, ∀ answer, h.afterComplete = some answer → (answer (hookContext command) result).Returns) :
    Leads (e.afterComplete command result)
      (before.flatMap fun h => (h.toldOfCompletion (hookContext command) result).map fun entry => ⟨.note entry, ()⟩)
      (HookChain.afterComplete RunProcess.note rest (hookContext command) result)

/-- Without what is out of order, and with hooks that do not fail when they are told something, everything goes the
same way. -/
theorem fails_open (h : DoesWithout o e' e) : FailsOpen o e' e where
  performs {store s} ho actions := by
    have he := h.standsIn
    have hbuildable : e'.isBuildable = e.isBuildable := by rw [isBuildable, isBuildable, he.permits]
    obtain ⟨hb, rfl⟩ := open?_eq_some.1 ho
    have hlacks : Service.Lacks o e.partners { world := { store }, free := e.permits }
        { world := { store }, free := e.permits } := ⟨by simp [Service.without, World.without],
      fun inv hm => absurd hm List.not_mem_nil⟩
    exact ⟨open?_eq_some.2 ⟨hbuildable.trans hb, by rw [he.permits]⟩, (he.performAll hlacks actions).map_eq⟩
  steps {s} hs := by
    have he := h.standsIn
    unfold step?
    rw [Service.next?_without]
    cases s.next? with
    | none => exact ⟨rfl, fun _ h => by cases h⟩
    | some slot =>
      have hrel := he.stepAt? ⟨rfl, hs⟩ slot
      show e'.stepAt? (s.without o) slot = (e.stepAt? s slot).map _ ∧ ∀ t, e.stepAt? s slot = some t → _
      revert hrel
      generalize e'.stepAt? (s.without o) slot = t', e.stepAt? s slot = t
      intro hrel
      cases hrel with
      | none => exact ⟨rfl, fun _ h => by cases h⟩
      | some ht => exact ⟨congrArg some ht.eq, fun _ h => Option.some.inj h ▸ ht.indifferent⟩
  constant hc s inv _ := by
    unfold Stage.Indifferent
    split
    · exact indifferent_of_constant hc _
    · exact indifferent_of_constant hc _
    · trivial
  searches hr henabled ha hn system := systemPrompt_of_findsNothing hr henabled ha hn system
  toldOfCall hh hr := hh ▸ HookChain.leads_afterToolCall hr
  toldOfCompletion hh hr := by
    unfold Engine.afterComplete
    rw [hh]
    exact HookChain.leads_afterComplete hr

/-- A hook that always comes to the same when it is told something. -/
def reporter (answer : Except HookError Unit) : Hook where
  name := "audit"
  afterToolCall := some fun _ _ _ _ => .now answer
  afterComplete := some fun _ _ => .now answer

/-- A store that is down, and first fails for want of a session. -/
def outOfOrder : ConversationStore where
  load earlier _ _ := .now (.error (if earlier.isEmpty then .missingSession else .storage "down"))
  save earlier kept _ _ := (.now (.error (if earlier.isEmpty then .missingSession else .storage "down")), kept)

/-- An engine with nothing but failures around its model. -/
def unlucky : Engine :=
  { greeter with
    hooks := [reporter (.error ⟨"audit", "down"⟩), reporter (.ok ())]
    store := some outOfOrder
    retriever := some fun _ => .now (.error ⟨"down"⟩) }

/-- The same without anything that could fail. -/
def carefree : Engine :=
  { greeter with
    hooks := [reporter (.ok ()), reporter (.ok ())]
    store := none }

def blackout : Outage := ⟨some (.storage "down", .storage "down"), true⟩

/-- A service of the unlucky engine. -/
def unluckily : Service where
  world := { store := { kind := .inMemory none } }
  free := unlucky.permits

theorem fails_open_unlucky : FailsOpen blackout carefree unlucky ∧
    unlucky.open? unluckily.world.store = some unluckily ∧
    ∃ t, unlucky.step? { unluckily with invocations := [greeting] } = some t ∧ t.Succeeded 0 ∧
      carefree.step? { unluckily with invocations := [greeting] } = some (t.without blackout) := by
  have hopens : FailsOpen blackout carefree unlucky := fails_open {
    rest := ⟨none, none, {}, rfl⟩
    store_same := nofun
    store_gone := fun _ => rfl
    store_broken := fun _ => ⟨_, rfl, fun _ _ _ => ⟨_, rfl⟩, fun _ _ _ _ => ⟨_, rfl⟩⟩
    retriever_same := nofun
    retriever_gone := fun _ => .inl rfl
    retriever_useless := fun _ _ hr query => ⟨.error ⟨"down"⟩, by cases hr; rfl, nofun⟩ }
  have hstep : (unlucky.step? { unluckily with invocations := [greeting] }).isSome = true := by decide +kernel
  obtain ⟨t, ht⟩ := Option.isSome_iff_exists.1 hstep
  have hidle : Service.Indifferent blackout unlucky.partners { unluckily with invocations := [greeting] } := by
    intro inv hm
    obtain rfl := List.mem_singleton.1 hm
    trivial
  have hcarefree := (hopens.steps hidle).1
  rw [ht] at hcarefree
  refine ⟨hopens, open?_eq_some.2 ⟨by decide +kernel, rfl⟩, t, ht, ?_, hcarefree⟩
  have hs : (unlucky.step? { unluckily with invocations := [greeting] }).any (fun t =>
      t.invocations[0]?.any fun inv => inv.stage.report?.any (·.result.success)) = true := by decide +kernel
  rw [ht, Option.any_some] at hs
  obtain ⟨inv, hinv, hs⟩ := (Option.any_eq_true ..).1 hs
  obtain ⟨report, hreport, hs⟩ := (Option.any_eq_true ..).1 hs
  exact ⟨inv, report, hinv, hreport, hs⟩

end Engine

end AgentLoop
