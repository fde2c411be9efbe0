import AgentLoop.Proofs.Executions
import AgentLoop.Proofs.Timelines
import Mathlib.Data.List.Nodup

/-!
# Executions that return

The body of a tool that is entered for a call returns when the hooks that were to be asked have answered and the tool
has had its time, if it does return.  Exactly then the tool is marked as used, and exactly for such a call one event
says that the tool was executed, and whether the result of the call is a success.  In a round the marks come in the
order in which the executions return.  Whatever the schedule of a round, they are those of the same calls.
-/

namespace AgentLoop

open Process

/-! ### Consulting hooks takes time -/

namespace Hook

variable (h : Hook) (context : HookContext) (nth : Nat) (call : ToolCall)

/-- How long it takes to consult the hook on a call. -/
def delay : Nat :=
  match h.beforeToolCall with
  | none => 0
  | some answer => (answer context nth call).after

private theorem timelineFrom_consult (now : Nat) : (h.consult context nth call).timelineFrom now =
    ⟨(h.consultation? context call).toList.map fun beat => (now, beat), now + h.delay context nth call,
      h.verdict context nth call⟩ := by
  unfold consult delay verdict consultation?
  cases h.beforeToolCall with
  | none => rfl
  | some answer =>
    have hnote : (Task.note (.beforeToolCall h.name context call) >>= fun _ => react (answer context nth call)).timelineFrom
        now = ((react (answer context nth call)).timelineFrom now).after [(now, .entry (.beforeToolCall h.name context call))] :=
      rfl
    rw [hnote, timelineFrom_react]
    rfl

end Hook

namespace HookChain

variable {context : HookContext} {nth : Nat} {call : ToolCall} {hooks asked : List Hook}
  {answer : Except HookError Verdict}

/-- How long it takes to consult these hooks one after the other. -/
def waited (context : HookContext) (nth : Nat) (call : ToolCall) (asked : List Hook) : Nat :=
  asked.foldr (fun h ticks => h.delay context nth call + ticks) 0

/-- What a consultation of hooks comes to after this time, with nothing but consultations on the way. -/
def Comes (context : HookContext) (nth : Nat) (call : ToolCall) (hooks : List Hook) (now ticks : Nat)
    (answer : Except HookError Verdict) : Prop :=
  ∃ consulted : List (Nat × Beat), (∀ beat ∈ consulted, beat.2.isConsultation = true) ∧
    (beforeToolCall Task.note hooks context nth call).timelineFrom now = ⟨consulted, now + ticks, .returns answer⟩

private theorem isConsultation_of_consulted (h : Hook) (now : Nat) :
    ∀ beat ∈ (h.consultation? context call).toList.map fun beat => (now, beat), beat.2.isConsultation = true := by
  intro beat hbeat
  obtain ⟨own, hown, rfl⟩ := List.mem_map.1 hbeat
  have hconsultation : own ∈ consultations context call [h] := by
    rw [consultations_cons]
    exact List.mem_append_left _ hown
  exact isConsultation_of_mem hconsultation

/-- Whoever lets a call proceed leaves it to the next. -/
private theorem comes_cons_of_clears {h : Hook} {now ticks : Nat} (hc : h.Clears context nth call)
    (hr : Comes context nth call hooks (now + h.delay context nth call) ticks answer) :
    Comes context nth call (h :: hooks) now (h.delay context nth call + ticks) answer := by
  obtain ⟨consulted, hconsulted, hrest⟩ := hr
  refine ⟨((h.consultation? context call).toList.map fun beat => (now, beat)) ++ consulted, ?_, ?_⟩
  · intro beat hbeat
    rcases List.mem_append.1 hbeat with hbeat | hbeat
    · exact isConsultation_of_consulted h now beat hbeat
    · exact hconsulted beat hbeat
  · have hverdict : h.verdict context nth call = .returns (.ok .proceed) := hc
    rw [beforeToolCall_cons, timelineFrom_bind, Hook.timelineFrom_consult, Timeline.andThen_of_returns hverdict,
      ← Nat.add_assoc]
    exact congrArg (Timeline.after _) hrest

/-- Whoever decides otherwise has the last word. -/
private theorem comes_cons_of_decides {h : Hook} (hv : h.verdict context nth call = .returns answer)
    (hne : answer ≠ .ok .proceed) (now : Nat) :
    Comes context nth call (h :: hooks) now (h.delay context nth call) answer := by
  refine ⟨(h.consultation? context call).toList.map fun beat => (now, beat), isConsultation_of_consulted h now, ?_⟩
  rw [beforeToolCall_cons, timelineFrom_bind, Hook.timelineFrom_consult, Timeline.andThen_of_returns hv]
  match answer, hne with
  | .ok .proceed, hne => exact absurd rfl hne
  | .error _, _ | .ok (.reject _), _ | .ok (.modify _), _ | .ok (.pending _), _ => exact Timeline.after_of_no_beats ..

private theorem Decides.comes (hd : Decides context nth call hooks asked answer) (now : Nat) :
    Comes context nth call hooks now (waited context nth call asked) answer := by
  have clears {before rest asked : List Hook} (hb : ∀ g ∈ before, g.Clears context nth call)
      (hr : ∀ now, Comes context nth call rest now (waited context nth call asked) answer) (now : Nat) :
      Comes context nth call (before ++ rest) now (waited context nth call (before ++ asked)) answer := by
    induction before generalizing now with
    | nil => exact hr now
    | cons g before ih =>
      exact comes_cons_of_clears (hb g (List.mem_cons_self ..)) (ih (fun g' hg => hb g' (List.mem_cons_of_mem _ hg)) _)
  cases hd with
  | all hb =>
    have hnone (now : Nat) : Comes context nth call [] now (waited context nth call []) (.ok .proceed) :=
      ⟨[], by simp, rfl⟩
    simpa using clears hb hnone now
  | @first before after h answer hb hv hne =>
    exact clears hb (fun now => comes_cons_of_decides hv hne now) now

end HookChain

/-! ### What beats say of executions -/

namespace Beat

/-- The tool that is marked as used. -/
def used? : Beat → Option String
  | .used tool => some tool
  | .entry _ => none

/-- What the entry of a beat says. -/
def tells? {γ : Type} (read : Entry → Option γ) : Beat → Option γ
  | .entry e => read e
  | .used _ => none

/-- A hook is told of the result of a call. -/
def isReport : Beat → Bool
  | .entry (.afterToolCall ..) => true
  | _ => false

end Beat

/-- The tool that was executed, and whether that was a success. -/
def Entry.executed? : Entry → Option (String × Bool)
  | .event (.toolExecuted tool success ..) => some (tool, success)
  | _ => none

/-- The tool whose body is entered. -/
def Entry.entered? : Entry → Option String
  | .entered tool _ => some tool
  | _ => none

/-- The tools that are marked, each with the time of its mark. -/
def marksIn (beats : List (Nat × Beat)) : List (Nat × String) :=
  beats.filterMap fun beat => beat.2.used?.map fun tool => (beat.1, tool)

/-- What the entries of these beats say. -/
def toldIn {γ : Type} (read : Entry → Option γ) (beats : List (Nat × Beat)) : List γ :=
  beats.filterMap fun beat => beat.2.tells? read

private theorem marksIn_append (beats more : List (Nat × Beat)) :
    marksIn (beats ++ more) = marksIn beats ++ marksIn more :=
  List.filterMap_append ..

private theorem toldIn_append {γ : Type} (read : Entry → Option γ) (beats more : List (Nat × Beat)) :
    toldIn read (beats ++ more) = toldIn read beats ++ toldIn read more := List.filterMap_append ..

/-- Nothing of an execution but that hooks are consulted before or told afterwards. -/
def Beat.IsAside (beat : Beat) : Prop :=
  beat.used? = none ∧ beat.tells? Entry.executed? = none ∧ beat.tells? Entry.entered? = none

private theorem Beat.isAside_of_isConsultation {beat : Beat} (h : beat.isConsultation = true) : beat.IsAside := by
  cases beat with
  | used => cases h
  | entry entry => cases entry <;> first | exact ⟨rfl, rfl, rfl⟩ | cases h

private theorem Beat.isAside_of_isReport {beat : Beat} (h : beat.isReport = true) : beat.IsAside := by
  cases beat with
  | used => cases h
  | entry entry => cases entry <;> first | exact ⟨rfl, rfl, rfl⟩ | cases h

namespace Workshop

variable {w : Workshop} {maxCalls nth : Nat} {request : CallRequest} {given arguments : Json} {asked : List Hook}
  {tool : Tool} {call : ToolCall} {result : ToolResult}

/-! ### One call -/

/-- The result of a call whose execution returned this. -/
def resultOf (id : String) : Except ToolError String → ToolResult
  | .ok output => ⟨id, true, output⟩
  | .error e => ⟨id, false, "Error: " ++ e.message⟩

/-- What is done about the result of an execution. -/
def report (w : Workshop) (nth : Nat) (call : ToolCall) (result : ToolResult) : Task ToolResult := do
  HookChain.afterToolCall Task.note w.hooks w.context nth call result
  if w.recordsEvents then Task.note (.event (.toolExecuted call.name result.success))
  return result

private theorem work_eq (w : Workshop) (nth : Nat) (call : ToolCall) (tool : Tool) :
    w.work nth call tool = react (tool.execute nth call.arguments) >>= fun outcome =>
      Task.markUsed call.name >>= fun _ => w.report nth call (resultOf call.id outcome) := by
  unfold work report
  refine congrArg (react (tool.execute nth call.arguments) >>= ·) (funext fun outcome => ?_)
  cases outcome <;> rfl

/-- Work comes to a result only if the body returns. -/
private theorem returns_of_work {now : Nat} (h : ((w.work nth call tool).timelineFrom now).ending = .returns result) :
    ∃ outcome, (tool.execute nth call.arguments).ending = .returns outcome := by
  rw [work_eq, timelineFrom_bind, timelineFrom_react] at h
  unfold Timeline.andThen at h
  cases he : (tool.execute nth call.arguments).ending with
  | returns outcome => exact ⟨outcome, rfl⟩
  | faults | hangs =>
    rw [he] at h
    cases h

/-- The event that is recorded of an execution. -/
def recorded (w : Workshop) (call : ToolCall) (result : ToolResult) : List Beat :=
  if w.recordsEvents then [.entry (.event (.toolExecuted call.name result.success))] else []

/-- Hooks are told of the result, which they do not change, and then it is recorded. -/
private theorem timelineFrom_report (w : Workshop) (nth : Nat) (call : ToolCall) (result : ToolResult) (now : Nat)
    {final : ToolResult} (hr : ((w.report nth call result).timelineFrom now).ending = .returns final) :
    final = result ∧ ∃ told : List (Nat × Beat), (∀ beat ∈ told, beat.2.isReport = true) ∧
      ∃ later, ((w.report nth call result).timelineFrom now).beats =
        told ++ (w.recorded call result).map fun beat => (later, beat) := by
  have htold : ∀ beat ∈ ((HookChain.afterToolCall Task.note w.hooks w.context nth call result).timelineFrom now).beats,
      beat.2.isReport = true := by
    have hkeeps : Keeps (.ofAllows fun _ (beat : Beat) => beat.isReport = true) (fun _ _ => True) []
        (HookChain.afterToolCall Task.note w.hooks w.context nth call result) := by
      refine HookChain.keeps_forM (fun _ => True) (fun h _ u _ => ?_) trivial
      split
      · trivial
      · refine keeps_bind.2 ⟨rfl, fun _ _ => keeps_bind.2 (keeps_react.2 ⟨fun _ => trivial, fun _ _ => trivial⟩)⟩
    intro beat hbeat
    have hleads : Leads _ (notesOf _) _ := leads_timelineFrom
      (HookChain.afterToolCall Task.note w.hooks w.context nth call result) now
    obtain ⟨u, v, huv⟩ := List.append_of_mem hbeat
    rw [huv, notesOf, List.map_append, List.map_cons] at hleads
    exact hkeeps.allows_of_leads hleads fun _ _ => trivial
  have hlast (later : Nat) : (do
      if w.recordsEvents then Task.note (.event (.toolExecuted call.name result.success))
      return result : Task ToolResult).timelineFrom later =
      ⟨(w.recorded call result).map fun beat => (later, beat), later, .returns result⟩ := by
    unfold recorded
    cases w.recordsEvents <;> rfl
  have hreport : w.report nth call result =
      HookChain.afterToolCall Task.note w.hooks w.context nth call result >>= fun _ => do
        if w.recordsEvents then Task.note (.event (.toolExecuted call.name result.success))
        return result := rfl
  rw [hreport, timelineFrom_bind] at hr ⊢
  generalize (HookChain.afterToolCall Task.note w.hooks w.context nth call result).timelineFrom now = t at htold hr ⊢
  unfold Timeline.andThen at hr ⊢
  cases he : t.ending with
  | faults | hangs =>
    rw [he] at hr
    cases hr
  | returns =>
    rw [he] at hr
    dsimp only at hr ⊢
    rw [hlast] at hr ⊢
    exact ⟨(Ending.returns.inj hr).symm, t.beats, htold, t.length, rfl⟩

/-- The body that is entered for a call returns, at this time, with this. -/
inductive Returned (w : Workshop) (maxCalls nth : Nat) (request : CallRequest) : Nat → Except ToolError String → Prop where
  | intro {given arguments : Json} {asked : List Hook} {tool : Tool} {outcome : Except ToolError String}
    (h : w.Admits maxCalls nth request given asked arguments) (ht : w.tools.get? request.name = some tool)
    (he : (tool.execute nth arguments).ending = .returns outcome) :
    Returned w maxCalls nth request
      (HookChain.waited w.context nth (callOf request given) asked + (tool.execute nth arguments).after) outcome

/-- A call that passes all gates enters the body once the hooks that were asked have answered. -/
private theorem Admits.timelineFrom (h : w.Admits maxCalls nth request given asked arguments)
    (ht : w.tools.get? request.name = some tool) (now : Nat) :
    ∃ consulted : List (Nat × Beat), (∀ beat ∈ consulted, beat.2.isConsultation = true) ∧
      ∃ later, later = now + HookChain.waited w.context nth (callOf request given) asked ∧
        (w.execute maxCalls nth request).timelineFrom now =
          ((w.work nth (callOf request arguments) tool).timelineFrom later).after
            (consulted ++ [(later, .entry (.entered request.name arguments))]) := by
  have hinvoke (arguments : Json) : w.invoke nth (callOf request arguments) =
      .act (.entry (.entered request.name arguments)) fun _ => w.work nth (callOf request arguments) tool :=
    invoke_of_known ht
  have hentered {answer : Except HookError Verdict}
      (hd : HookChain.Decides w.context nth (callOf request given) w.hooks asked answer)
      (hr : w.ruledOn nth request given answer = w.invoke nth (callOf request arguments)) :
      ∃ consulted : List (Nat × Beat), (∀ beat ∈ consulted, beat.2.isConsultation = true) ∧
        ∃ later, later = now + HookChain.waited w.context nth (callOf request given) asked ∧
          (w.execute maxCalls nth request).timelineFrom now =
            ((w.work nth (callOf request arguments) tool).timelineFrom later).after
              (consulted ++ [(later, .entry (.entered request.name arguments))]) := by
    obtain ⟨consulted, hconsulted, htimeline⟩ := hd.comes now
    refine ⟨consulted, hconsulted, _, rfl, ?_⟩
    rw [execute_of_reads h.counted h.reads, timelineFrom_bind, htimeline, Timeline.andThen_of_returns rfl, hr, hinvoke,
      ← Timeline.after_after]
    rfl
  cases h.lets with
  | unchanged hd => exact hentered hd rfl
  | modified hd => exact hentered hd rfl

/-- What a call leaves behind whose body returned, and what it comes to. -/
structure Executed (w : Workshop) (request : CallRequest) (time : Nat) (outcome : Except ToolError String)
    (beats : List (Nat × Beat)) (result : ToolResult) : Prop where
  result_eq : result = resultOf request.id outcome
  /-- The tool is marked once, as it returns. -/
  marks : marksIn beats = [(time, request.name)]
  executed : toldIn Entry.executed? beats = if w.recordsEvents then [(request.name, result.success)] else []
  entered : toldIn Entry.entered? beats = [request.name]

/-- What a call leaves behind for which no body returned. -/
structure Unexecuted (beats : List (Nat × Beat)) : Prop where
  marks : marksIn beats = []
  executed : toldIn Entry.executed? beats = []
  entered : toldIn Entry.entered? beats = []

private theorem unexecuted_of_isAside {beats : List (Nat × Beat)} (h : ∀ beat ∈ beats, beat.2.IsAside) :
    Unexecuted beats where
  marks := List.filterMap_eq_nil_iff.2 fun beat hbeat => by rw [(h beat hbeat).1, Option.map_none]
  executed := List.filterMap_eq_nil_iff.2 fun beat hbeat => (h beat hbeat).2.1
  entered := List.filterMap_eq_nil_iff.2 fun beat hbeat => (h beat hbeat).2.2

theorem Returned.executed {time : Nat} {outcome : Except ToolError String} (h : w.Returned maxCalls nth request time outcome)
    (hr : (w.execute maxCalls nth request).timeline.ending = .returns result) :
    w.Executed request time outcome (w.execute maxCalls nth request).timeline.beats result := by
  cases h with
  | @intro given arguments asked tool outcome h ht he =>
    obtain ⟨consulted, hconsulted, start, hstart, htimeline⟩ := h.timelineFrom ht 0
    rw [Nat.zero_add] at hstart
    have hbefore := unexecuted_of_isAside fun beat hbeat => Beat.isAside_of_isConsultation (hconsulted beat hbeat)
    unfold Process.timeline at hr ⊢
    rw [htimeline] at hr ⊢
    have hwork : (w.work nth (callOf request arguments) tool).timelineFrom start =
        ((w.report nth (callOf request arguments) (resultOf request.id outcome)).timelineFrom
          (start + (tool.execute nth arguments).after)).after
            [(start + (tool.execute nth arguments).after, .used request.name)] := by
      rw [work_eq, timelineFrom_bind, timelineFrom_react]
      exact Timeline.andThen_of_returns he _
    rw [hwork] at hr ⊢
    obtain ⟨rfl, told, htold, later, hbeats⟩ := timelineFrom_report _ _ _ _ _ hr
    have hafter := unexecuted_of_isAside fun beat hbeat => Beat.isAside_of_isReport (htold beat hbeat)
    rw [← hstart]
    unfold Timeline.after
    dsimp only
    rw [hbeats]
    refine ⟨rfl, ?_, ?_, ?_⟩
    · rw [marksIn_append, marksIn_append, marksIn_append, hbefore.marks, marksIn_append, hafter.marks]
      unfold recorded
      split <;> rfl
    · rw [toldIn_append, toldIn_append, toldIn_append, hbefore.executed, toldIn_append, hafter.executed]
      unfold recorded
      split <;> rfl
    · rw [toldIn_append, toldIn_append, toldIn_append, hbefore.entered, toldIn_append, hafter.entered]
      unfold recorded
      split <;> rfl

/-- A call that comes to a result without a body that returned has done nothing but consult hooks. -/
private theorem unexecuted_of_not_returned (h : ∀ time outcome, ¬ w.Returned maxCalls nth request time outcome)
    (hr : (w.execute maxCalls nth request).timeline.ending = .returns result) :
    Unexecuted (w.execute maxCalls nth request).timeline.beats := by
  have hleads : Leads (w.execute maxCalls nth request) (notesOf _) _ := leads_timelineFrom _ 0
  rcases leads_execute hleads with hconsulted | ⟨given, asked, arguments, -, hadmits, -, -⟩
  · refine unexecuted_of_isAside fun beat hbeat => Beat.isAside_of_isConsultation ?_
    exact hconsulted ⟨beat.2, ()⟩ (List.mem_map_of_mem hbeat)
  · -- a body was entered, so it has to have returned
    obtain ⟨tool, ht⟩ := hadmits.known
    obtain ⟨consulted, -, start, -, htimeline⟩ := hadmits.timelineFrom ht 0
    unfold Process.timeline at hr
    rw [htimeline] at hr
    obtain ⟨outcome, he⟩ := returns_of_work hr
    exact absurd (.intro hadmits ht he) (h _ outcome)

/-- For a call that is refused no body returns. -/
theorem Refuses.not_returned {left : List Beat} {output : String} (h : w.Refuses maxCalls nth request left output)
    (time : Nat) (outcome : Except ToolError String) : ¬ w.Returned maxCalls nth request time outcome := by
  rintro ⟨hadmits, -, -⟩
  obtain ⟨rest, hentered⟩ := hadmits.leads
  have hprefix := prefix_of_leads hentered h.leads
  simp only [List.map_map, Function.comp_def, List.map_id'] at hprefix
  have hmem := hprefix.mem (List.mem_append_right _ (List.mem_singleton_self _))
  cases h.consults hmem

end Workshop

/-! ### A round -/

/-- An execution of a round that returned: the place of its call, its tool, and when it returned. -/
structure Return where
  place : Nat
  tool : String
  time : Nat

namespace Return

/-- What is marked by the list of beats in this place. -/
def ofMark (place : Nat) (mark : Nat × String) : Return := ⟨place, mark.2, mark.1⟩

/-- What is marked by beats that have their places. -/
def allIn (beats : List (Nat × Nat × Beat)) : List Return :=
  beats.filterMap fun beat => beat.2.2.used?.map fun tool => ⟨beat.2.1, tool, beat.1⟩

private theorem allIn_append (beats more : List (Nat × Nat × Beat)) :
    allIn (beats ++ more) = allIn beats ++ allIn more :=
  List.filterMap_append ..

private theorem allIn_tagged (place : Nat) (beats : List (Nat × Beat)) :
    allIn (beats.map fun beat => (beat.1, place, beat.2)) = (marksIn beats).map (ofMark place) := by
  unfold allIn marksIn
  rw [List.filterMap_map, List.map_filterMap]
  refine congrArg (List.filterMap · beats) (funext fun beat => ?_)
  show Option.map _ _ = Option.map _ (Option.map _ _)
  rw [Option.map_map]
  rfl

private theorem mem_allIn_iff {x : Return} {beats : List (Nat × Nat × Beat)} :
    x ∈ allIn beats ↔ (x.time, x.place, .used x.tool) ∈ beats := by
  unfold allIn
  rw [List.mem_filterMap]
  constructor
  · rintro ⟨⟨time, place, beat⟩, hbeat, hx⟩
    obtain ⟨tool, hused, rfl⟩ := Option.map_eq_some_iff.1 hx
    cases beat with
    | entry => cases hused
    | used name =>
      obtain rfl : name = tool := Option.some.inj hused
      exact hbeat
  · intro hbeat
    exact ⟨_, hbeat, rfl⟩

open Timeline

variable {lists : List (List (Nat × Beat))} {place : Nat}

private theorem allIn_placed_perm (place : Nat) (beats : List (Nat × Beat)) (rest : List (List (Nat × Beat))) :
    (allIn (placed place (beats :: rest))).Perm
      ((marksIn beats).map (ofMark place) ++ allIn (placed (place + 1) rest)) := by
  rw [← allIn_tagged, ← allIn_append]
  exact List.Perm.filterMap _ (interleave_perm_append ..)

/-- If no list marks more than one tool, each place occurs once. -/
private theorem nodup_places (h : ∀ beats ∈ lists, (marksIn beats).length ≤ 1) (place : Nat) :
    ((allIn (placed place lists)).map (·.place)).Nodup := by
  induction lists generalizing place with
  | nil => exact List.nodup_nil
  | cons beats rest ih =>
    have hrest := ih (fun beats hbeats => h beats (List.mem_cons_of_mem _ hbeats)) (place + 1)
    have hown := h beats (List.mem_cons_self ..)
    refine ((allIn_placed_perm place beats rest).map (·.place)).nodup_iff.2 ?_
    rw [List.map_append, List.map_map]
    refine List.nodup_append.2 ⟨?_, hrest, ?_⟩
    · match marksIn beats, hown with
      | [], _ | [_], _ => simp
    · intro own hown other hother heq
      obtain ⟨mark, -, rfl⟩ := List.mem_map.1 hown
      obtain ⟨x, hx, rfl⟩ := List.mem_map.1 hother
      have hle : place + 1 ≤ x.place := le_of_mem_placed (mem_allIn_iff.1 hx)
      have heq : place = x.place := heq
      omega

open scoped List in
/-- If each list says one thing for each of its marks, so do all of them interleaved. -/
private theorem toldIn_perm {γ : Type} {read : Entry → Option γ} {say : Return → γ} (place : Nat)
    (h : ∀ (i : Nat) (beats : List (Nat × Beat)), lists[i]? = some beats →
      toldIn read beats = (marksIn beats).map fun mark => say (ofMark (place + i) mark)) :
    (toldIn read (lists.foldr interleave [])).Perm ((allIn (placed place lists)).map say) := by
  induction lists generalizing place with
  | nil => exact .refl _
  | cons beats rest ih =>
    have hrest := ih (place + 1) fun i beats hi => by
      rw [Nat.add_assoc, Nat.add_comm 1 i]
      exact h (i + 1) beats hi
    calc toldIn read ((beats :: rest).foldr interleave [])
      _ ~ toldIn read (beats ++ rest.foldr interleave []) := List.Perm.filterMap _ (interleave_perm_append ..)
      _ = toldIn read beats ++ toldIn read (rest.foldr interleave []) := toldIn_append ..
      _ ~ toldIn read beats ++ (allIn (placed (place + 1) rest)).map say := hrest.append_left _
      _ = ((marksIn beats).map (ofMark place) ++ allIn (placed (place + 1) rest)).map say := by
        rw [List.map_append, List.map_map, h 0 beats rfl]
        rfl
      _ ~ (allIn (placed place (beats :: rest))).map say := ((allIn_placed_perm place beats rest).map say).symm

end Return

namespace Workshop

open Timeline

variable {w : Workshop} {ledger : Ledger} {requests : List CallRequest} {results : List ToolResult}

/-- The executions of a round that returned, in the order in which they did; those of one instant come in the order of
their calls. -/
structure Listed (w : Workshop) (limit counted : Nat) (calls : List CallRequest) (returns : List Return) : Prop where
  mem_iff {x : Return} : x ∈ returns ↔ ∃ request outcome, calls[x.place]? = some request ∧ request.name = x.tool ∧
    w.Returned limit (counted + x.place + 1) request x.time outcome
  ordered : returns.Pairwise fun a b => a.time < b.time ∨ a.time = b.time ∧ a.place < b.place

/-- The result in a place is a success. -/
def succeeded (results : List ToolResult) (place : Nat) : Bool := (results[place]?.map (·.success)).getD false

private theorem beats_together_of_returns {ν α : Type} {ts : List (Timeline ν α)} {as : List α}
    (h : (together ts).ending = .returns as) : (together ts).beats = (ts.map (·.beats)).foldr interleave [] := by
  unfold together at h ⊢
  dsimp only at h ⊢
  split
  · rename_i hfault
    rw [hfault] at h
    cases h
  · split <;> rfl

private theorem usedIn_eq (beats : List (Nat × Nat × Beat)) :
    usedIn (beats.map fun beat => (beat.1, beat.2.2)) = (Return.allIn beats).map (·.tool) := by
  unfold usedIn Return.allIn
  rw [List.filterMap_map, List.map_filterMap]
  refine congrArg (List.filterMap · beats) (funext fun beat => ?_)
  obtain ⟨time, place, beat⟩ := beat
  cases beat <;> rfl

/-- The lists of beats that a round interleaves. -/
def ownBeats (w : Workshop) (ledger : Ledger) (requests : List CallRequest) : List (List (Nat × Beat)) :=
  (w.timelines ledger requests).map (·.beats)

private theorem getElem?_ownBeats_iff {i : Nat} {beats : List (Nat × Beat)} :
    (w.ownBeats ledger requests)[i]? = some beats ↔
    ∃ request, requests[i]? = some request ∧ beats = (Crew.task w ledger i request).timeline.beats := by
  unfold ownBeats
  rw [List.getElem?_map]
  constructor
  · intro h
    obtain ⟨t, ht, rfl⟩ := Option.map_eq_some_iff.1 h
    have hlt : i < requests.length := by simpa using (List.getElem?_eq_some_iff.1 ht).1
    have hr := List.getElem?_eq_getElem hlt
    obtain rfl : t = (Crew.task w ledger i requests[i]).timeline := Option.some.inj (ht.symm.trans (getElem?_timelines hr))
    exact ⟨_, hr, rfl⟩
  · rintro ⟨request, hr, rfl⟩
    rw [getElem?_timelines hr]
    rfl

section

variable (h : (w.timelines ledger requests).map (·.ending) = results.map .returns) {i : Nat} {request : CallRequest}
  (hr : requests[i]? = some request)

include h hr

private theorem ending_task : ∃ result, results[i]? = some result ∧
    (Crew.task w ledger i request).timeline.ending = .returns result := by
  obtain ⟨result, hresult, -, halone⟩ := (eachAlone_of_endings h).result hr
  obtain ⟨_, ⟨⟩, hending⟩ := alone_eq_ok_iff.1 halone
  exact ⟨result, hresult, hending⟩

/-- Each call of a round that returns has been executed or not. -/
private theorem executed_or : ∃ result, results[i]? = some result ∧
    ((∃ time outcome, w.Returned ledger.maxCalls (ledger.calls + i + 1) request time outcome ∧
        w.Executed request time outcome (Crew.task w ledger i request).timeline.beats result) ∨
      (∀ time outcome, ¬ w.Returned ledger.maxCalls (ledger.calls + i + 1) request time outcome) ∧
        Unexecuted (Crew.task w ledger i request).timeline.beats) := by
  obtain ⟨result, hresult, hending⟩ := ending_task h hr
  refine ⟨result, hresult, ?_⟩
  by_cases hreturned : ∃ time outcome, w.Returned ledger.maxCalls (ledger.calls + i + 1) request time outcome
  · obtain ⟨time, outcome, hreturned⟩ := hreturned
    exact .inl ⟨time, outcome, hreturned, hreturned.executed hending⟩
  · have hnone : ∀ time outcome, ¬ w.Returned ledger.maxCalls (ledger.calls + i + 1) request time outcome :=
      fun time outcome h => hreturned ⟨time, outcome, h⟩
    exact .inr ⟨hnone, unexecuted_of_not_returned hnone hending⟩

private theorem mem_marks_task_iff {time : Nat} {tool : String} :
    (time, tool) ∈ marksIn (Crew.task w ledger i request).timeline.beats ↔
      request.name = tool ∧ ∃ outcome, w.Returned ledger.maxCalls (ledger.calls + i + 1) request time outcome := by
  constructor
  · intro hmark
    obtain ⟨result, -, ⟨own, outcome, hreturned, hexecuted⟩ | ⟨-, hunexecuted⟩⟩ := executed_or h hr
    · rw [hexecuted.marks, List.mem_singleton] at hmark
      obtain ⟨rfl, rfl⟩ := Prod.mk.inj hmark
      exact ⟨rfl, outcome, hreturned⟩
    · rw [hunexecuted.marks] at hmark
      cases hmark
  · rintro ⟨rfl, outcome, hreturned⟩
    obtain ⟨result, -, hending⟩ := ending_task h hr
    have hmarks : marksIn (Crew.task w ledger i request).timeline.beats = [(time, request.name)] :=
      (hreturned.executed hending).marks
    rw [hmarks]
    exact List.mem_singleton_self _

private theorem length_marks_task_le : (marksIn (Crew.task w ledger i request).timeline.beats).length ≤ 1 := by
  obtain ⟨result, -, ⟨own, outcome, -, hexecuted⟩ | ⟨-, hunexecuted⟩⟩ := executed_or h hr
  · rw [hexecuted.marks, List.length_singleton]
  · rw [hunexecuted.marks]
    exact Nat.zero_le 1

/-- A call says that it entered a body, and what came of that, once for each of its marks. -/
private theorem toldIn_task : toldIn Entry.entered? (Crew.task w ledger i request).timeline.beats =
      (marksIn (Crew.task w ledger i request).timeline.beats).map (·.2) ∧
    toldIn Entry.executed? (Crew.task w ledger i request).timeline.beats =
      if w.recordsEvents then
        (marksIn (Crew.task w ledger i request).timeline.beats).map fun mark => (mark.2, succeeded results i)
      else [] := by
  obtain ⟨result, hresult, ⟨own, outcome, -, hexecuted⟩ | ⟨-, hunexecuted⟩⟩ := executed_or h hr
  · have hsuccess : succeeded results i = result.success := by
      rw [succeeded, hresult]
      rfl
    rw [hexecuted.marks, hexecuted.entered, hexecuted.executed, hsuccess]
    exact ⟨rfl, rfl⟩
  · rw [hunexecuted.marks, hunexecuted.entered, hunexecuted.executed]
    exact ⟨rfl, (ite_self _).symm⟩

end

/-- The executions of a round that returned are those that are marked. -/
private theorem listed_ownBeats (h : (w.timelines ledger requests).map (·.ending) = results.map .returns) :
    w.Listed ledger.maxCalls ledger.calls requests (Return.allIn (placed 0 (w.ownBeats ledger requests))) where
  mem_iff {x} := by
    have hzero : x.place = 0 + x.place := (Nat.zero_add _).symm
    have hmarked {beats : List (Nat × Beat)} : (x.time, .used x.tool) ∈ beats ↔ (x.time, x.tool) ∈ marksIn beats := by
      unfold marksIn
      rw [List.mem_filterMap]
      constructor
      · intro hbeat
        exact ⟨_, hbeat, rfl⟩
      · rintro ⟨⟨time, beat⟩, hbeat, hmark⟩
        obtain ⟨tool, hused, heq⟩ := Option.map_eq_some_iff.1 hmark
        obtain ⟨rfl, rfl⟩ := Prod.mk.inj heq
        cases beat with
        | entry => cases hused
        | used name =>
          obtain rfl := Option.some.inj hused
          exact hbeat
    rw [Return.mem_allIn_iff, hzero, mem_placed_iff, ← hzero]
    constructor
    · rintro ⟨beats, hi, hbeat⟩
      obtain ⟨request, hr, rfl⟩ := getElem?_ownBeats_iff.1 hi
      obtain ⟨hname, outcome, hreturned⟩ := (mem_marks_task_iff h hr).1 (hmarked.1 hbeat)
      exact ⟨request, outcome, hr, hname, hreturned⟩
    · rintro ⟨request, outcome, hr, hname, hreturned⟩
      exact ⟨_, getElem?_ownBeats_iff.2 ⟨request, hr, rfl⟩,
        hmarked.2 ((mem_marks_task_iff h hr).2 ⟨hname, outcome, hreturned⟩)⟩
  ordered := by
    have hsorted : ∀ beats ∈ w.ownBeats ledger requests, beats.Pairwise fun a b => a.1 ≤ b.1 := by
      intro beats hmem
      obtain ⟨i, hi⟩ := List.mem_iff_getElem?.1 hmem
      obtain ⟨request, -, rfl⟩ := getElem?_ownBeats_iff.1 hi
      exact (Process.pairwise_timelineFrom _ 0).1
    have honce : ∀ beats ∈ w.ownBeats ledger requests, (marksIn beats).length ≤ 1 := by
      intro beats hmem
      obtain ⟨i, hi⟩ := List.mem_iff_getElem?.1 hmem
      obtain ⟨request, hr, rfl⟩ := getElem?_ownBeats_iff.1 hi
      exact length_marks_task_le h hr
    have hprecedes : (Return.allIn (placed 0 (w.ownBeats ledger requests))).Pairwise fun a b =>
        a.time < b.time ∨ a.time = b.time ∧ a.place ≤ b.place := by
      refine List.Pairwise.filterMap _ (fun a b hab x hx y hy => ?_) (pairwise_placed hsorted 0)
      obtain ⟨_, -, rfl⟩ := Option.map_eq_some_iff.1 hx
      obtain ⟨_, -, rfl⟩ := Option.map_eq_some_iff.1 hy
      exact hab
    have hnodup := List.pairwise_map.1 (Return.nodup_places honce 0)
    refine (hprecedes.and hnodup).imp fun {a b} hab => ?_
    obtain ⟨hle, hne⟩ := hab
    omega

/-- What the executions of a round leave behind. -/
structure Settled (w : Workshop) (ledger : Ledger) (requests : List CallRequest) (results : List ToolResult)
    (beats : List (Nat × Beat)) (returns : List Return) : Prop where
  listed : w.Listed ledger.maxCalls ledger.calls requests returns
  used : usedIn beats = returns.map (·.tool)
  executed : (toldIn Entry.executed? beats).Perm
    (if w.recordsEvents then returns.map fun x => (x.tool, succeeded results x.place) else [])
  entered : (toldIn Entry.entered? beats).Perm (returns.map (·.tool))

theorem exists_settled (h : (w.round ledger requests).ending = .returns results) :
    ∃ returns, w.Settled ledger requests results (w.round ledger requests).beats returns := by
  have hendings : (w.timelines ledger requests).map (·.ending) = results.map .returns := Timeline.ending_together h
  have hbeats : (w.round ledger requests).beats = (w.ownBeats ledger requests).foldr interleave [] :=
    beats_together_of_returns h
  refine ⟨Return.allIn (placed 0 (w.ownBeats ledger requests)), listed_ownBeats hendings, ?_, ?_, ?_⟩
  · rw [hbeats, ← map_placed 0, usedIn_eq]
  · rw [hbeats]
    cases hrecords : w.recordsEvents with
    | true =>
      refine Return.toldIn_perm 0 fun i beats hi => ?_
      obtain ⟨request, hr, rfl⟩ := getElem?_ownBeats_iff.1 hi
      rw [(toldIn_task hendings hr).2, hrecords, if_pos rfl, Nat.zero_add]
      rfl
    | false =>
      -- nothing is recorded by any of the calls
      have hnone : ∀ said ∈ (w.ownBeats ledger requests).map (toldIn Entry.executed?), said = [] := by
        intro said hsaid
        obtain ⟨beats, hmem, rfl⟩ := List.mem_map.1 hsaid
        obtain ⟨i, hi⟩ := List.mem_iff_getElem?.1 hmem
        obtain ⟨request, hr, rfl⟩ := getElem?_ownBeats_iff.1 hi
        rw [(toldIn_task hendings hr).2, hrecords]
        rfl
      have hall : toldIn Entry.executed? (w.ownBeats ledger requests).flatten = [] :=
        List.filterMap_flatten.trans (List.flatten_eq_nil_iff.2 hnone)
      rw [if_neg Bool.false_ne_true, ← hall]
      exact (foldr_interleave_perm (w.ownBeats ledger requests)).filterMap _
  · rw [hbeats]
    refine Return.toldIn_perm 0 fun i beats hi => ?_
    obtain ⟨request, hr, rfl⟩ := getElem?_ownBeats_iff.1 hi
    rw [(toldIn_task hendings hr).1]
    rfl

end Workshop

/-! ### The ledger -/

namespace Ledger

private theorem used_markUsed (l : Ledger) (tool : String) :
    (l.markUsed tool).used = if tool ∈ l.used then l.used else l.used ++ [tool] := by
  unfold markUsed
  by_cases h : tool ∈ l.used <;> simp [h]

private theorem markAll_concat (l : Ledger) (tools : List String) (tool : String) :
    l.markAll (tools ++ [tool]) = (l.markAll tools).markUsed tool := List.foldl_concat ..

/-- The tools that were used are those that were marked, each where it was marked first. -/
theorem used_markAll {l : Ledger} {names : List String} (h : l.used = names.eraseDups) (tools : List String) :
    (l.markAll tools).used = (names ++ tools).eraseDups := by
  induction tools generalizing l names with
  | nil =>
    rw [List.append_nil]
    exact h
  | cons tool tools ih =>
    have hmarked : (l.markUsed tool).used = (names ++ [tool]).eraseDups := by
      rw [used_markUsed, List.eraseDups_append, h]
      by_cases hmem : tool ∈ names <;> simp [hmem, List.removeAll, List.eraseDups_cons]
    have hrest := ih hmarked
    rw [List.append_assoc, List.singleton_append] at hrest
    exact hrest

end Ledger

/-! ### Whatever the schedule -/

namespace Crew

open Workshop

variable {w : Workshop} {ledger : Ledger} {requests : List CallRequest} {c c' : Crew} {results : List ToolResult}

section

variable {β γ : Type}

/-- What in a list of things that have places belongs to this place. -/
def own (i : Nat) (xs : List (Nat × β)) : List β := xs.filterMap fun x => if x.1 = i then some x.2 else none

private theorem own_cons_self (i : Nat) (b : β) (xs : List (Nat × β)) : own i ((i, b) :: xs) = b :: own i xs := by
  simp [own]

private theorem own_cons_ne {i j : Nat} (h : j ≠ i) (b : β) (xs : List (Nat × β)) :
    own i ((j, b) :: xs) = own i xs := by
  simp [own, h]

private theorem count_own [DecidableEq β] (i : Nat) (b : β) (xs : List (Nat × β)) :
    (own i xs).count b = xs.count (i, b) := by
  induction xs with
  | nil => rfl
  | cons x xs ih =>
    obtain ⟨j, a⟩ := x
    by_cases hj : j = i
    · subst hj
      rw [own_cons_self, List.count_cons, List.count_cons, ih]
      simp
    · rw [own_cons_ne hj, List.count_cons, ih]
      simp [hj]

/-- Lists that have the same for each place are the same up to their order. -/
private theorem perm_of_own {xs ys : List (Nat × β)} (h : ∀ i, own i xs = own i ys) : xs.Perm ys := by
  classical
  refine List.perm_iff_count.2 fun x => ?_
  rw [← count_own, ← count_own, h x.1]

private theorem count_places (i : Nat) (xs : List (Nat × β)) : (xs.map (·.1)).count i = (own i xs).length := by
  induction xs with
  | nil => rfl
  | cons x xs ih =>
    obtain ⟨j, a⟩ := x
    by_cases hj : j = i
    · subst hj
      rw [own_cons_self, List.length_cons, ← ih, List.map_cons, List.count_cons_self]
    · rw [own_cons_ne hj, ← ih, List.map_cons, List.count_cons_of_ne hj]

private theorem nodup_of_own {xs : List (Nat × β)} (h : ∀ i, (own i xs).length ≤ 1) : (xs.map (·.1)).Nodup := by
  refine List.nodup_iff_count_le_one.2 fun i => ?_
  rw [count_places]
  exact h i

private theorem mem_own_iff {i : Nat} {b : β} {xs : List (Nat × β)} : b ∈ own i xs ↔ (i, b) ∈ xs := by
  classical
  rw [← List.count_pos_iff, ← List.count_pos_iff, count_own]

private theorem own_map (i : Nat) (f : Nat → β → γ) (xs : List (Nat × β)) :
    own i (xs.map fun x => (x.1, f x.1 x.2)) = (own i xs).map (f i) := by
  induction xs with
  | nil => rfl
  | cons x xs ih =>
    obtain ⟨j, a⟩ := x
    rw [List.map_cons]
    by_cases hj : j = i
    · subst hj
      rw [own_cons_self, own_cons_self, List.map_cons, ih]
    · rw [own_cons_ne hj, own_cons_ne hj, ih]

/-- What the beats of all workers say, each with the worker it comes from. -/
def saidIn (read : Beat → Option γ) (beats : List (Nat × Beat)) : List (Nat × γ) :=
  beats.filterMap fun beat => (read beat.2).map fun said => (beat.1, said)

private theorem own_saidIn (i : Nat) (read : Beat → Option γ) (beats : List (Nat × Beat)) :
    own i (saidIn read beats) = (ownIn i beats).filterMap read := by
  unfold own saidIn ownIn
  rw [List.filterMap_filterMap, List.filterMap_filterMap]
  refine congrArg (List.filterMap · beats) (funext fun beat => ?_)
  by_cases hi : beat.1 = i
  · cases hread : read beat.2 <;> simp [hi, hread]
  · cases read beat.2 <;> simp [hi]

end

/-- The tools that are marked, each with the worker who marks it. -/
def marks (c : Crew) : List (Nat × String) := saidIn Beat.used? c.beats

/-- The executions that are recorded, each with the worker who records it. -/
def executed (c : Crew) : List (Nat × (String × Bool)) := saidIn (Beat.tells? Entry.executed?) c.beats

/-- The ledger has the tools that are marked, in the order of the marks. -/
private theorem Reaches.used (h : Reaches w ledger requests c) :
    c.ledger.used = (ledger.markAll (c.marks.map (·.2))).used := by
  induction h with
  | refl => rfl
  | @tail c c' _ hs ih =>
    cases hs with
    | begins | waits | yields | joins => exact ih
    | @acts i beat next hw =>
      have hmarks : ((c.take i beat).put i (.working (next ()))).marks = c.marks ++ saidIn Beat.used? [(i, beat)] :=
        List.filterMap_append ..
      rw [hmarks]
      cases beat with
      | entry e =>
        rw [show saidIn Beat.used? [(i, Beat.entry e)] = [] from rfl, List.append_nil]
        exact ih
      | used tool =>
        rw [show saidIn Beat.used? [(i, Beat.used tool)] = [(i, tool)] from rfl, List.map_append, List.map_singleton,
          Ledger.markAll_concat, Ledger.used_markUsed, ← ih]
        exact Ledger.used_markUsed c.ledger tool

/-- What a schedule leaves behind of its executions. -/
structure Settled (w : Workshop) (ledger : Ledger) (requests : List CallRequest) (results : List ToolResult) (c : Crew) :
    Prop where
  /-- A worker marks a tool exactly if it is that of his call and its body returned, and he does so once. -/
  mem_marks_iff {i : Nat} {tool : String} : (i, tool) ∈ c.marks ↔ ∃ request time outcome, requests[i]? = some request ∧
    request.name = tool ∧ w.Returned ledger.maxCalls (ledger.calls + i + 1) request time outcome
  once : (c.marks.map (·.1)).Nodup
  /-- The tools that were used follow those before, in the order of their first marks. -/
  used {names : List String} (h : ledger.used = names.eraseDups) :
    c.ledger.used = (names ++ c.marks.map (·.2)).eraseDups
  /-- Each mark has one record. -/
  executed : c.executed.Perm
    (if w.recordsEvents then c.marks.map fun mark => (mark.1, (mark.2, succeeded results mark.1)) else [])

/-- Once everybody has gone, the marks and the records of each worker are those of his call alone. -/
private theorem Reaches.own_eq (h : Reaches w ledger requests c) (he : c.Ends (.ok results)) {i : Nat}
    {request : CallRequest}
    (hr : requests[i]? = some request) :
    own i c.marks = (marksIn (task w ledger i request).timeline.beats).map (·.2) ∧
      own i c.executed = toldIn Entry.executed? (task w ledger i request).timeline.beats := by
  have hbeats : ownIn i c.beats = (task w ledger i request).timeline.beats.map (·.2) := by
    cases he with
    | returns hg hs =>
      obtain ⟨-, -, halone⟩ := h.sound.alone hg hs
      obtain ⟨result, -, -, hbeats⟩ := halone i request hr
      exact hbeats
  unfold marks executed
  rw [own_saidIn, own_saidIn, hbeats]
  constructor
  · unfold marksIn
    rw [List.filterMap_map, List.map_filterMap]
    refine congrArg (List.filterMap · _) (funext fun beat => ?_)
    show beat.2.used? = Option.map _ (Option.map _ beat.2.used?)
    rw [Option.map_map]
    exact Option.map_id'.symm
  · exact List.filterMap_map

private theorem Reaches.own_eq_nil (h : Reaches w ledger requests c) {i : Nat} (hi : requests[i]? = none) :
    own i c.marks = [] ∧ own i c.executed = [] := by
  have hnone : ownIn i c.beats = [] := by
    refine List.eq_nil_iff_forall_not_mem.2 fun beat hbeat => ?_
    have hmem : (i, beat) ∈ c.beats := mem_own_iff.1 hbeat
    have hlt := h.lt_length_of_mem_beats hmem
    rw [List.getElem?_eq_getElem hlt] at hi
    cases hi
  unfold marks executed
  rw [own_saidIn, own_saidIn, hnone]
  exact ⟨rfl, rfl⟩

theorem Reaches.settled (h : Reaches w ledger requests c) (he : c.Ends (.ok results)) :
    c.Settled w ledger requests results where
  mem_marks_iff {i tool} := by
    rw [← mem_own_iff]
    cases hr : requests[i]? with
    | none =>
      rw [(h.own_eq_nil hr).1]
      simp
    | some request =>
      rw [(h.own_eq he hr).1, List.mem_map]
      constructor
      · rintro ⟨⟨time, name⟩, hmark, rfl⟩
        obtain ⟨hname, outcome, hreturned⟩ := (mem_marks_task_iff (h.eachAlone he).1.endings hr).1 hmark
        exact ⟨request, time, outcome, rfl, hname, hreturned⟩
      · rintro ⟨other, time, outcome, heq, hname, hreturned⟩
        obtain rfl := Option.some.inj heq
        exact ⟨(time, tool), (mem_marks_task_iff (h.eachAlone he).1.endings hr).2 ⟨hname, outcome, hreturned⟩, rfl⟩
  once := by
    refine nodup_of_own fun i => ?_
    cases hr : requests[i]? with
    | none =>
      rw [(h.own_eq_nil hr).1]
      exact Nat.zero_le 1
    | some request =>
      rw [(h.own_eq he hr).1, List.length_map]
      exact length_marks_task_le (h.eachAlone he).1.endings hr
  used hnames := by
    rw [h.used]
    exact Ledger.used_markAll hnames _
  executed := by
    refine perm_of_own fun i => ?_
    cases hr : requests[i]? with
    | none =>
      rw [(h.own_eq_nil hr).2]
      split
      · rw [own_map i fun i tool => (tool, succeeded results i), (h.own_eq_nil hr).1]
        rfl
      · rfl
    | some request =>
      rw [(h.own_eq he hr).2, (toldIn_task (h.eachAlone he).1.endings hr).2]
      split
      · rw [own_map i fun i tool => (tool, succeeded results i), (h.own_eq he hr).1, List.map_map]
        rfl
      · rfl

end Crew

end AgentLoop
