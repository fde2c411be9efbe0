import AgentLoop.Proofs.Played
import AgentLoop.Round

/-!
# What a round of tool calls does

A call gives a result under its own id.  It enters at most one tool body, and none if it is counted beyond the limit.
A round puts the calls side by side: its results are those of the calls, in their order, and it enters no more
bodies than there are calls left under the limit.  A round hangs only if a tool or a hook does.
-/

namespace AgentLoop

/-- The body of a tool is entered. -/
def Entry.isEntered : Entry → Bool
  | .entered .. => true
  | _ => false

/-- What tool calls leave in the journal. -/
def Entry.isOfCall : Entry → Bool
  | .entered .. | .beforeToolCall .. | .afterToolCall .. | .event (.toolExecuted ..) => true
  | _ => false

def Beat.isEntered : Beat → Bool
  | .entry e => e.isEntered
  | .used _ => false

/-- How many bodies of tools are entered. -/
def enteredIn (beats : List (Nat × Beat)) : Nat := beats.countP fun beat => beat.2.isEntered

namespace Task

/-- How many bodies of tools a task has entered. -/
def entered (t : List (Exchange (.notes Beat))) : Nat := t.countP fun x => Beat.isEntered x.1

private theorem entered_append_entry (t : List (Exchange (.notes Beat))) (e : Entry) :
    entered (t ++ [⟨.entry e, ()⟩]) = entered t + if e.isEntered then 1 else 0 := by
  simp only [entered, List.countP_append, List.countP_singleton]
  rfl

private theorem entered_notesOf (beats : List (Nat × Beat)) : entered (Process.notesOf beats) = enteredIn beats := by
  simp only [entered, enteredIn, List.countP_map]
  rfl

end Task

namespace HookChain

open Process

variable {S : Signature} {c : Contract S} {t : List (Exchange S)}

theorem keeps_firstVerdict (inv : List (Exchange S) → Prop) 
    {post : List (Exchange S) → Except HookError Verdict → Prop} {asks : List (Process S (Except HookError Verdict))}
    (ha : ∀ ask ∈ asks, ∀ u, inv u → Keeps c (fun v _ => inv v) u ask) (hp : ∀ u r, inv u → post u r) (ht : inv t) :
    Keeps c post t (firstVerdict asks) := by
  induction asks generalizing t with
  | nil => exact hp _ _ ht
  | cons ask rest ih =>
    have hrest : ∀ u, inv u → Keeps c post u (firstVerdict rest) :=
      fun u hu => ih (fun a h => ha a (List.mem_cons_of_mem _ h)) hu
    refine keeps_bind.2 ((ha ask (List.mem_cons_self ..) t ht).imp fun u answer hu => ?_)
    split
    · exact hrest u hu
    · exact hp _ _ hu

theorem keeps_forM (inv : List (Exchange S) → Prop) {β : Type} {xs : List β} {f : β → Process S Unit}
    (hf : ∀ x ∈ xs, ∀ u, inv u → Keeps c (fun v _ => inv v) u (f x)) (ht : inv t) :
    Keeps c (fun v _ => inv v) t (xs.forM f) := by
  induction xs generalizing t with
  | nil => exact ht
  | cons x xs ih =>
    refine keeps_bind.2 ((hf x (List.mem_cons_self ..) t ht).imp fun u _ hu => ?_)
    exact ih (fun y h => hf y (List.mem_cons_of_mem _ h)) hu

end HookChain

namespace Workshop

open Process

variable (w : Workshop)

/-- A tool or a hook around tool calls hangs at times. -/
def MayHang : Prop :=
  (∃ name tool nth arguments, w.tools.get? name = some tool ∧ (tool.execute nth arguments).ending = .hangs) ∨
  (∃ h ∈ w.hooks, ∃ answer nth call, h.beforeToolCall = some answer ∧ (answer w.context nth call).ending = .hangs) ∨
  (∃ h ∈ w.hooks, ∃ answer nth call result,
    h.afterToolCall = some answer ∧ (answer w.context nth call result).ending = .hangs)

/-- What a call may do: enter one body if it is counted within the limit, and have the hooks told about it. -/
def callContract (maxCalls nth : Nat) : Contract (.notes Beat) where
  allows t beat :=
    (∀ e, beat = .entry e → e.isOfCall) ∧ (beat.isEntered → nth ≤ maxCalls ∧ Task.entered t = 0)
  expects _ _ := True
  mayHang := w.MayHang

/-- How many bodies a call may enter. -/
def mayEnter (maxCalls nth : Nat) : Nat := if nth ≤ maxCalls then 1 else 0

variable {w} {maxCalls nth n : Nat} {t : List (Exchange (.notes Beat))}

private theorem keeps_note {e : Entry} {post : List (Exchange (.notes Beat)) → Unit → Prop} (ho : e.isOfCall)
    (he : e.isEntered = false) (hp : post (t ++ [⟨.entry e, ()⟩]) ()) : Keeps (w.callContract maxCalls nth) post t (Task.note e) :=
  ⟨⟨fun _ h => Beat.entry.inj h ▸ ho, fun h => absurd h (by simp [Beat.isEntered, he])⟩, fun _ _ => hp⟩

private theorem keeps_beforeToolCall {call : ToolCall}
    {post : List (Exchange (.notes Beat)) → Except HookError Verdict → Prop}
    (hp : ∀ u r, Task.entered u = n → post u r) (ht : Task.entered t = n) :
    Keeps (w.callContract maxCalls nth) post t
      (HookChain.beforeToolCall Task.note w.hooks w.context nth call) := by
  refine HookChain.keeps_firstVerdict (fun u => Task.entered u = n) ?_ hp ht
  intro ask hask u hu
  obtain ⟨h, hh, hask⟩ := List.mem_filterMap.1 hask
  obtain ⟨answer, ha, rfl⟩ := Option.map_eq_some_iff.1 hask
  refine keeps_bind.2 (keeps_note rfl rfl (keeps_react.2 ⟨?_, ?_⟩))
  · exact fun hhang => .inr (.inl ⟨h, hh, answer, nth, call, ha, hhang⟩)
  · intro _ _
    rw [Task.entered_append_entry, hu]
    rfl

private theorem keeps_afterToolCall {call : ToolCall} {result : ToolResult} :
    Keeps (w.callContract maxCalls nth) (fun _ _ => True) t
      (HookChain.afterToolCall Task.note w.hooks w.context nth call result) := by
  refine HookChain.keeps_forM (fun _ => True) ?_ trivial
  intro h hh u _
  split
  · trivial
  · rename_i answer ha
    refine keeps_bind.2 (keeps_note rfl rfl (keeps_bind.2 (keeps_react.2 ⟨?_, fun _ _ => trivial⟩)))
    exact fun hhang => .inr (.inr ⟨h, hh, answer, nth, call, result, ha, hhang⟩)

/-- A call within the limit that is not refused enters the body of its tool, if there is such a tool. -/
private theorem keeps_invoke (call : ToolCall) (hn : nth ≤ maxCalls) (ht : Task.entered t = 0) :
    Keeps (w.callContract maxCalls nth) (fun _ r => r.callId = call.id) t (w.invoke nth call) := by
  unfold invoke
  split
  · exact rfl
  · rename_i tool htool
    refine keeps_bind.2 ⟨⟨fun _ h => Beat.entry.inj h ▸ rfl, fun _ => ⟨hn, ht⟩⟩, fun _ _ => ?_⟩
    refine keeps_bind.2 (keeps_react.2 ⟨fun hhang => .inl ⟨_, tool, nth, _, htool, hhang⟩, fun outcome _ => ?_⟩)
    -- whatever the tool comes to, the hooks after it do not change whose result it is
    refine keeps_bind.2 ⟨⟨fun _ h => (nomatch h), fun h => by simp [Beat.isEntered] at h⟩, fun _ _ => ?_⟩
    cases outcome with
    | _ =>
      refine keeps_bind.2 (keeps_afterToolCall.imp fun _ _ _ => ?_)
      dsimp only
      split
      · exact keeps_bind.2 (keeps_note rfl rfl rfl)
      · exact rfl

private theorem keeps_execute (w : Workshop) (maxCalls nth : Nat) (request : CallRequest) :
    Keeps (w.callContract maxCalls nth) (fun _ r => r.callId = request.id) [] (w.execute maxCalls nth request) := by
  unfold execute
  dsimp only
  split
  · exact rfl
  · rename_i hn
    split
    · exact rfl
    · refine keeps_bind.2 (keeps_beforeToolCall (n := 0) (fun u r hu => ?_) rfl)
      split
      · exact keeps_invoke ⟨request.id, _, _⟩ (Nat.not_lt.1 hn) hu
      · exact keeps_invoke ⟨request.id, _, _⟩ (Nat.not_lt.1 hn) hu
      · exact rfl
      · exact rfl
      · exact rfl

end Workshop

/-! ### Side by side -/

namespace Timeline

variable {ν α : Type}

theorem interleave_perm_append (xs ys : List (Nat × ν)) : (interleave xs ys).Perm (xs ++ ys) := by
  rw [interleave_eq_merge]
  exact List.merge_perm_append ..

theorem foldr_interleave_perm (bs : List (List (Nat × ν))) : (bs.foldr interleave []).Perm bs.flatten := by
  induction bs with
  | nil => exact .refl _
  | cons b bs ih =>
    rw [List.foldr_cons, List.flatten_cons]
    exact (interleave_perm_append ..).trans (ih.append_left b)

/-- The beats of several timelines, as far as they go, are beats of one of them. -/
theorem beats_together (ts : List (Timeline ν α)) :
    ∃ all, all.Perm (ts.flatMap (·.beats)) ∧ (together ts).beats <+: all := by
  refine ⟨_, foldr_interleave_perm (ts.map (·.beats)), ?_⟩
  unfold together
  dsimp only
  split
  · exact List.takeWhile_prefix _
  · split <;> exact List.prefix_refl _

private theorem values?_eq_some {ts : List (Timeline ν α)} {as : List α} (h : values? ts = some as) :
    ts.map (·.ending) = as.map .returns := by
  induction ts generalizing as with
  | nil =>
    obtain rfl : [] = as := Option.some.inj h
    rfl
  | cons t ts ih =>
    unfold values? at h
    split at h
    · rename_i a as' ha hs
      obtain rfl : a :: as' = as := Option.some.inj h
      rw [List.map_cons, List.map_cons, ha, ih hs]
    · cases h

private theorem exists_hangs_of_values?_eq_none {ts : List (Timeline ν α)} (h : values? ts = none)
    (hf : firstFault ts = none) : ∃ t ∈ ts, t.ending = .hangs := by
  induction ts with
  | nil => cases h
  | cons t ts ih =>
    unfold firstFault at hf
    unfold values? at h
    cases ht : t.ending with
    | hangs => exact ⟨t, List.mem_cons_self .., ht⟩
    | faults message =>
      rw [ht] at hf
      cases hs : firstFault ts with
      | none => simp [hs] at hf
      | some other =>
        obtain ⟨later, text⟩ := other
        rw [hs] at hf
        simp only at hf
        split at hf <;> cases hf
    | returns a =>
      rw [ht] at hf h
      simp only at hf
      cases hs : values? ts with
      | none =>
        obtain ⟨t', ht', he⟩ := ih hs hf
        exact ⟨t', List.mem_cons_of_mem _ ht', he⟩
      | some as => simp [hs] at h

theorem ending_together {ts : List (Timeline ν α)} {as : List α} (h : (together ts).ending = .returns as) :
    ts.map (·.ending) = as.map .returns := by
  unfold together at h
  dsimp only at h
  split at h
  · cases h
  · split at h
    · rename_i as' hs
      obtain rfl : as' = as := by simpa using h
      exact values?_eq_some hs
    · cases h

private theorem exists_hangs_of_together {ts : List (Timeline ν α)} (h : (together ts).ending = .hangs) :
    ∃ t ∈ ts, t.ending = .hangs := by
  unfold together at h
  dsimp only at h
  split at h
  · cases h
  · rename_i hf
    split at h
    · cases h
    · rename_i hs
      exact exists_hangs_of_values?_eq_none hs hf

end Timeline

/-! ### Rounds -/

namespace Workshop

open Process

variable {w : Workshop} {ledger : Ledger} {requests : List CallRequest}

/-- A call leaves only entries of calls and enters no more bodies than it may.  It hangs only if a collaborator does,
and answers under its id. -/
theorem timeline_execute (w : Workshop) (maxCalls nth : Nat) (request : CallRequest) :
    (∀ beat ∈ (w.execute maxCalls nth request).timeline.beats, ∀ e, beat.2 = .entry e → e.isOfCall) ∧
      enteredIn (w.execute maxCalls nth request).timeline.beats ≤ mayEnter maxCalls nth ∧
      ((w.execute maxCalls nth request).timeline.ending = .hangs → w.MayHang) ∧
      ∀ r, (w.execute maxCalls nth request).timeline.ending = .returns r → r.callId = request.id := by
  have h := keeps_execute w maxCalls nth request
  have hrest := h.timeline fun _ => trivial
  have hleads : Leads _ (notesOf (w.execute maxCalls nth request).timeline.beats) _ := leads_timelineFrom _ 0
  refine ⟨fun beat hb e he => ?_, ?_, fun hh => ?_, fun r hr => ?_⟩
  · obtain ⟨u, v, huv⟩ := List.append_of_mem hb
    rw [huv, notesOf, List.map_append, List.map_cons] at hleads
    exact (h.allows_of_leads hleads fun _ _ => trivial).1 e he
  · -- a body is entered once at most, and only within the limit
    rw [← Task.entered_notesOf]
    refine h.invariant (fun t => Task.entered t ≤ mayEnter maxCalls nth) ?_ (Nat.zero_le _)
      hleads fun _ _ => trivial
    intro t beat _ ht hallows _
    simp only [Task.entered, List.countP_append, List.countP_singleton] at ht ⊢
    split
    · rename_i hb
      obtain ⟨hn, ht⟩ := hallows.2 hb
      simp only [Task.entered] at ht
      exact Nat.le_of_eq (by rw [ht, mayEnter, if_pos hn])
    · exact ht
  · rwa [hh] at hrest
  · rwa [hr] at hrest

/-- The timelines of the calls of a round. -/
def timelines (w : Workshop) (ledger : Ledger) (requests : List CallRequest) : List (Timeline Beat ToolResult) :=
  requests.zipIdx.map fun (request, i) => (w.execute ledger.maxCalls (ledger.calls + i + 1) request).timeline

theorem mem_timelines {t : Timeline Beat ToolResult} (h : t ∈ w.timelines ledger requests) :
    ∃ nth request, t = (w.execute ledger.maxCalls nth request).timeline := by
  obtain ⟨⟨request, i⟩, -, rfl⟩ := List.mem_map.1 h
  exact ⟨_, request, rfl⟩

theorem ofCall_round {beat : Nat × Beat} (h : beat ∈ (w.round ledger requests).beats) {e : Entry}
    (he : beat.2 = .entry e) : e.isOfCall := by
  obtain ⟨all, hperm, hpre⟩ := Timeline.beats_together (w.timelines ledger requests)
  obtain ⟨t, ht, hb⟩ := List.mem_flatMap.1 (hperm.mem_iff.1 (hpre.mem h))
  obtain ⟨nth, request, rfl⟩ := mem_timelines ht
  exact (timeline_execute w _ nth request).1 beat hb e he

/-- The first calls from a number on may enter as many bodies as there are calls left under the limit. -/
private theorem entered_timelines_le (requests : List CallRequest) (counted : Nat) :
    enteredIn ((requests.zipIdx counted).flatMap fun (request, i) =>
        (w.execute ledger.maxCalls (ledger.calls + i + 1) request).timeline.beats) ≤
      min requests.length (ledger.maxCalls - (ledger.calls + counted)) := by
  induction requests generalizing counted with
  | nil => exact Nat.zero_le _
  | cons request requests ih =>
    have hrest := ih (counted + 1)
    have hfirst := (timeline_execute w ledger.maxCalls (ledger.calls + counted + 1) request).2.1
    simp only [enteredIn, mayEnter, List.zipIdx_cons, List.flatMap_cons, List.countP_append, List.length_cons] at *
    split at hfirst <;> omega

/-- A round enters at most as many bodies as it has calls, and as there are calls left under the limit. -/
theorem entered_round_le (w : Workshop) (ledger : Ledger) (requests : List CallRequest) :
    enteredIn (w.round ledger requests).beats ≤ min requests.length (ledger.maxCalls - ledger.calls) := by
  obtain ⟨all, hperm, hpre⟩ := Timeline.beats_together (w.timelines ledger requests)
  calc enteredIn (w.round ledger requests).beats
    _ ≤ enteredIn all := hpre.sublist.countP_le
    _ = enteredIn ((w.timelines ledger requests).flatMap (·.beats)) := hperm.countP_eq _
    _ ≤ _ := by
      rw [timelines, List.flatMap_map]
      exact entered_timelines_le requests 0

theorem mayHang_of_round (h : (w.round ledger requests).ending = .hangs) : w.MayHang := by
  obtain ⟨t, ht, hh⟩ := Timeline.exists_hangs_of_together h
  obtain ⟨nth, request, rfl⟩ := mem_timelines (show t ∈ w.timelines ledger requests from ht)
  exact (timeline_execute w _ nth request).2.2.1 hh

/-- The results are those of the calls, one for each and in their order. -/
theorem callIds_round {results : List ToolResult} (h : (w.round ledger requests).ending = .returns results) :
    results.map (·.callId) = requests.map (·.id) := by
  have h : (w.timelines ledger requests).map (·.ending) = results.map .returns := Timeline.ending_together h
  have hlength : requests.length = results.length := by simpa [timelines] using congrArg List.length h
  refine List.ext_getElem (by simp [hlength]) fun i hi hi' => ?_
  rw [List.length_map] at hi hi'
  have hnth := congrArg (·[i]?) h
  simp only [timelines, List.getElem?_map, List.getElem?_zipIdx, List.getElem?_eq_getElem hi,
    List.getElem?_eq_getElem hi', Option.map_some, Option.some.injEq] at hnth
  rw [List.getElem_map, List.getElem_map]
  exact (timeline_execute w _ _ _).2.2.2 _ hnth

/-! ### The ledger -/

@[simp] theorem calls_markAll (ledger : Ledger) (tools : List String) :
    (ledger.markAll tools).calls = ledger.calls ∧ (ledger.markAll tools).maxCalls = ledger.maxCalls := by
  induction tools generalizing ledger with
  | nil => exact ⟨rfl, rfl⟩
  | cons tool tools ih =>
    have hmark : (ledger.markUsed tool).calls = ledger.calls ∧ (ledger.markUsed tool).maxCalls = ledger.maxCalls := by
      unfold Ledger.markUsed
      split <;> exact ⟨rfl, rfl⟩
    exact ⟨(ih _).1.trans hmark.1, (ih _).2.trans hmark.2⟩

/-- A round counts its requests, whatever became of them. -/
theorem calls_settle (ledger : Ledger) (requests : List CallRequest) (beats : List (Nat × Beat)) :
    (settle ledger requests beats).calls = ledger.calls + requests.length ∧
      (settle ledger requests beats).maxCalls = ledger.maxCalls :=
  calls_markAll ..

end Workshop

end AgentLoop
