import AgentLoop.Proofs.Gates

/-!
# Which calls execute tools

Whatever a round shows of the execution of a tool comes from one of its calls: it has passed all gates, and by then its
hooks were consulted and a body was entered with the arguments that they left it.  That is so in every schedule.  A
call that is refused shows nothing of the kind, and does not keep the others from coming to their results.
-/

namespace AgentLoop

open Process

/-! ### Beats in their places -/

/-- An element of a list that is split at two elements is one of those before the first, the first itself, or one of
those after it. -/
private theorem cases_of_append_cons {α : Type} {xs ys u v : List α} {x y : α} (h : xs ++ x :: ys = u ++ y :: v) :
    y ∈ xs ∨ (u = xs ∧ y = x) ∨ ∃ more, u = xs ++ x :: more ∧ ys = more ++ y :: v := by
  rcases List.append_eq_append_iff.1 h with ⟨as, rfl, has⟩ | ⟨bs, rfl, hbs⟩
  · cases as with
    | nil =>
      obtain ⟨rfl, rfl⟩ := List.cons.inj has
      exact .inr (.inl ⟨List.append_nil _, rfl⟩)
    | cons a as =>
      obtain ⟨rfl, rfl⟩ := List.cons.inj has
      exact .inr (.inr ⟨as, rfl, rfl⟩)
  · cases bs with
    | nil =>
      obtain ⟨rfl, rfl⟩ := List.cons.inj hbs
      exact .inr (.inl ⟨(List.append_nil _).symm, rfl⟩)
    | cons b bs =>
      obtain ⟨rfl, -⟩ := List.cons.inj hbs
      exact .inl (by simp)

/-- An element of two lists in a row is in the first of them, or in the second. -/
theorem cases_of_append {α : Type} {xs ys u v : List α} {y : α} (h : xs ++ ys = u ++ y :: v) :
    (∃ more, xs = u ++ y :: more) ∨ ∃ more, u = xs ++ more ∧ ys = more ++ y :: v := by
  rcases List.append_eq_append_iff.1 h with ⟨as, rfl, has⟩ | ⟨bs, rfl, hbs⟩
  · exact .inr ⟨as, rfl, has⟩
  · cases bs with
    | nil => exact .inr ⟨[], by simp, by simpa using hbs.symm⟩
    | cons b bs =>
      obtain ⟨rfl, -⟩ := List.cons.inj hbs
      exact .inl ⟨bs, rfl⟩

namespace Timeline

variable {ν α : Type} {before after : List (Nat × ν)} {beat : Nat × ν}

/-- A beat comes from one of two interleaved lists, and whatever comes before it there comes before it. -/
private theorem of_interleave {xs ys : List (Nat × ν)} (h : interleave xs ys = before ++ beat :: after) :
    (∃ u v, xs = u ++ beat :: v ∧ u.Sublist before) ∨ ∃ u v, ys = u ++ beat :: v ∧ u.Sublist before := by
  rw [interleave_eq_merge] at h
  induction xs generalizing ys before with
  | nil =>
    rw [List.nil_merge] at h
    exact .inr ⟨before, after, h, .refl _⟩
  | cons x xs ihx =>
    induction ys generalizing before with
    | nil =>
      rw [List.merge_right] at h
      exact .inl ⟨before, after, h, .refl _⟩
    | cons y ys ihy =>
      rw [List.cons_merge_cons] at h
      split at h
      · cases before with
        | nil =>
          obtain ⟨rfl, -⟩ := List.cons.inj h
          exact .inl ⟨[], xs, rfl, .refl _⟩
        | cons b before =>
          obtain ⟨rfl, hrest⟩ := List.cons.inj h
          rcases ihx hrest with ⟨u, v, rfl, hu⟩ | ⟨u, v, hy, hu⟩
          · exact .inl ⟨x :: u, v, rfl, hu.cons_cons x⟩
          · exact .inr ⟨u, v, hy, hu.cons x⟩
      · cases before with
        | nil =>
          obtain ⟨rfl, -⟩ := List.cons.inj h
          exact .inr ⟨[], ys, rfl, .refl _⟩
        | cons b before =>
          obtain ⟨rfl, hrest⟩ := List.cons.inj h
          rcases ihy hrest with ⟨u, v, hx, hu⟩ | ⟨u, v, rfl, hu⟩
          · exact .inl ⟨u, v, hx, hu.cons y⟩
          · exact .inr ⟨y :: u, v, rfl, hu.cons_cons y⟩

private theorem of_foldr_interleave {lists : List (List (Nat × ν))}
    (h : lists.foldr interleave [] = before ++ beat :: after) :
    ∃ (i : Nat) (u v : List (Nat × ν)), lists[i]? = some (u ++ beat :: v) ∧ u.Sublist before := by
  induction lists generalizing before after with
  | nil => cases before <;> cases h
  | cons first rest ih =>
    rcases of_interleave h with ⟨u, v, rfl, hu⟩ | ⟨u, v, hrest, hu⟩
    · exact ⟨0, u, v, rfl, hu⟩
    · obtain ⟨i, u', v', hi, hu'⟩ := ih hrest
      exact ⟨i + 1, u', v', hi, hu'.trans hu⟩

/-- A beat of several timelines together comes from one of them, and whatever comes before it there comes before it. -/
private theorem of_together {ts : List (Timeline ν α)} (h : (together ts).beats = before ++ beat :: after) :
    ∃ (i : Nat) (t : Timeline ν α) (u v : List (Nat × ν)), ts[i]? = some t ∧ t.beats = u ++ beat :: v ∧
      u.Sublist before := by
  have hall : ∃ more, (ts.map (·.beats)).foldr interleave [] = (before ++ beat :: after) ++ more := by
    rw [← h]
    unfold together
    dsimp only
    split
    · exact ⟨_, List.takeWhile_append_dropWhile.symm⟩
    · split <;> exact ⟨[], (List.append_nil _).symm⟩
  obtain ⟨more, hall⟩ := hall
  rw [List.append_assoc, List.cons_append] at hall
  obtain ⟨i, u, v, hi, hu⟩ := of_foldr_interleave hall
  rw [List.getElem?_map] at hi
  obtain ⟨t, ht, hbeats⟩ := Option.map_eq_some_iff.1 hi
  exact ⟨i, t, u, v, ht, hbeats, hu⟩

end Timeline

/-! ### Executions -/

/-- The tool to whose execution an entry belongs. -/
def Entry.tool? : Entry → Option String
  | .entered tool _ => some tool
  | .afterToolCall _ _ call _ => some call.name
  | .event (.toolExecuted tool ..) => some tool
  | _ => none

/-- The tool to whose execution a beat belongs. -/
def Beat.tool? : Beat → Option String
  | .entry e => e.tool?
  | .used tool => some tool

namespace Workshop

variable {w : Workshop} {maxCalls nth : Nat} {request : CallRequest} {ledger : Ledger} {requests : List CallRequest}
  {before : List Beat} {beat : Beat} {tool : String} {rest : Task ToolResult}

/-- With this beat, after these, a request executes a tool: it has passed all gates, and either it enters the body now,
with the arguments that it was let through with, or it has done so. -/
inductive Executes (w : Workshop) (maxCalls nth : Nat) (request : CallRequest) : List Beat → Beat → Prop where
  | enters {given arguments : Json} {asked : List Hook} (h : w.Admits maxCalls nth request given asked arguments) :
    Executes w maxCalls nth request (HookChain.consultations w.context (callOf request given) asked)
      (.entry (.entered request.name arguments))
  | follows {given arguments : Json} {asked : List Hook} {since : List Beat} {beat : Beat}
    (h : w.Admits maxCalls nth request given asked arguments) (hb : isAftermath request.name beat = true) :
    Executes w maxCalls nth request
      (HookChain.consultations w.context (callOf request given) asked ++
        .entry (.entered request.name arguments) :: since) beat

private theorem tool?_of_isConsultation (h : beat.isConsultation = true) : beat.tool? = none := by
  cases beat with
  | used => cases h
  | entry entry => cases entry <;> first | rfl | cases h

private theorem tool?_of_isAftermath (h : isAftermath tool beat = true) : beat.tool? = some tool := by
  cases beat with
  | used name => exact congrArg some (beq_iff_eq.1 h)
  | entry entry =>
    cases entry with
    | afterToolCall _ _ call _ => exact congrArg some (beq_iff_eq.1 h)
    | event event =>
      cases event with
      | toolExecuted name => exact congrArg some (beq_iff_eq.1 h)
      | _ => cases h
    | _ => cases h

/-- Whatever of an execution a request leaves behind, it leaves behind after it has passed all gates. -/
private theorem executes_of_leads {after : List Beat}
    (hl : Leads (w.execute maxCalls nth request) (Crew.traceOf (before ++ beat :: after)) rest)
    (ht : beat.tool? = some tool) : tool = request.name ∧ w.Executes maxCalls nth request before beat := by
  have htrace : Crew.traceOf (before ++ beat :: after) = Crew.traceOf before ++ ⟨beat, ()⟩ :: Crew.traceOf after :=
    List.map_append
  have hbeats (beats : List Beat) : (Crew.traceOf beats).map (·.1) = beats := by simp [Function.comp_def]
  rw [htrace] at hl
  rcases leads_execute hl with hconsulted | ⟨given, asked, arguments, since, hadmits, hall, hsince⟩
  · have hconsults : beat.isConsultation = true := hconsulted ⟨beat, ()⟩ (by simp)
    rw [tool?_of_isConsultation hconsults] at ht
    cases ht
  · rcases cases_of_append_cons hall.symm with hmem | ⟨hbefore, hentered⟩ | ⟨more, hbefore, hafter⟩
    · obtain ⟨other, hother, hsame⟩ := List.mem_map.1 hmem
      obtain rfl : other = beat := congrArg Sigma.fst hsame
      rw [tool?_of_isConsultation (HookChain.isConsultation_of_mem hother)] at ht
      cases ht
    · obtain rfl : beat = .entry (.entered request.name arguments) := congrArg Sigma.fst hentered
      have hbefore := congrArg (List.map (·.1)) hbefore
      rw [hbeats, hbeats] at hbefore
      refine ⟨(Option.some.inj ht).symm, hbefore ▸ .enters hadmits⟩
    · have haftermath : isAftermath request.name beat = true := hsince ⟨beat, ()⟩ (by simp [hafter])
      have hbefore := congrArg (List.map (·.1)) hbefore
      rw [hbeats, List.map_append, hbeats, List.map_cons] at hbefore
      rw [tool?_of_isAftermath haftermath] at ht
      exact ⟨(Option.some.inj ht).symm, hbefore ▸ .follows hadmits haftermath⟩

/-- In a round it is left behind by one of the requests, and whatever that request has done before has happened. -/
theorem executes_of_round {earlier later : List (Nat × Beat)} {time : Nat}
    (h : (w.round ledger requests).beats = earlier ++ (time, beat) :: later) (ht : beat.tool? = some tool) :
    ∃ (i : Nat) (request : CallRequest) (own : List Beat), requests[i]? = some request ∧ request.name = tool ∧
      w.Executes ledger.maxCalls (ledger.calls + i + 1) request own beat ∧ own.Sublist (earlier.map (·.2)) := by
  have hround : (Timeline.together (w.timelines ledger requests)).beats = earlier ++ (time, beat) :: later := h
  obtain ⟨i, t, u, v, hi, hbeats, hu⟩ := Timeline.of_together hround
  have hlt : i < requests.length := by simpa using (List.getElem?_eq_some_iff.1 hi).1
  have hr := List.getElem?_eq_getElem hlt
  obtain rfl : t = (Crew.task w ledger i requests[i]).timeline := Option.some.inj (hi.symm.trans (getElem?_timelines hr))
  have hleads : Leads (Crew.task w ledger i requests[i])
      (notesOf (Crew.task w ledger i requests[i]).timeline.beats) _ := leads_timelineFrom _ 0
  have hnotes : notesOf (u ++ (time, beat) :: v) = Crew.traceOf (u.map (·.2) ++ beat :: v.map (·.2)) := by
    simp [notesOf, Crew.traceOf, Function.comp_def]
  rw [hbeats, hnotes] at hleads
  obtain ⟨hname, hexecutes⟩ := executes_of_leads hleads ht
  exact ⟨i, requests[i], u.map (·.2), hr, hname.symm, hexecutes, hu.map _⟩

end Workshop

namespace Crew

variable {w : Workshop} {ledger : Ledger} {requests : List CallRequest} {c : Crew} {i : Nat} {tool : String}

/-- The beats among these that are a worker's. -/
def ownIn (i : Nat) (beats : List (Nat × Beat)) : List Beat :=
  beats.filterMap fun (j, beat) => if j = i then some beat else none

theorem Reaches.lt_length_of_mem_beats (h : Reaches w ledger requests c) {beat : Beat} (hb : (i, beat) ∈ c.beats) :
    i < requests.length := by
  induction h with
  | refl => cases hb
  | tail hreach hs ih =>
    cases hs with
    | acts hw =>
      rcases List.mem_append.1 hb with hb | hb
      · exact ih hb
      · cases List.mem_singleton.1 hb
        rw [← (Reaches.sound hreach).workers]
        exact (List.getElem?_eq_some_iff.1 hw).1
    | begins | waits | yields | joins => exact ih hb

private theorem Sound.leads (h : Sound w ledger requests c) {request : CallRequest} (hr : requests[i]? = some request) :
    ∃ rest, Leads (task w ledger i request) (traceOf (c.beatsOf i)) rest := by
  cases h.stands hr with
  | waiting _ _ _ hb => exact ⟨_, by rw [hb]; exact .here _⟩
  | working _ _ _ hl | gone _ _ _ hl => exact ⟨_, hl⟩

/-- Whatever the schedule, it is left behind by a worker that has done what its request has to do before. -/
theorem Reaches.executes (h : Reaches w ledger requests c) {before after : List (Nat × Beat)} {beat : Beat}
    (hb : c.beats = before ++ (i, beat) :: after) (ht : beat.tool? = some tool) :
    ∃ request, requests[i]? = some request ∧ request.name = tool ∧
      w.Executes ledger.maxCalls (ledger.calls + i + 1) request (ownIn i before) beat := by
  have hmem : (i, beat) ∈ c.beats := hb ▸ List.mem_append_right _ (List.mem_cons_self ..)
  have hlt : i < requests.length := h.lt_length_of_mem_beats hmem
  have hr := List.getElem?_eq_getElem hlt
  have hown : c.beatsOf i = ownIn i before ++ beat :: ownIn i after := by
    show ownIn i c.beats = _
    rw [hb, ownIn, List.filterMap_append, List.filterMap_cons]
    simp [ownIn]
  obtain ⟨rest, hl⟩ := h.sound.leads hr
  rw [hown] at hl
  obtain ⟨hname, hexecutes⟩ := Workshop.executes_of_leads hl ht
  exact ⟨requests[i], hr, hname.symm, hexecutes⟩

end Crew

/-! ### Refusals -/

/-- A process that only takes notes takes those it takes by the time it returns, as far as it has come. -/
theorem prefix_of_leads {ν α : Type} {p q : Process (.notes ν) α} {t u : List (Exchange (.notes ν))} {a : α}
    (h : Leads p t q) (h' : Leads p u (done a)) : t.map (·.1) <+: u.map (·.1) := by
  obtain ⟨later, -, hb⟩ := Crew.timelineFrom_of_leads h 0
  obtain ⟨end', -, hb'⟩ := Crew.timelineFrom_of_leads h' 0
  have hdone : ((done a : Process (.notes ν) α).timelineFrom end').beats = [] := rfl
  rw [hdone, List.map_nil, List.append_nil] at hb'
  exact ⟨_, hb.symm.trans hb'⟩

namespace Workshop

variable {w : Workshop} {ledger : Ledger} {requests : List CallRequest} {request : CallRequest} {i : Nat}
  {left : List Beat} {output : String}

/-- What becomes of a request that is refused. -/
structure TurnedDown (w : Workshop) (ledger : Ledger) (requests : List CallRequest) (i : Nat) (request : CallRequest)
    (left : List Beat) (output : String) : Prop where
  /-- What it leaves behind are consultations, and nothing of an execution, -/
  consults : ∀ beat ∈ left, beat.isConsultation = true ∧ beat.tool? = none
  leaves : (Crew.task w ledger i request).timeline.beats.map (·.2) = left
  /-- in whatever schedule of the round. -/
  scheduled {c : Crew} (h : Crew.Reaches w ledger requests c) : c.beatsOf i <+: left
  /-- It comes to a failed result under its own id, -/
  alone : w.alone ledger i request = .returns (.ok [⟨request.id, false, output⟩])
  /-- which stands in its place among those of the round, -/
  result {results : List ToolResult} (h : (w.perform none ledger requests).ending = .returns (.ok results)) :
    results[i]? = some ⟨request.id, false, output⟩
  joined {c : Crew} {results : List ToolResult} (h : Crew.Reaches w ledger requests c) (he : c.Ends (.ok results)) :
    results[i]? = some ⟨request.id, false, output⟩
  /-- and the round returns if the others do, with what they come to alone. -/
  others (h : ∀ (j : Nat) (other : CallRequest), j ≠ i → requests[j]? = some other →
      ∃ results, w.alone ledger j other = .returns (.ok results)) :
    ∃ results, (w.perform none ledger requests).ending = .returns (.ok results) ∧ w.EachAlone ledger requests results

theorem Refuses.consults {maxCalls nth : Nat} (h : w.Refuses maxCalls nth request left output) {beat : Beat}
    (hb : beat ∈ left) : beat.isConsultation = true := by
  cases h with
  | limit | malformed => cases hb
  | hook | unknown => exact HookChain.isConsultation_of_mem hb

private theorem EachAlone.getElem? {results : List ToolResult} {result : ToolResult}
    (h : w.EachAlone ledger requests results)
    (hr : requests[i]? = some request) (ha : w.alone ledger i request = .returns (.ok [result])) :
    results[i]? = some result := by
  obtain ⟨other, hi, -, hother⟩ := h.result hr
  cases hother.symm.trans ha
  exact hi

private theorem eachAlone_of_perform {results : List ToolResult}
    (h : (w.perform none ledger requests).ending = .returns (.ok results)) : w.EachAlone ledger requests results := by
  rw [(perform_none ..).1] at h
  cases hround : (w.round ledger requests).ending with
  | returns values =>
    rw [hround] at h
    cases h
    exact eachAlone_of_endings (Timeline.ending_together hround)
  | faults message =>
    rw [hround] at h
    cases h
  | hangs =>
    rw [hround] at h
    cases h

theorem Refuses.turnedDown (hr : requests[i]? = some request)
    (h : w.Refuses ledger.maxCalls (ledger.calls + i + 1) request left output) :
    w.TurnedDown ledger requests i request left output := by
  have hleads : Leads (Crew.task w ledger i request) (Crew.traceOf left) (done ⟨request.id, false, output⟩) := h.leads
  have hleft : (Crew.traceOf left).map (·.1) = left := by simp [Function.comp_def]
  obtain ⟨later, hending, hbeats⟩ := Crew.timelineFrom_of_leads hleads 0
  have halone : w.alone ledger i request = .returns (.ok [⟨request.id, false, output⟩]) :=
    alone_eq_ok_iff.2 ⟨_, rfl, hending⟩
  constructor
  case consults =>
    intro beat hb
    have hconsults := h.consults hb
    exact ⟨hconsults, tool?_of_isConsultation hconsults⟩
  case leaves =>
    rw [hleft] at hbeats
    exact hbeats.trans (List.append_nil left)
  case scheduled =>
    intro c hc
    obtain ⟨rest, hl⟩ := hc.sound.leads hr
    have hprefix := prefix_of_leads hl hleads
    rw [hleft] at hprefix
    simpa [Function.comp_def] using hprefix
  case alone => exact halone
  case result =>
    intro results hp
    exact (eachAlone_of_perform hp).getElem? hr halone
  case joined =>
    intro c results hc he
    exact (hc.eachAlone he).1.getElem? hr halone
  case others =>
    intro hothers
    have hall : w.AllReturn ledger requests := by
      intro j other hj
      by_cases hji : j = i
      · subst hji
        obtain rfl : request = other := Option.some.inj (hr.symm.trans hj)
        exact ⟨_, halone⟩
      · exact hothers j other hji hj
    obtain ⟨results, hresults⟩ := hall.exists_eachAlone
    exact ⟨results, hresults.perform, hresults⟩

end Workshop

end AgentLoop
