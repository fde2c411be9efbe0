import AgentLoop.Proofs.Conversation
import AgentLoop.Proofs.Crew
import AgentLoop.Proofs.Instant

/-!
# Side by side and one by one

Whatever the schedule of a round, its results are those of its requests alone, each counted after the ones before it,
and the limit of tool calls cuts off the same requests.  A request whose task breaks down ends the round with a fault
and without results, and the run with it: nothing more is asked of the model, and nothing is saved.
-/

namespace AgentLoop

open Process

/-! ### Timelines together -/

namespace Timeline

variable {ν α : Type} {ts : List (Timeline ν α)}

private theorem firstFault_eq_none (h : ∀ t ∈ ts, ∀ message, t.ending ≠ .faults message) : firstFault ts = none := by
  induction ts with
  | nil => rfl
  | cons t ts ih =>
    have hrest := ih fun t' ht => h t' (List.mem_cons_of_mem _ ht)
    unfold firstFault
    cases ht : t.ending with
    | faults message => exact absurd ht (h t (List.mem_cons_self ..) message)
    | returns | hangs => exact hrest

private theorem exists_of_firstFault {instant : Nat} {message : String} (h : firstFault ts = some (instant, message)) :
    ∃ t ∈ ts, t.ending = .faults message := by
  induction ts generalizing instant with
  | nil => cases h
  | cons t ts ih =>
    unfold firstFault at h
    have hrest (h : firstFault ts = some (instant, message)) : ∃ t' ∈ t :: ts, t'.ending = .faults message := by
      obtain ⟨t', ht, he⟩ := ih h
      exact ⟨t', List.mem_cons_of_mem _ ht, he⟩
    cases ht : t.ending with
    | returns | hangs =>
      rw [ht] at h
      exact hrest h
    | faults text =>
      rw [ht] at h
      have hself (ht' : text = message) : ∃ t' ∈ t :: ts, t'.ending = .faults message :=
        ⟨t, List.mem_cons_self .., ht' ▸ ht⟩
      cases hs : firstFault ts with
      | none =>
        rw [hs] at h
        cases h
        exact hself rfl
      | some other =>
        obtain ⟨later, other⟩ := other
        rw [hs] at h
        dsimp only at h
        split at h
        · cases h
          exact hself rfl
        · cases h
          exact hrest hs

private theorem firstFault_ne_none {t : Timeline ν α} {message : String} (ht : t ∈ ts)
    (he : t.ending = .faults message) :
    firstFault ts ≠ none := by
  induction ts with
  | nil => cases ht
  | cons first ts ih =>
    unfold firstFault
    rcases List.mem_cons.1 ht with rfl | ht
    · rw [he]
      cases firstFault ts with
      | none => simp
      | some => dsimp only; split <;> simp
    · have hrest := ih ht
      cases hs : firstFault ts with
      | none => exact absurd hs hrest
      | some other =>
        cases first.ending with
        | returns | hangs => simp
        | faults => dsimp only; split <;> simp

private theorem values?_of_returns {as : List α} (h : ts.map (·.ending) = as.map .returns) : values? ts = some as := by
  induction ts generalizing as with
  | nil =>
    cases as with
    | nil => rfl
    | cons => cases h
  | cons t ts ih =>
    cases as with
    | nil => cases h
    | cons a as =>
      obtain ⟨ha, has⟩ := List.cons.inj h
      simp only [values?, ha, ih has]

/-- Timelines that all return, together return their values. -/
theorem together_of_returns {as : List α} (h : ts.map (·.ending) = as.map .returns) :
    (together ts).ending = .returns as := by
  have hnone : firstFault ts = none := by
    refine firstFault_eq_none fun t ht message he => ?_
    have hmem : t.ending ∈ as.map Ending.returns := h ▸ List.mem_map_of_mem ht
    obtain ⟨a, -, ha⟩ := List.mem_map.1 hmem
    rw [he] at ha
    cases ha
  simp only [together, hnone, values?_of_returns h]

/-- If one of several timelines breaks down, all of them do together, with the message of one that does. -/
private theorem together_of_faults {t : Timeline ν α} {message : String} (ht : t ∈ ts)
    (he : t.ending = .faults message) :
    ∃ first ∈ ts, ∃ text, first.ending = .faults text ∧ (together ts).ending = .faults text := by
  cases hf : firstFault ts with
  | none => exact absurd hf (firstFault_ne_none ht he)
  | some found =>
    obtain ⟨instant, text⟩ := found
    obtain ⟨first, hfirst, htext⟩ := exists_of_firstFault hf
    exact ⟨first, hfirst, text, htext, by simp only [together, hf]⟩

private theorem ending_upTo_none (t : Timeline ν α) : (t.upTo none).ending =
    match t.ending with
    | .returns a => .returns (some a)
    | .faults message => .faults message
    | .hangs => .hangs := by
  unfold upTo
  cases t.ending <;> rfl

private theorem beats_upTo_none (t : Timeline ν α) : (t.upTo none).beats = t.beats := by
  unfold upTo
  cases t.ending <;> rfl

end Timeline

/-! ### Requests alone -/

namespace Workshop

variable {w : Workshop} {ledger : Ledger} {requests : List CallRequest} {request : CallRequest} {i : Nat}
  {results : List ToolResult} {error : RunError}

/-- What comes of a request alone, counted after so many others. -/
def alone (w : Workshop) (ledger : Ledger) (i : Nat) (request : CallRequest) :
    Ending (Except RunError (List ToolResult)) :=
  (w.perform none { ledger with calls := ledger.calls + i } [request]).ending

theorem perform_none (w : Workshop) (ledger : Ledger) (requests : List CallRequest) :
    (w.perform none ledger requests).ending =
        (match (w.round ledger requests).ending with
        | .returns results => .returns (.ok results)
        | .faults message => .returns (.error (.tool (.fault (faultText message))))
        | .hangs => .hangs) ∧
      (w.perform none ledger requests).ledger.calls = ledger.calls + requests.length ∧
      (w.perform none ledger requests).beats = (w.round ledger requests).beats := by
  cases requests with
  | nil => exact ⟨rfl, rfl, rfl⟩
  | cons request more =>
    have hcons : (request :: more).isEmpty = false := rfl
    unfold perform
    simp only [hcons, Bool.false_eq_true, if_false, reduceCtorEq, Timeline.ending_upTo_none, Timeline.beats_upTo_none]
    refine ⟨?_, (calls_settle ..).1, trivial⟩
    cases (w.round ledger (request :: more)).ending <;> rfl

private theorem alone_eq (w : Workshop) (ledger : Ledger) (i : Nat) (request : CallRequest) :
    w.alone ledger i request =
      match (Crew.task w ledger i request).timeline.ending with
      | .returns result => .returns (.ok [result])
      | .faults message => .returns (.error (.tool (.fault (faultText message))))
      | .hangs => .hangs := by
  have hround : w.round { ledger with calls := ledger.calls + i } [request] =
      Timeline.together [(Crew.task w ledger i request).timeline] := rfl
  rw [alone, (perform_none ..).1, hround]
  generalize (Crew.task w ledger i request).timeline = t
  cases ht : t.ending <;> simp [Timeline.together, Timeline.firstFault, Timeline.values?, ht]

theorem alone_eq_ok_iff : w.alone ledger i request = .returns (.ok results) ↔
    ∃ result, results = [result] ∧ (Crew.task w ledger i request).timeline.ending = .returns result := by
  rw [alone_eq]
  cases (Crew.task w ledger i request).timeline.ending <;> simp [eq_comm]

private theorem alone_eq_error_iff : w.alone ledger i request = .returns (.error error) ↔
    ∃ message, error = .tool (.fault (faultText message)) ∧
      (Crew.task w ledger i request).timeline.ending = .faults message := by
  rw [alone_eq]
  cases (Crew.task w ledger i request).timeline.ending <;> simp [eq_comm]

private theorem alone_eq_hangs_iff :
    w.alone ledger i request = .hangs ↔ (Crew.task w ledger i request).timeline.ending = .hangs := by
  rw [alone_eq]
  cases (Crew.task w ledger i request).timeline.ending <;> simp

theorem getElem?_timelines (h : requests[i]? = some request) :
    (w.timelines ledger requests)[i]? = some (Crew.task w ledger i request).timeline := by
  have hlt := (List.getElem?_eq_some_iff.1 h).1
  obtain rfl : requests[i] = request := (List.getElem?_eq_some_iff.1 h).2
  simp [timelines, hlt, Crew.task]

@[simp] theorem length_timelines (w : Workshop) (ledger : Ledger) (requests : List CallRequest) :
    (w.timelines ledger requests).length = requests.length := by
  simp [timelines]

private theorem mem_timelines_iff {t : Timeline Beat ToolResult} : t ∈ w.timelines ledger requests ↔
    ∃ (i : Nat) (request : CallRequest), requests[i]? = some request ∧ t = (Crew.task w ledger i request).timeline := by
  rw [List.mem_iff_getElem?]
  constructor
  · rintro ⟨i, ht⟩
    have hlt : i < requests.length := by simpa using (List.getElem?_eq_some_iff.1 ht).1
    have hr := List.getElem?_eq_getElem hlt
    exact ⟨i, _, hr, Option.some.inj (ht.symm.trans (getElem?_timelines hr))⟩
  · rintro ⟨i, request, hr, rfl⟩
    exact ⟨i, getElem?_timelines hr⟩

/-- One result for each request, under its id, and the one it comes to alone. -/
structure EachAlone (w : Workshop) (ledger : Ledger) (requests : List CallRequest) (results : List ToolResult) : Prop where
  length : results.length = requests.length
  result {i : Nat} {request : CallRequest} (h : requests[i]? = some request) :
    ∃ result, results[i]? = some result ∧ result.callId = request.id ∧ w.alone ledger i request = .returns (.ok [result])

theorem eachAlone_of_endings (h : (w.timelines ledger requests).map (·.ending) = results.map .returns) :
    w.EachAlone ledger requests results := by
  have hlength : results.length = requests.length := by simpa using (congrArg List.length h).symm
  refine ⟨hlength, fun {i request} hr => ?_⟩
  have hlt : i < results.length := hlength.symm ▸ (List.getElem?_eq_some_iff.1 hr).1
  have hi := congrArg (·[i]?) h
  simp only [List.getElem?_map, getElem?_timelines hr, List.getElem?_eq_getElem hlt, Option.map_some,
    Option.some.injEq] at hi
  exact ⟨results[i], List.getElem?_eq_getElem hlt, (timeline_execute w _ _ request).2.2.2 _ hi,
    alone_eq_ok_iff.2 ⟨_, rfl, hi⟩⟩

theorem EachAlone.endings (h : w.EachAlone ledger requests results) :
    (w.timelines ledger requests).map (·.ending) = results.map .returns := by
  refine List.ext_getElem? fun i => ?_
  cases hr : requests[i]? with
  | none =>
    have hle := List.getElem?_eq_none_iff.1 hr
    simp [hle, h.length]
  | some request =>
    obtain ⟨result, hi, -, halone⟩ := h.result hr
    obtain ⟨_, ⟨⟩, hending⟩ := alone_eq_ok_iff.1 halone
    simp [getElem?_timelines hr, hi, hending]

/-- If each request comes to a result alone, these are the results of the round. -/
theorem EachAlone.perform (h : w.EachAlone ledger requests results) :
    (w.perform none ledger requests).ending = .returns (.ok results) := by
  have hround : (w.round ledger requests).ending = .returns results := Timeline.together_of_returns h.endings
  rw [(perform_none ..).1, hround]

/-- Each of the requests comes to a result alone. -/
def AllReturn (w : Workshop) (ledger : Ledger) (requests : List CallRequest) : Prop :=
  ∀ (i : Nat) (request : CallRequest), requests[i]? = some request → ∃ results, w.alone ledger i request = .returns (.ok results)

theorem AllReturn.exists_eachAlone (h : w.AllReturn ledger requests) : ∃ results, w.EachAlone ledger requests results := by
  have hreturn : ∀ ending ∈ (w.timelines ledger requests).map (·.ending), ∃ result, Ending.returns result = ending := by
    intro ending hending
    obtain ⟨t, ht, rfl⟩ := List.mem_map.1 hending
    obtain ⟨i, request, hr, rfl⟩ := mem_timelines_iff.1 ht
    obtain ⟨results, halone⟩ := h i request hr
    obtain ⟨result, -, he⟩ := alone_eq_ok_iff.1 halone
    exact ⟨result, he.symm⟩
  have hrange : (w.timelines ledger requests).map (·.ending) ∈ Set.range (List.map Ending.returns) :=
    Set.range_list_map Ending.returns ▸ hreturn
  obtain ⟨results, hr⟩ := hrange
  exact ⟨results, eachAlone_of_endings hr.symm⟩

/-- If one of the requests breaks down alone, the round breaks down like one that does. -/
private theorem faults_of_alone (hr : requests[i]? = some request)
    (h : w.alone ledger i request = .returns (.error error)) :
    ∃ (j : Nat) (first : CallRequest) (message : String), requests[j]? = some first ∧
      w.alone ledger j first = .returns (.error (.tool (.fault (faultText message)))) ∧
      (w.round ledger requests).ending = .faults message := by
  obtain ⟨message, -, he⟩ := alone_eq_error_iff.1 h
  have hmem : (Crew.task w ledger i request).timeline ∈ w.timelines ledger requests :=
    mem_timelines_iff.2 ⟨i, request, hr, rfl⟩
  obtain ⟨t, ht, text, hfirst, htogether⟩ := Timeline.together_of_faults hmem he
  obtain ⟨j, first, hj, rfl⟩ := mem_timelines_iff.1 ht
  exact ⟨j, first, text, hj, alone_eq_error_iff.2 ⟨text, rfl, hfirst⟩, htogether⟩

/-! ### The limit -/

private theorem task_of_le (h : ledger.maxCalls - ledger.calls ≤ i) (request : CallRequest) :
    Crew.task w ledger i request = .done ⟨request.id, false, limitText ledger.maxCalls request.name⟩ := by
  unfold Crew.task execute
  exact if_pos (by omega)

/-- Within the limit it makes no difference what the limit is. -/
private theorem task_of_lt (h : i < ledger.maxCalls - ledger.calls) {limit : Nat} (hl : ledger.calls + i < limit)
    (request : CallRequest) : Crew.task w ledger i request = Crew.task w { ledger with maxCalls := limit } i request := by
  unfold Crew.task execute
  rw [if_neg (by omega), if_neg (by dsimp only; omega)]

/-- What happens in a round is done by requests within the limit. -/
private theorem within_of_mem_beats {beat : Nat × Beat} (h : beat ∈ (w.round ledger requests).beats) :
    ∃ (i : Nat) (request : CallRequest), requests[i]? = some request ∧ i < ledger.maxCalls - ledger.calls ∧
      beat ∈ (Crew.task w ledger i request).timeline.beats := by
  obtain ⟨all, hperm, hpre⟩ := Timeline.beats_together (w.timelines ledger requests)
  obtain ⟨t, ht, hb⟩ := List.mem_flatMap.1 (hperm.mem_iff.1 (hpre.mem h))
  obtain ⟨i, request, hr, rfl⟩ := mem_timelines_iff.1 ht
  refine ⟨i, request, hr, ?_, hb⟩
  by_contra hi
  rw [task_of_le (Nat.not_lt.1 hi)] at hb
  cases hb

end Workshop

/-! ### Schedules -/

namespace Crew

open Workshop

variable {w : Workshop} {ledger : Ledger} {requests : List CallRequest} {c : Crew}

/-- Where a schedule comes to results, each request comes to its own alone, and all requests are counted. -/
theorem Reaches.eachAlone {results : List ToolResult} (h : Reaches w ledger requests c) (he : c.Ends (.ok results)) :
    w.EachAlone ledger requests results ∧ c.ledger.calls = ledger.calls + requests.length := by
  cases he with
  | returns hg hs =>
    obtain ⟨hlength, hcalls, halone⟩ := h.sound.alone hg hs
    refine ⟨⟨hlength, fun {i request} hr => ?_⟩, hcalls⟩
    obtain ⟨result, hresult, hending, -⟩ := halone i request hr
    exact ⟨result, hresult, (timeline_execute w _ _ request).2.2.2 _ hending, alone_eq_ok_iff.2 ⟨result, rfl, hending⟩⟩

/-- What a worker at work has come to, his request comes to alone. -/
private theorem Sound.ending_of_working (h : Sound w ledger requests c) {i : Nat} {p : Task ToolResult}
    (hw : c.workers[i]? = some (.working p)) : ∃ (request : CallRequest) (now : Nat), requests[i]? = some request ∧
      (task w ledger i request).timeline.ending = (p.timelineFrom now).ending := by
  have hlt : i < requests.length := h.workers ▸ (List.getElem?_eq_some_iff.1 hw).1
  have hr := List.getElem?_eq_getElem hlt
  obtain ⟨-, -, hl⟩ := (h.stands hr).of_working hw
  obtain ⟨now, he, -⟩ := timelineFrom_of_leads hl 0
  exact ⟨_, now, hr, he⟩

/-- Where a schedule comes to an error, that is the breakdown of one of the requests alone. -/
private theorem Reaches.error_alone {error : RunError} (h : Reaches w ledger requests c) (he : c.Ends (.error error)) :
    ∃ (i : Nat) (request : CallRequest), requests[i]? = some request ∧ w.alone ledger i request = .returns (.error error) := by
  cases he with
  | faults hw =>
    obtain ⟨request, now, hr, hending⟩ := h.sound.ending_of_working hw
    exact ⟨_, request, hr, alone_eq_error_iff.2 ⟨_, rfl, hending⟩⟩
  | missing hg hs =>
    obtain ⟨results, hresults⟩ := h.sound.exists_results hg
    rw [hresults] at hs
    obtain ⟨result, -, hnone⟩ := List.mem_map.1 hs
    cases hnone

/-- Where nobody has anything more to do, the round has ended, or some request never comes to an end alone. -/
private theorem Reaches.stops (h : Reaches w ledger requests c) (hn : ∀ c', ¬ Step w c c') :
    (∃ outcome, c.Ends outcome) ∨
    ∃ (i : Nat) (request : CallRequest), requests[i]? = some request ∧ w.alone ledger i request = .hangs := by
  rcases h.sound.ends hn with hends | ⟨i, hw⟩
  · exact .inl hends
  · obtain ⟨request, now, hr, hending⟩ := h.sound.ending_of_working hw
    exact .inr ⟨i, request, hr, alone_eq_hangs_iff.2 hending⟩

/-- Whoever is counted beyond the limit has nothing to do but to put down his result. -/
private theorem Sound.lt_of_acts (h : Sound w ledger requests c) {i : Nat} {beat : Beat} {next : Unit → Task ToolResult}
    (hw : c.workers[i]? = some (.working (.act beat next))) : i < ledger.maxCalls - ledger.calls := by
  have hlt : i < requests.length := h.workers ▸ (List.getElem?_eq_some_iff.1 hw).1
  obtain ⟨-, -, hl⟩ := (h.stands (List.getElem?_eq_getElem hlt)).of_working hw
  by_contra hi
  rw [task_of_le (Nat.not_lt.1 hi)] at hl
  generalize traceOf (c.beatsOf i) = trace at hl
  cases hl

/-- Nothing happens beyond the limit. -/
private theorem Reaches.lt_of_mem_beats (h : Reaches w ledger requests c) {i : Nat} {beat : Beat}
    (hb : (i, beat) ∈ c.beats) :
    i < ledger.maxCalls - ledger.calls := by
  induction h with
  | refl => cases hb
  | tail hreach hs ih =>
    cases hs with
    | acts hw =>
      rcases List.mem_append.1 hb with hb | hb
      · exact ih hb
      · cases List.mem_singleton.1 hb
        exact (Reaches.sound hreach).lt_of_acts hw
    | begins | waits | yields | joins => exact ih hb

end Crew

/-! ### A breakdown in a run -/

/-- Nothing is asked of the model and nothing is saved, and whoever does so comes to an end. -/
def quietContract : Contract runEffects :=
  ⟨fun _ effect => effect.isAsk = false ∧ effect.isSave = false, fun _ _ => True, False⟩

namespace Loop

variable {l : Loop} {input : LoopInput} {ledger : Ledger} {requests : List CallRequest} {message : String}

private theorem quiet_record (event : Event) (t : RunTrace) :
    Keeps quietContract (fun _ _ => True) t (l.record event) := by
  unfold record
  split
  · exact ⟨⟨rfl, rfl⟩, fun _ _ => trivial⟩
  · trivial

private theorem quiet_replay (beats : List (Nat × Beat)) (now : Nat) (t : RunTrace) :
    Keeps quietContract (fun _ _ => True) t (replay playBeat now beats) := by
  induction beats generalizing now t with
  | nil => trivial
  | cons first rest ih =>
    obtain ⟨time, beat⟩ := first
    cases beat with
    | entry => exact keeps_bind.2 ⟨⟨rfl, rfl⟩, fun _ _ => ih ..⟩
    | used => exact ih ..

private theorem quiet_playRound (h : ((l.workshop input).round ledger requests).ending = .faults message)
    (t : RunTrace) :
    Keeps quietContract (fun _ r => r = .error (.tool (.fault (Workshop.faultText message)))) t
      (l.playRound input ledger requests) := by
  refine keeps_bind.2 (keeps_pass.2 (keeps_bind.2 ((quiet_replay ..).imp fun u _ _ => ?_)))
  rw [h]
  rfl

end Loop

namespace Engine

variable {e : Engine} {command : Command} {streams : Bool} {input : LoopInput} {ledger : Ledger}
  {requests : List CallRequest} {t : RunTrace}

/-- A run has taken a turn that asks for tools, and comes to the round. -/
inductive AsksForTools (e : Engine) (command : Command) (streams : Bool) (input : LoopInput) (ledger : Ledger)
    (requests : List CallRequest) : RunTrace → Prop where
  | turn {before since : RunTrace} {k : Nat} {s : Loop.State} {turn : Turn}
    (hl : Leads (e.converse command streams) before ((e.loop command streams).turns input k s))
    (ho : (k != 0 && !input.tools.isEmpty && !s.ledger.limitReached) = true)
    (ht : Leads ((e.loop command streams).takeTurn ((e.loop command streams).request input s.messages true)) since
      (.done (.ok turn)))
    (hs : s.ledger = ledger) (hc : turn.calls = requests) (hne : requests ≠ []) :
    AsksForTools e command streams input ledger requests (before ++ since)

/-- What goes on from there: the reply is noted, and the round follows. -/
private theorem AsksForTools.leads (h : e.AsksForTools command streams input ledger requests t) :
    ∃ (event : Event) (after : List ToolResult → Ledger → RunProcess (Except RunError Outcome)),
      Leads (e.run command streams) t (((e.loop command streams).record event >>= fun _ =>
        (e.loop command streams).playRound input ledger requests >>= fun
          | .error error => pure (.error error)
          | .ok (results, ledger) => after results ledger) >>= e.settle command) := by
  cases h with
  | @turn before since k s turn hl ho ht hs hc hne =>
    subst hs hc
    refine ⟨.responseGenerated turn.model ((turn.usage.map (·.total)).getD 0), fun results ledger =>
      (e.loop command streams).turns input (k - 1) (s.after turn results ledger), ?_⟩
    rw [run_eq]
    refine Leads.bind _ (hl.trans ?_)
    rw [Loop.turns_eq, ho]
    convert ht.bind _ using 1
    exact congrArg (_ >>= ·) (funext fun _ => (if_pos (by simpa using hne)).symm)

/-- After a breakdown in a round, a run asks and saves nothing more, and ends with the fault. -/
private theorem AsksForTools.breaksOff {message : String} {later : RunTrace}
    {rest : RunProcess (Except RunError Outcome)}
    (h : e.AsksForTools command streams input ledger requests t)
    (hf : (((e.loop command streams).workshop input).round ledger requests).ending = .faults message)
    (hl : Leads (e.run command streams) (t ++ later) rest) :
    (∀ x ∈ later, x.1.isAsk = false ∧ x.1.isSave = false) ∧
      ∀ r, rest = .done r → r = .error (.tool (.fault (Workshop.faultText message))) := by
  obtain ⟨event, after, hround⟩ := h.leads
  generalize hp : (((e.loop command streams).record event >>= fun _ =>
    (e.loop command streams).playRound input ledger requests >>= fun
      | .error error => pure (.error error)
      | .ok (results, ledger) => after results ledger) >>= e.settle command) = p at hround
  have hk : Keeps quietContract (fun _ r => r = .error (.tool (.fault (Workshop.faultText message)))) [] p := by
    subst hp
    refine keeps_bind.2 (keeps_bind.2 ((Loop.quiet_record ..).imp fun u _ _ => keeps_bind.2 ?_))
    refine (Loop.quiet_playRound hf u).imp fun v r hr => ?_
    subst hr
    exact rfl
  obtain hafter | ⟨rfl, hbefore⟩ := hround.after hl
  · refine ⟨fun x hx => ?_, fun r hr => ?_⟩
    · obtain ⟨u, v, rfl⟩ := List.append_of_mem hx
      exact hk.allows_of_leads hafter fun _ _ => trivial
    · subst hr
      exact hk.of_leads hafter fun _ _ => trivial
  · refine ⟨by simp, fun r hr => ?_⟩
    subst hr
    cases hbefore
    exact hk

end Engine

/-! ### Every round -/

namespace Workshop

/-- What a round has to do with its requests alone. -/
structure OneByOne (w : Workshop) (ledger : Ledger) (requests : List CallRequest) : Prop where
  /-- If each request comes to a result alone, these are the results of the round, in the order of the requests, -/
  returns (h : w.AllReturn ledger requests) : ∃ results,
    (w.perform none ledger requests).ending = .returns (.ok results) ∧ w.EachAlone ledger requests results
  /-- and if one breaks down, the round breaks down like one that does. -/
  faults {i : Nat} {request : CallRequest} {error : RunError} (hr : requests[i]? = some request)
    (hf : w.alone ledger i request = .returns (.error error)) :
    ∃ (j : Nat) (first : CallRequest) (message : String), requests[j]? = some first ∧
      w.alone ledger j first = .returns (.error (.tool (.fault message))) ∧
      (w.perform none ledger requests).ending = .returns (.error (.tool (.fault message)))
  /-- All requests are counted. -/
  counts : (w.perform none ledger requests).ledger.calls = ledger.calls + requests.length
  /-- A counter of 32 bits has the same numbers, at the end and for each request, if it does not overflow. -/
  word (h : ledger.calls + requests.length < UInt32.size) :
    (w.perform none ledger requests).ledger.counter.toNat = ledger.calls + requests.length ∧
      ∀ i < requests.length, (ledger.counter + .ofNat (i + 1)).toNat = ledger.calls + i + 1
  /-- No schedule goes on for ever. -/
  halts : Acc (fun c' c => Crew.Step w c c') (Crew.ofRequests ledger requests)
  /-- One that stops has ended, unless some request never ends alone. -/
  stops {c : Crew} (h : Crew.Reaches w ledger requests c) (hn : ∀ c', ¬ Crew.Step w c c') :
    (∃ outcome, c.Ends outcome) ∨
      ∃ (i : Nat) (request : CallRequest), requests[i]? = some request ∧ w.alone ledger i request = .hangs
  /-- All schedules that come to results come to the same, -/
  agrees {c : Crew} {results : List ToolResult} (h : Crew.Reaches w ledger requests c) (he : c.Ends (.ok results)) :
    (w.perform none ledger requests).ending = .returns (.ok results) ∧ w.EachAlone ledger requests results ∧
      c.ledger.calls = ledger.calls + requests.length
  /-- and one that comes to an error has it from a request that breaks down alone. -/
  errors {c : Crew} {error : RunError} (h : Crew.Reaches w ledger requests c) (he : c.Ends (.error error)) :
    ∃ (i : Nat) (request : CallRequest), requests[i]? = some request ∧ w.alone ledger i request = .returns (.error error)
  /-- Requests within the limit do what they do under any other limit, -/
  within {i : Nat} {request : CallRequest} (hr : requests[i]? = some request) (hi : i < ledger.maxCalls - ledger.calls)
    {limit : Nat} (hl : ledger.calls + i < limit) :
    Crew.task w ledger i request = Crew.task w { ledger with maxCalls := limit } i request
  /-- those beyond it do nothing and fail, -/
  beyond {i : Nat} {request : CallRequest} (hr : requests[i]? = some request) (hi : ledger.maxCalls - ledger.calls ≤ i) :
    Crew.task w ledger i request = .done ⟨request.id, false, limitText ledger.maxCalls request.name⟩
  /-- and whatever happens comes from the former. -/
  happens {beat : Nat × Beat} (h : beat ∈ (w.perform none ledger requests).beats) :
    ∃ (i : Nat) (request : CallRequest), requests[i]? = some request ∧ i < ledger.maxCalls - ledger.calls ∧
      beat ∈ (Crew.task w ledger i request).timeline.beats
  scheduled {c : Crew} {i : Nat} {beat : Beat} (h : Crew.Reaches w ledger requests c) (hb : (i, beat) ∈ c.beats) :
    i < ledger.maxCalls - ledger.calls
  /-- A run whose round breaks down asks and saves nothing more, and comes to what the round comes to. -/
  breaksOff {e : Engine} {command : Command} {streams : Bool} {input : LoopInput} {earlier later : RunTrace}
    {rest : RunProcess (Except RunError Outcome)} {i : Nat} {request : CallRequest} {error : RunError}
    (ha : e.AsksForTools command streams input ledger requests earlier)
    (hw : (e.loop command streams).workshop input = w) (hr : requests[i]? = some request)
    (hf : w.alone ledger i request = .returns (.error error))
    (hl : Leads (e.run command streams) (earlier ++ later) rest) :
    (∀ x ∈ later, x.1.isAsk = false ∧ x.1.isSave = false) ∧
      ∀ r, rest = .done r → ∃ error, r = .error error ∧ (w.perform none ledger requests).ending = .returns (.error error)

/-- Whatever its schedule, a round comes to what its requests come to one by one. -/
theorem perform_oneByOne (w : Workshop) (ledger : Ledger) (requests : List CallRequest) :
    w.OneByOne ledger requests where
  returns h := by
    obtain ⟨results, hr⟩ := h.exists_eachAlone
    exact ⟨results, hr.perform, hr⟩
  faults hr hf := by
    obtain ⟨j, first, message, hj, halone, hround⟩ := faults_of_alone hr hf
    exact ⟨j, first, _, hj, halone, by rw [(perform_none ..).1, hround]⟩
  counts := (perform_none ..).2.1
  word h := by
    have hcounts : (w.perform none ledger requests).ledger.calls = ledger.calls + requests.length := (perform_none ..).2.1
    refine ⟨(Ledger.toNat_counter (hcounts ▸ h)).trans hcounts, fun i hi => ?_⟩
    rw [Nat.add_assoc, Ledger.toNat_counter_add (by omega)]
  halts := (Crew.wellFounded_step w).apply _
  stops h hn := h.stops hn
  agrees h he := by
    obtain ⟨halone, hcalls⟩ := h.eachAlone he
    exact ⟨halone.perform, halone, hcalls⟩
  errors h he := h.error_alone he
  within _ hi _ hl := task_of_lt hi hl _
  beyond _ hi := task_of_le hi _
  happens h := within_of_mem_beats ((perform_none ..).2.2 ▸ h)
  scheduled h hb := h.lt_of_mem_beats hb
  breaksOff ha hw hr hf hl := by
    obtain ⟨-, -, message, -, -, hround⟩ := faults_of_alone hr hf
    obtain ⟨hquiet, hend⟩ := ha.breaksOff (hw.symm ▸ hround) hl
    exact ⟨hquiet, fun r h => ⟨_, hend r h, by rw [(perform_none ..).1, hround]⟩⟩

/-- Who is done first does not come first, and who is too many is told so. -/
example :
    let slow : Tool := { name := "slow", execute := fun _ _ => ⟨5, .returns (.ok "late")⟩ }
    let fast : Tool := { name := "fast", execute := fun _ _ => .now (.ok "soon") }
    let w : Workshop := { tools := .ofTools [slow, fast], context := ⟨"hi", []⟩ }
    (w.perform none { maxCalls := 2 } [⟨"1", "slow", ""⟩, ⟨"2", "fast", ""⟩, ⟨"3", "fast", ""⟩]).ending =
      .returns (.ok [⟨"1", true, "late"⟩, ⟨"2", true, "soon"⟩,
        ⟨"3", false, "Tool call limit reached (2); 'fast' was not executed"⟩]) := by
  rfl

end Workshop

end AgentLoop
