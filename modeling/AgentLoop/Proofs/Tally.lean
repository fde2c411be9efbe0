import AgentLoop.Proofs.Returns
import AgentLoop.Proofs.ToolCalls

/-!
# What a run says of the tools that it used

A run that succeeds names the tools of which an execution returned, in the order of the first returns over all its
rounds, and no other tools.  If events are recorded, one of them is recorded for each execution that returned, with the
tool of the call and with the success of the result that the model is given.  The rounds keep these books together: each
one adds what its own executions leave behind, and nothing is added between them.
-/

namespace AgentLoop

open Process

namespace RunTrace

/-- What the entries of a trace say. -/
def said {γ : Type} (read : Entry → Option γ) (t : RunTrace) : List γ := t.filterMap fun x => x.entry?.bind read

private theorem said_append {γ : Type} (read : Entry → Option γ) (t u : RunTrace) :
    said read (t ++ u) = said read t ++ said read u := List.filterMap_append ..

end RunTrace

private theorem Ledger.nodup_used_markAll {l : Ledger} (h : l.used.Nodup) (tools : List String) :
    (l.markAll tools).used.Nodup := by
  induction tools generalizing l with
  | nil => exact h
  | cons tool tools ih => exact ih (nodup_used_markUsed h tool)

namespace Loop

open RunTrace ToolRound Workshop

variable {l : Loop} {input : LoopInput} {t u : RunTrace} {k : Nat} {s : State} {turns : List TurnTaken}
  {rounds : List ToolRound} {outcome : Outcome}

/-! ### What is said in a round, and what is said elsewhere -/

private theorem said_played {γ : Type} (read : Entry → Option γ) (beats : List (Nat × Beat)) :
    said read (played (beats.map (·.2))) = toldIn read beats := by
  unfold said played toldIn
  rw [List.filterMap_filterMap, List.filterMap_map]
  refine congrArg (List.filterMap · beats) (funext fun beat => ?_)
  obtain ⟨time, beat⟩ := beat
  cases beat <;> rfl

/-- Nothing is said of executions but in rounds. -/
private theorem said_of_apart {γ : Type} {read : Entry → Option γ}
    (hread : ∀ entry, entry.isOfCall = false → read entry = none)
    (h : Apart t) : said read t = [] := by
  refine List.filterMap_eq_nil_iff.2 fun x hx => ?_
  obtain ⟨effect, answer⟩ := x
  cases effect with
  | note entry => exact hread entry (h _ hx entry rfl)
  | ask | load | save => exact hread _ rfl
  | room | put => rfl

private theorem executed?_of_isOfCall {entry : Entry} (h : entry.isOfCall = false) : entry.executed? = none := by
  cases entry with
  | event event => cases event <;> first | rfl | cases h
  | _ => rfl

private theorem entered?_of_isOfCall {entry : Entry} (h : entry.isOfCall = false) : entry.entered? = none := by
  cases entry <;> first | rfl | cases h

/-! ### The books of a run -/

/-- What is to be recorded of these executions: the tool of each, and the success of the result in its place. -/
def records (rounds : List ToolRound) (returns : List (List Return)) : List (String × Bool) :=
  (List.zipWith (fun r xs => xs.map fun x => (x.tool, succeeded r.results x.place)) rounds returns).flatten

/-- The tools of these executions. -/
def names (returns : List (List Return)) : List String := returns.flatten.map (·.tool)

/-- These are the executions that returned in these rounds, and this is what the trace and the list of the tools that were
used have of them. -/
structure Booked (w : Workshop) (limit : Nat) (rounds : List ToolRound) (returns : List (List Return)) (t : RunTrace)
    (used : List String) : Prop where
  length : returns.length = rounds.length
  listed {j : Nat} {r : ToolRound} {xs : List Return} (hr : rounds[j]? = some r) (hx : returns[j]? = some xs) :
    w.Listed limit (requested (rounds.take j)) r.calls xs
  nodup : used.Nodup
  used : used = (names returns).eraseDups
  executed : (said Entry.executed? t).Perm (if w.recordsEvents then records rounds returns else [])
  entered : (said Entry.entered? t).Perm (names returns)

variable {w : Workshop} {limit : Nat} {returns : List (List Return)} {used : List String}

private theorem booked_nil (w : Workshop) (limit : Nat) : Booked w limit [] [] [] [] where
  length := rfl
  listed hr := nomatch hr
  nodup := List.nodup_nil
  used := rfl
  executed := by
    have hnone : records [] [] = [] := rfl
    rw [hnone, ite_self]
    exact .refl _
  entered := .refl _

/-- What has no part in the execution of tools is not entered in the books. -/
private theorem Booked.apart (h : Booked w limit rounds returns t used) (hu : Apart u) :
    Booked w limit rounds returns (t ++ u) used where
  length := h.length
  listed := h.listed
  nodup := h.nodup
  used := h.used
  executed := by
    rw [said_append, said_of_apart (fun _ => executed?_of_isOfCall) hu, List.append_nil]
    exact h.executed
  entered := by
    rw [said_append, said_of_apart (fun _ => entered?_of_isOfCall) hu, List.append_nil]
    exact h.entered

private theorem names_append (returns : List (List Return)) (xs : List Return) :
    names (returns ++ [xs]) = names returns ++ xs.map (·.tool) := by
  simp [names]

private theorem records_append (h : returns.length = rounds.length) (r : ToolRound) (xs : List Return) :
    records (rounds ++ [r]) (returns ++ [xs]) =
      records rounds returns ++ xs.map fun x => (x.tool, succeeded r.results x.place) := by
  unfold records
  rw [List.zipWith_append h.symm, List.flatten_append]
  simp

/-- A round adds what its executions leave behind. -/
private theorem Booked.round (h : Booked w limit rounds returns t used) {ledger : Ledger}
    (hlimit : ledger.maxCalls = limit)
    (hcounted : ledger.calls = requested rounds) (hused : ledger.used = used) {r : ToolRound} {beats : List (Nat × Beat)}
    {xs : List Return} (hs : w.Settled ledger r.calls r.results beats xs) :
    Booked w limit (rounds ++ [r]) (returns ++ [xs]) (t ++ played (beats.map (·.2)))
      (settle ledger r.calls beats).used where
  length := by rw [List.length_append, List.length_append, h.length, List.length_singleton, List.length_singleton]
  listed {j other ys} hr hx := by
    rcases getElem?_concat hr with ⟨hr, hlt⟩ | ⟨rfl, rfl⟩
    · rw [List.getElem?_append_left (h.length ▸ hlt)] at hx
      rw [List.take_append_of_le_length hlt.le]
      exact h.listed hr hx
    · rw [← h.length, List.getElem?_concat_length] at hx
      obtain rfl := Option.some.inj hx
      rw [List.take_append_of_le_length (Nat.le_refl _), List.take_length, ← hlimit, ← hcounted]
      exact hs.listed
  nodup := by
    have hnodup : (ledger.record r.calls.length).used.Nodup := hused ▸ h.nodup
    exact Ledger.nodup_used_markAll hnodup _
  used := by
    have hnames : (ledger.record r.calls.length).used = (names returns).eraseDups := hused.trans h.used
    rw [settle, Ledger.used_markAll hnames, hs.used, names_append]
  executed := by
    have hall := h.executed.append hs.executed
    rw [said_append, said_played, records_append h.length]
    by_cases hrecords : w.recordsEvents = true
    · rw [if_pos hrecords, if_pos hrecords] at hall
      rw [if_pos hrecords]
      exact hall
    · rw [if_neg hrecords, if_neg hrecords] at hall
      rw [if_neg hrecords]
      exact hall
  entered := by
    rw [said_append, said_played, names_append]
    exact h.entered.append hs.entered

/-- From the beginning of a turn to the return of the run. -/
private theorem booked_of_leads (h : l.Told input t k s turns rounds)
    (hb : Booked (l.workshop input) l.limit rounds returns t s.ledger.used)
    (hl : Leads (l.turns input k s) u (done (.ok outcome))) :
    ∃ turns rounds returns, l.Chronicle input (t ++ u) outcome turns rounds ∧
      Booked (l.workshop input) l.limit rounds returns (t ++ u) outcome.toolsUsed := by
  induction k using Nat.strongRecOn generalizing t u s turns rounds returns with
  | ind k ih =>
    rcases leads_turns h hl with ⟨-, hrest⟩ | ⟨v, w, turn, rfl, hapart, htaken, hw⟩
    · exact absurd rfl (hrest outcome)
    · have hturn := hb.apart hapart
      rcases htaken.leads_goOn hw with ⟨rfl, hcalls, hdone⟩ | ⟨hoffer, hcalls, hk, hround⟩
      · cases hdone
        rw [List.append_nil]
        exact ⟨turns ++ [turn], rounds, returns, htaken.chronicle hcalls, hturn⟩
      · obtain ⟨hrest, -⟩ | ⟨w, x, results, after, rfl, hround, hx⟩ := hround
        · exact absurd rfl (hrest outcome)
        · obtain ⟨hending, hplayed, hafter⟩ := settled_of_playRound hround
          obtain ⟨xs, hsettled⟩ := exists_settled hending
          have hnext := hturn.round htaken.counted.1 htaken.counted.2 rfl
            (r := ⟨turn.reply.text, turn.reply.calls, results⟩) hsettled
          rw [← hplayed] at hnext
          subst hafter
          have hrest := ih (k - 1) (by omega) (htaken.next hoffer hcalls hround) hnext hx
          simpa using hrest

/-! ### Whole runs -/

/-- What a run that succeeded says of the tools that it used. -/
structure Tallied (l : Loop) (input : LoopInput) (t : RunTrace) (outcome : Outcome) (rounds : List ToolRound)
    (returns : List (List Return)) : Prop where
  /-- A tool is named exactly if one of its executions returned, with a success or a failure, and it is named once, -/
  mem_iff {tool : String} : tool ∈ outcome.toolsUsed ↔
    ∃ (j : Nat) (r : ToolRound) (i : Nat) (request : CallRequest) (time : Nat) (outcome : Except ToolError String),
      rounds[j]? = some r ∧ r.calls[i]? = some request ∧ request.name = tool ∧
        (l.workshop input).Returned l.limit (requested (rounds.take j) + i + 1) request time outcome
  nodup : outcome.toolsUsed.Nodup
  /-- in the order of the first returns over all rounds. -/
  length : returns.length = rounds.length
  listed {j : Nat} {r : ToolRound} {xs : List Return} (hr : rounds[j]? = some r) (hx : returns[j]? = some xs) :
    (l.workshop input).Listed l.limit (requested (rounds.take j)) r.calls xs
  ordered : outcome.toolsUsed = (names returns).eraseDups
  /-- One event is recorded for each execution that returned, with the tool and with the success of the result -/
  executed : (said Entry.executed? t).Perm (if l.recordsEvents then records rounds returns else [])
  /-- that the model is given, which is what the execution returned. -/
  fedBack {j : Nat} {r : ToolRound} {i : Nat} {request : CallRequest} {time : Nat} {outcome : Except ToolError String}
    (hr : rounds[j]? = some r) (hc : r.calls[i]? = some request)
    (h : (l.workshop input).Returned l.limit (requested (rounds.take j) + i + 1) request time outcome) :
    r.results[i]? = some (resultOf request.id outcome)
  /-- No other bodies are entered. -/
  entered : (said Entry.entered? t).Perm (names returns)
  /-- A call that is refused, for whatever reason, has no part in any of this. -/
  refused {j : Nat} {r : ToolRound} {xs : List Return} {i : Nat} {request : CallRequest} {left : List Beat}
    {output : String} (hr : rounds[j]? = some r) (hx : returns[j]? = some xs) (hc : r.calls[i]? = some request)
    (hf : (l.workshop input).Refuses l.limit (requested (rounds.take j) + i + 1) request left output) :
    ∀ x ∈ xs, x.place ≠ i
  /-- Whatever the schedule of a round, the same calls mark their tools and are recorded, in the order in which they come
  to do so. -/
  scheduled {ledger : Ledger} {requests : List CallRequest} {c : Crew} {results : List ToolResult}
    (h : Crew.Reaches (l.workshop input) ledger requests c) (he : c.Ends (.ok results)) :
    c.Settled (l.workshop input) ledger requests results

private theorem Booked.tallied (h : Booked (l.workshop input) l.limit rounds returns t outcome.toolsUsed)
    (hc : l.Chronicle input t outcome turns rounds) : l.Tallied input t outcome rounds returns where
  mem_iff {tool} := by
    rw [h.used, List.mem_eraseDups, names, List.mem_map]
    constructor
    · rintro ⟨x, hx, rfl⟩
      obtain ⟨xs, hxs, hx⟩ := List.mem_flatten.1 hx
      obtain ⟨j, hj⟩ := List.mem_iff_getElem?.1 hxs
      have hlt : j < rounds.length := h.length ▸ (List.getElem?_eq_some_iff.1 hj).1
      have hr := List.getElem?_eq_getElem hlt
      obtain ⟨request, outcome, hcall, hname, hreturned⟩ := (h.listed hr hj).mem_iff.1 hx
      exact ⟨j, rounds[j], x.place, request, x.time, outcome, hr, hcall, hname, hreturned⟩
    · rintro ⟨j, r, i, request, time, outcome, hr, hcall, hname, hreturned⟩
      have hlt : j < returns.length := h.length.symm ▸ (List.getElem?_eq_some_iff.1 hr).1
      have hx := List.getElem?_eq_getElem hlt
      have hmem : (⟨i, tool, time⟩ : Return) ∈ returns[j] :=
        (h.listed hr hx).mem_iff.2 ⟨request, outcome, hcall, hname, hreturned⟩
      exact ⟨_, List.mem_flatten.2 ⟨_, List.getElem_mem hlt, hmem⟩, rfl⟩
  nodup := h.nodup
  length := h.length
  listed := h.listed
  ordered := h.used
  executed := h.executed
  fedBack {j r i request time outcome} hr hcall hreturned := by
    obtain ⟨turn, -, hfollowed⟩ := hc.followed hr
    obtain ⟨result, hresult, -, halone⟩ := hfollowed.results.result hcall
    obtain ⟨_, ⟨⟩, hending⟩ := alone_eq_ok_iff.1 halone
    rw [hresult, (hreturned.executed hending).result_eq]
  entered := h.entered
  refused {j r xs i request left output} hr hx hcall hf := by
    intro x hmem hplace
    obtain ⟨other, outcome, hother, -, hreturned⟩ := (h.listed hr hx).mem_iff.1 hmem
    rw [hplace] at hother hreturned
    obtain rfl : request = other := Option.some.inj (hcall.symm.trans hother)
    exact hf.not_returned _ _ hreturned
  scheduled hreach hends := hreach.settled hends

/-- A run that succeeds, by itself or until it would be cancelled, names the tools of which executions returned, and
records these executions. -/
theorem perform_tallied (l : Loop) (provider : Provider) (cancelAt : Option Nat) (input : LoopInput) (scene : Scene)
    (h : (l.perform provider cancelAt input scene).1 = .returns (.ok outcome)) :
    ∃ turns rounds returns, l.Chronicle input (l.exchanges provider cancelAt input scene) outcome turns rounds ∧
      l.Tallied input (l.exchanges provider cancelAt input scene) outcome rounds returns := by
  obtain ⟨turns, rounds, returns, hchronicle, hbooked⟩ :=
    booked_of_leads (l.told_run input) (booked_nil (l.workshop input) l.limit) (leads_perform h)
  exact ⟨turns, rounds, returns, hchronicle, hbooked.tallied hchronicle⟩

/-- A model that has two errands run at once before it answers. -/
def errandsProvider : Provider where
  reply earlier _ :=
    if earlier.isEmpty then .now (.ok (.whole ⟨.ofCalls "" [⟨"a", "slow", ""⟩, ⟨"b", "fast", ""⟩], none, "m"⟩))
    else .now (.ok (.whole ⟨.ofAssistant "done", none, "m"⟩))

/-- The errand that is begun first takes a while, and the other is done at once. -/
def errandsInput : LoopInput where
  system := "s"
  user := .ofUser "go"
  tools := .ofTools [{ name := "slow", execute := fun _ _ => ⟨5, .returns (.ok "late")⟩ },
    { name := "fast", execute := fun _ _ => .now (.ok "ran") }]
  context := ⟨"go", []⟩

def errandsLoop : Loop :=
  { resumedLoop with settings := { resumedLoop.settings with maxToolCalls := 2 }, window := ⟨100, 5⟩ }

theorem perform_tallied_errands : ∃ outcome,
    (errandsLoop.perform errandsProvider none errandsInput {}).1 = .returns (.ok outcome) ∧
      outcome.toolsUsed = ["fast", "slow"] ∧
      ∃ turns rounds returns,
        errandsLoop.Chronicle errandsInput (errandsLoop.exchanges errandsProvider none errandsInput {}) outcome turns
          rounds ∧
        errandsLoop.Tallied errandsInput (errandsLoop.exchanges errandsProvider none errandsInput {}) outcome rounds
          returns := by
  have h : (errandsLoop.perform errandsProvider none errandsInput {}).1 = .returns (.ok
      { answer := "done"
        transcript := [.ofUser "go", .ofCalls "" [⟨"a", "slow", ""⟩, ⟨"b", "fast", ""⟩],
          .ofResult "a" "late", .ofResult "b" "ran", .ofAssistant "done"]
        usage := {}
        toolsUsed := ["fast", "slow"]
        toolCalls := 2
        iterations := 2 }) := by decide +kernel
  exact ⟨_, h, rfl, perform_tallied errandsLoop errandsProvider none errandsInput {} h⟩

end Loop

end AgentLoop
