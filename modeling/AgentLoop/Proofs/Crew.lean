import Mathlib.Data.Nat.Find
import Mathlib.Data.Set.List
import Mathlib.Logic.Relation
import AgentLoop.Descent
import AgentLoop.Proofs.Rounds

/-!
# A round as the work of a crew

Every request of a round has a worker of its own.  The workers share the ledger of the run.  They begin in the order
of the requests, and from then on whoever can do something may be the next to do it, whatever he has waited for and
for how long.  Whoever is done puts his result into the slot of his request and goes.  Whatever the schedule, each
worker does what he would do alone with the ledger as the workers before him leave it, all slots are filled when
everybody has gone, and nobody can go on for ever.
-/

namespace AgentLoop

open Process

/-- Somebody who has not begun with his request, is at work, or has put down his result. -/
inductive Worker where
  | waiting (request : CallRequest)
  | working (rest : Task ToolResult)
  | gone

/-- The workers of a round and what they share: the ledger, the slots for the results, and the beats in the order in
which they happen, each with the worker it comes from. -/
structure Crew where
  ledger : Ledger
  workers : List Worker
  slots : List (Option ToolResult)
  beats : List (Nat × Beat) := []

namespace Crew

/-- Nobody has begun. -/
def ofRequests (ledger : Ledger) (requests : List CallRequest) : Crew where
  ledger
  workers := requests.map .waiting
  slots := requests.map fun _ => none

def put (c : Crew) (i : Nat) (worker : Worker) : Crew := { c with workers := c.workers.set i worker }

/-- A beat of a worker; a tool is marked in the ledger of all. -/
def take (c : Crew) (i : Nat) (beat : Beat) : Crew where
  ledger :=
    match beat with
    | .used tool => c.ledger.markUsed tool
    | .entry _ => c.ledger
  workers := c.workers
  slots := c.slots
  beats := c.beats ++ [(i, beat)]

/-- One of the workers does the next thing he has to do. -/
inductive Step (w : Workshop) (c : Crew) : Crew → Prop where
  | begins {i : Nat} {request : CallRequest} (h : c.workers[i]? = some (.waiting request))
    (hb : ∀ j < i, ∀ other, c.workers[j]? ≠ some (.waiting other)) :
    Step w c ({ c with ledger := c.ledger.record }.put i
      (.working (w.execute c.ledger.maxCalls c.ledger.record.calls request)))
  | acts {i : Nat} {beat : Beat} {next : Unit → Task ToolResult}
    (h : c.workers[i]? = some (.working (.act beat next))) : Step w c ((c.take i beat).put i (.working (next ())))
  | waits {i n : Nat} {next : Task ToolResult} (h : c.workers[i]? = some (.working (.wait n next))) :
    Step w c (c.put i (.working next))
  | yields {i : Nat} {next : Task ToolResult} (h : c.workers[i]? = some (.working (.yield next))) :
    Step w c (c.put i (.working next))
  | joins {i : Nat} {result : ToolResult} (h : c.workers[i]? = some (.working (.done result))) :
    Step w c ({ c with slots := c.slots.set i (some result) }.put i .gone)

/-- The crew comes from these requests in some number of steps. -/
abbrev Reaches (w : Workshop) (ledger : Ledger) (requests : List CallRequest) (c : Crew) : Prop :=
  Relation.ReflTransGen (Step w) (ofRequests ledger requests) c

/-- What a round comes to as soon as somebody has broken down, or once everybody has gone. -/
inductive Ends (c : Crew) : Except RunError (List ToolResult) → Prop where
  | faults {i : Nat} {message : String} (h : c.workers[i]? = some (.working (.fault message))) :
    Ends c (.error (.tool (.fault (Workshop.faultText message))))
  | returns {results : List ToolResult} (hg : ∀ worker ∈ c.workers, worker = .gone) (h : c.slots = results.map some) :
    Ends c (.ok results)
  | missing (hg : ∀ worker ∈ c.workers, worker = .gone) (h : none ∈ c.slots) :
    Ends c (.error (.internal "tool round finished with missing results"))

/-- The beats of one worker. -/
def beatsOf (c : Crew) (i : Nat) : List Beat := c.beats.filterMap fun (j, beat) => if j = i then some beat else none

/-! ### Where the workers stand -/

variable {w : Workshop} {ledger : Ledger} {requests : List CallRequest} {request : CallRequest} {c c' : Crew} {i j : Nat}

/-- The work of the request in a place, counted after those before it. -/
def task (w : Workshop) (ledger : Ledger) (i : Nat) (request : CallRequest) : Task ToolResult :=
  w.execute ledger.maxCalls (ledger.calls + i + 1) request

/-- What a task has left behind, as a trace. -/
abbrev traceOf (beats : List Beat) : List (Exchange (.notes Beat)) := beats.map fun beat => ⟨beat, ()⟩

/-- A worker has not been counted and has done nothing, or has come from its task with the beats that it has left. -/
inductive Stands (w : Workshop) (ledger : Ledger) (i : Nat) (request : CallRequest) (c : Crew) : Prop where
  | waiting (hc : c.ledger.calls ≤ ledger.calls + i) (hw : c.workers[i]? = some (.waiting request))
    (hs : c.slots[i]? = some none) (hb : c.beatsOf i = [])
  | working {p : Task ToolResult} (hc : ledger.calls + i < c.ledger.calls) (hw : c.workers[i]? = some (.working p))
    (hs : c.slots[i]? = some none) (hl : Leads (task w ledger i request) (traceOf (c.beatsOf i)) p)
  | gone {result : ToolResult} (hc : ledger.calls + i < c.ledger.calls) (hw : c.workers[i]? = some .gone)
    (hs : c.slots[i]? = some (some result))
    (hl : Leads (task w ledger i request) (traceOf (c.beatsOf i)) (.done result))

/-- What a crew is like all the way. -/
structure Sound (w : Workshop) (ledger : Ledger) (requests : List CallRequest) (c : Crew) : Prop where
  workers : c.workers.length = requests.length
  slots : c.slots.length = requests.length
  maxCalls : c.ledger.maxCalls = ledger.maxCalls
  le_calls : ledger.calls ≤ c.ledger.calls
  calls_le : c.ledger.calls ≤ ledger.calls + requests.length
  stands {i : Nat} {request : CallRequest} (h : requests[i]? = some request) : Stands w ledger i request c

private theorem sound_ofRequests (w : Workshop) (ledger : Ledger) (requests : List CallRequest) :
    Sound w ledger requests (ofRequests ledger requests) where
  workers := List.length_map _
  slots := List.length_map _
  maxCalls := rfl
  le_calls := Nat.le_refl _
  calls_le := Nat.le_add_right ..
  stands h := .waiting (Nat.le_add_right ..) (List.getElem?_map.trans (congrArg _ h))
    (List.getElem?_map.trans (congrArg _ h)) rfl

@[simp] theorem beatsOf_put (c : Crew) (i j : Nat) (worker : Worker) : (c.put i worker).beatsOf j = c.beatsOf j := rfl

private theorem beatsOf_take (c : Crew) (i j : Nat) (beat : Beat) :
    (c.take i beat).beatsOf j = c.beatsOf j ++ if i = j then [beat] else [] := by
  simp only [beatsOf, take, List.filterMap_append, List.filterMap_cons, List.filterMap_nil]
  by_cases h : i = j <;> simp [h]

private theorem ledger_take (c : Crew) (i : Nat) (beat : Beat) :
    (c.take i beat).ledger.calls = c.ledger.calls ∧ (c.take i beat).ledger.maxCalls = c.ledger.maxCalls := by
  cases beat with
  | entry => exact ⟨rfl, rfl⟩
  | used tool =>
    simp only [take, Ledger.markUsed]
    split <;> exact ⟨rfl, rfl⟩

/-- Where a worker stands does not depend on the others, except for the count. -/
private theorem Stands.frame (h : Stands w ledger j request c) (hw : c'.workers[j]? = c.workers[j]?)
    (hs : c'.slots[j]? = c.slots[j]?) (hb : c'.beatsOf j = c.beatsOf j) (hc : c.ledger.calls ≤ c'.ledger.calls)
    (hwait : c.workers[j]? = some (.waiting request) → c'.ledger.calls ≤ ledger.calls + j) :
    Stands w ledger j request c' := by
  cases h with
  | waiting _ hw' hs' hb' => exact .waiting (hwait hw') (hw.trans hw') (hs.trans hs') (hb.trans hb')
  | working hc' hw' hs' hl => exact .working (by omega) (hw.trans hw') (hs.trans hs') (hb ▸ hl)
  | gone hc' hw' hs' hl => exact .gone (by omega) (hw.trans hw') (hs.trans hs') (hb ▸ hl)

private theorem Stands.le_of_waiting {other : CallRequest} (h : Stands w ledger j request c)
    (hw : c.workers[j]? = some (.waiting other)) : other = request ∧ c.ledger.calls ≤ ledger.calls + j ∧
      c.slots[j]? = some none ∧ c.beatsOf j = [] := by
  cases h with
  | waiting hc hw' hs hb => exact ⟨by simpa [hw] using hw', hc, hs, hb⟩
  | working _ hw' | gone _ hw' => simp [hw] at hw'

theorem Stands.of_working {p : Task ToolResult} (h : Stands w ledger j request c)
    (hw : c.workers[j]? = some (.working p)) : ledger.calls + j < c.ledger.calls ∧
      c.slots[j]? = some none ∧ Leads (task w ledger j request) (traceOf (c.beatsOf j)) p := by
  cases h with
  | working hc hw' hs hl =>
    obtain rfl : p = _ := by simpa [hw] using hw'
    exact ⟨hc, hs, hl⟩
  | waiting _ hw' | gone _ hw' => simp [hw] at hw'

private theorem getElem?_put_self {worker : Worker} (hi : i < c.workers.length) :
    (c.put i worker).workers[i]? = some worker :=
  List.getElem?_set_self hi

private theorem getElem?_put_ne {worker : Worker} (h : i ≠ j) : (c.put i worker).workers[j]? = c.workers[j]? :=
  List.getElem?_set_ne h

/-- A worker that goes on with its task stays where it was otherwise. -/
private theorem Sound.goes {p q : Task ToolResult} {t : List Beat} (h : Sound w ledger requests c)
    (hw : c.workers[i]? = some (.working p)) (hl : Leads p (traceOf t) q) (hworkers : c'.workers = c.workers)
    (hslots : c'.slots = c.slots) (hcalls : c'.ledger.calls = c.ledger.calls)
    (hmax : c'.ledger.maxCalls = c.ledger.maxCalls)
    (hb : ∀ j, c'.beatsOf j = c.beatsOf j ++ if i = j then t else []) :
    Sound w ledger requests (c'.put i (.working q)) where
  workers := by rw [put, List.length_set, hworkers, h.workers]
  slots := (congrArg List.length hslots).trans h.slots
  maxCalls := hmax.trans h.maxCalls
  le_calls := hcalls ▸ h.le_calls
  calls_le := hcalls ▸ h.calls_le
  stands {j request} hj := by
    have hold := h.stands hj
    have hlt : i < c'.workers.length := hworkers ▸ (List.getElem?_eq_some_iff.1 hw).1
    by_cases hij : i = j
    · subst hij
      obtain ⟨hc, hs, hlead⟩ := hold.of_working hw
      refine .working (hcalls ▸ hc) (getElem?_put_self hlt) (hslots ▸ hs) ?_
      rw [beatsOf_put, hb, if_pos rfl, traceOf, List.map_append]
      exact hlead.trans hl
    · refine hold.frame ((getElem?_put_ne hij).trans (by rw [hworkers])) (by rw [← hslots]; rfl) ?_
        (Nat.le_of_eq hcalls.symm) fun hwait => ?_
      · rw [beatsOf_put, hb, if_neg hij, List.append_nil]
      · exact hcalls ▸ (hold.le_of_waiting hwait).2.1

/-- Whoever begins next is counted next. -/
private theorem Sound.calls_of_begins (h : Sound w ledger requests c) (hw : c.workers[i]? = some (.waiting request))
    (hb : ∀ j < i, ∀ other, c.workers[j]? ≠ some (.waiting other)) :
    requests[i]? = some request ∧ c.ledger.calls = ledger.calls + i := by
  have hlt : i < requests.length := h.workers ▸ (List.getElem?_eq_some_iff.1 hw).1
  obtain ⟨rfl, hle, -⟩ := (h.stands (List.getElem?_eq_getElem hlt)).le_of_waiting hw
  refine ⟨List.getElem?_eq_getElem hlt, ?_⟩
  have hge := h.le_calls
  cases i with
  | zero => omega
  | succ i =>
    -- the one before has been counted
    have hprev : i < requests.length := by omega
    cases h.stands (List.getElem?_eq_getElem hprev) with
    | waiting _ hw' => exact absurd hw' (hb i (Nat.lt_succ_self i) _)
    | working hc | gone hc => omega

private theorem Step.sound (hs : Step w c c') (h : Sound w ledger requests c) : Sound w ledger requests c' := by
  cases hs with
  | @begins i request hw hb =>
    obtain ⟨hr, hcalls⟩ := h.calls_of_begins hw hb
    have hlt := (List.getElem?_eq_some_iff.1 hr).1
    have hrecord : c.ledger.record.calls = ledger.calls + i + 1 := by rw [Ledger.record, hcalls]
    refine ⟨(List.length_set ..).trans h.workers, h.slots, h.maxCalls, ?_, ?_, fun {j other} hj => ?_⟩
    · show ledger.calls ≤ c.ledger.record.calls
      omega
    · show c.ledger.record.calls ≤ _
      omega
    · have hold := h.stands hj
      by_cases hij : i = j
      · subst hij
        obtain ⟨rfl, -, hslot, hbeats⟩ := hold.le_of_waiting hw
        refine .working ?_ (getElem?_put_self (h.workers ▸ hlt)) hslot ?_
        · show _ < c.ledger.record.calls
          omega
        · show Leads _ (traceOf (c.beatsOf i)) _
          rw [hbeats, hrecord, h.maxCalls]
          exact .here _
      · refine hold.frame (getElem?_put_ne hij) rfl rfl (Nat.le_succ _) fun hwait => ?_
        show c.ledger.record.calls ≤ _
        have := (hold.le_of_waiting hwait).2.1
        by_cases hlt : j < i
        · exact absurd hwait (hb j hlt _)
        · omega
  | @acts i beat next hw =>
    refine h.goes hw (t := [beat]) (.act (.here _)) rfl rfl (ledger_take c i beat).1 (ledger_take c i beat).2
      fun j => beatsOf_take c i j beat
  | waits hw => exact h.goes hw (t := []) (.wait (.here _)) rfl rfl rfl rfl fun j => by simp
  | yields hw => exact h.goes hw (t := []) (.yield (.here _)) rfl rfl rfl rfl fun j => by simp
  | @joins i result hw =>
    have hlt := (List.getElem?_eq_some_iff.1 hw).1
    refine ⟨(List.length_set ..).trans h.workers, (List.length_set ..).trans h.slots, h.maxCalls, h.le_calls, h.calls_le,
      fun {j other} hj => ?_⟩
    have hold := h.stands hj
    by_cases hij : i = j
    · subst hij
      obtain ⟨hc, hslot, hlead⟩ := hold.of_working hw
      exact .gone hc (getElem?_put_self hlt) (List.getElem?_set_self (List.getElem?_eq_some_iff.1 hslot).1) hlead
    · exact hold.frame (getElem?_put_ne hij) (List.getElem?_set_ne hij) rfl (Nat.le_refl _) fun hwait =>
        (hold.le_of_waiting hwait).2.1

theorem Reaches.sound (h : Reaches w ledger requests c) : Sound w ledger requests c := by
  induction h with
  | refl => exact sound_ofRequests w ledger requests
  | tail _ hs ih => exact hs.sound ih

/-! ### How it ends -/

/-- What is left of a task ends as the whole does, and has the notes that are left. -/
theorem timelineFrom_of_leads {ν α : Type} {p q : Process (.notes ν) α} {t : List (Exchange (.notes ν))} (h : Leads p t q)
    (now : Nat) : ∃ later, (p.timelineFrom now).ending = (q.timelineFrom later).ending ∧
      (p.timelineFrom now).beats.map (·.2) = t.map (·.1) ++ (q.timelineFrom later).beats.map (·.2) := by
  induction h generalizing now with
  | here => exact ⟨now, rfl, rfl⟩
  | act _ ih =>
    obtain ⟨later, he, hb⟩ := ih now
    exact ⟨later, he, congrArg (_ :: ·) hb⟩
  | wait _ ih => exact ih _
  | yield _ ih => exact ih _

private theorem Stands.alone {result : ToolResult} (h : Stands w ledger i request c) (hw : c.workers[i]? = some .gone)
    (hs : c.slots[i]? = some (some result)) : (task w ledger i request).timeline.ending = .returns result ∧
      c.beatsOf i = (task w ledger i request).timeline.beats.map (·.2) := by
  cases h with
  | waiting _ hw' | working _ hw' => simp [hw] at hw'
  | gone _ _ hs' hl =>
    obtain rfl : result = _ := by simpa [hs] using hs'
    obtain ⟨later, he, hb⟩ := timelineFrom_of_leads hl 0
    refine ⟨he, ?_⟩
    rw [Process.timeline, hb]
    simp [Process.timelineFrom, Function.comp_def]

/-- Once everybody has gone, all requests are counted, and every slot holds what its worker comes to alone. -/
theorem Sound.alone {results : List ToolResult} (h : Sound w ledger requests c) (hg : ∀ worker ∈ c.workers, worker = .gone)
    (hs : c.slots = results.map some) : results.length = requests.length ∧
      c.ledger.calls = ledger.calls + requests.length ∧ ∀ i request, requests[i]? = some request →
        ∃ result, results[i]? = some result ∧ (task w ledger i request).timeline.ending = .returns result ∧
          c.beatsOf i = (task w ledger i request).timeline.beats.map (·.2) := by
  have hlength : results.length = requests.length := by rw [← h.slots, hs, List.length_map]
  have hgone {i : Nat} (hi : i < requests.length) : c.workers[i]? = some .gone := by
    have hi' : i < c.workers.length := h.workers.symm ▸ hi
    rw [List.getElem?_eq_getElem hi', hg _ (List.getElem_mem hi')]
  refine ⟨hlength, ?_, fun i request hr => ?_⟩
  · have hle := h.calls_le
    have hge := h.le_calls
    rcases Nat.eq_zero_or_pos requests.length with hzero | hpos
    · omega
    · -- the last request has been counted
      have hlast : requests.length - 1 < requests.length := by omega
      have hw := hgone hlast
      cases h.stands (List.getElem?_eq_getElem hlast) with
      | waiting _ hw' | working _ hw' => simp [hw] at hw'
      | gone hc => omega
  · have hi := (List.getElem?_eq_some_iff.1 hr).1
    have hi' : i < results.length := hlength.symm ▸ hi
    refine ⟨results[i], List.getElem?_eq_getElem hi', (h.stands hr).alone (hgone hi) ?_⟩
    rw [hs, List.getElem?_map, List.getElem?_eq_getElem hi', Option.map_some]

/-- No slot is left empty. -/
theorem Sound.exists_results (h : Sound w ledger requests c) (hg : ∀ worker ∈ c.workers, worker = .gone) :
    ∃ results : List ToolResult, c.slots = results.map some := by
  have hfull : ∀ slot ∈ c.slots, ∃ result, some result = slot := by
    intro slot hslot
    obtain ⟨i, hi, rfl⟩ := List.getElem_of_mem hslot
    have hi' : i < requests.length := h.slots ▸ hi
    have hw : c.workers[i]? = some .gone := by
      have hlt : i < c.workers.length := h.workers.symm ▸ hi'
      rw [List.getElem?_eq_getElem hlt, hg _ (List.getElem_mem hlt)]
    cases h.stands (List.getElem?_eq_getElem hi') with
    | waiting _ hw' | working _ hw' => simp [hw] at hw'
    | @gone result _ _ hs => exact ⟨result, by simpa [List.getElem?_eq_getElem hi] using hs.symm⟩
  have hrange : c.slots ∈ Set.range (List.map some) := Set.range_list_map some ▸ hfull
  obtain ⟨results, hr⟩ := hrange
  exact ⟨results, hr.symm⟩

/-- Whoever is not done, has not broken down and does not hang has something to do. -/
private theorem exists_step_of_working {p : Task ToolResult} (hw : c.workers[i]? = some (.working p)) :
    (∃ c', Step w c c') ∨ (∃ message, p = .fault message) ∨ p = .hang := by
  cases p with
  | done => exact .inl ⟨_, .joins hw⟩
  | act => exact .inl ⟨_, .acts hw⟩
  | wait => exact .inl ⟨_, .waits hw⟩
  | yield => exact .inl ⟨_, .yields hw⟩
  | fault message => exact .inr (.inl ⟨message, rfl⟩)
  | hang => exact .inr (.inr rfl)

/-- If nobody can go on, the round has come to its end, or somebody hangs. -/
theorem Sound.ends (h : Sound w ledger requests c) (hn : ∀ c', ¬ Step w c c') :
    (∃ outcome, c.Ends outcome) ∨ ∃ i : Nat, c.workers[i]? = some (.working .hang) := by
  by_cases hg : ∀ worker ∈ c.workers, worker = .gone
  · obtain ⟨results, hr⟩ := h.exists_results hg
    exact .inl ⟨_, .returns hg hr⟩
  · -- the first who has not gone might begin if he has not begun
    have hex : ∃ (i : Nat) (worker : Worker), c.workers[i]? = some worker ∧ worker ≠ .gone := by
      obtain ⟨worker, hmem, hne⟩ : ∃ worker ∈ c.workers, worker ≠ .gone := by simpa using hg
      obtain ⟨i, hi⟩ := List.getElem?_of_mem hmem
      exact ⟨i, worker, hi, hne⟩
    classical
    obtain ⟨worker, hw, hne⟩ := Nat.find_spec hex
    cases worker with
    | gone => exact absurd rfl hne
    | waiting request =>
      refine absurd (Step.begins hw fun j hj other hother => ?_) (hn _)
      exact Nat.find_min hex hj ⟨_, hother, fun h => nomatch h⟩
    | working p =>
      rcases exists_step_of_working (w := w) hw with ⟨c', hs⟩ | ⟨message, rfl⟩ | rfl
      · exact absurd hs (hn c')
      · exact .inl ⟨_, .faults hw⟩
      · exact .inr ⟨_, hw⟩

/-- `Beyond a b`: a worker may get from `b` to `a`. -/
inductive Beyond : Worker → Worker → Prop where
  | begins (request : CallRequest) (p : Task ToolResult) : Beyond (.working p) (.waiting request)
  | goes {p q : Task ToolResult} (h : Child p q) : Beyond (.working p) (.working q)
  | joins (p : Task ToolResult) : Beyond .gone (.working p)

private theorem acc_gone : Acc Beyond .gone := ⟨_, fun _ h => nomatch h⟩

private theorem acc_working (p : Task ToolResult) : Acc Beyond (.working p) := by
  induction acc_child p with
  | intro p _ ih =>
    refine ⟨_, fun worker h => ?_⟩
    cases h with
    | goes h => exact ih _ h
    | joins => exact acc_gone

private theorem wellFounded_beyond : WellFounded Beyond := ⟨fun worker => by
  cases worker with
  | gone => exact acc_gone
  | working p => exact acc_working p
  | waiting request =>
    refine ⟨_, fun other h => ?_⟩
    cases h with
    | begins _ p => exact acc_working p⟩

private theorem Step.lowered (h : Step w c c') : Lowered Beyond c'.workers c.workers := by
  cases h with
  | begins h => exact .set h (.begins _ _)
  | acts h => exact .set h (.goes (.act ..))
  | waits h => exact .set h (.goes (.wait ..))
  | yields h => exact .set h (.goes (.yield ..))
  | joins h => exact .set h (.joins _)

/-- No crew goes on for ever. -/
theorem wellFounded_step (w : Workshop) : WellFounded fun c' c => Step w c c' :=
  Subrelation.wf Step.lowered (InvImage.wf Crew.workers (Lowered.wellFounded wellFounded_beyond))

end Crew

end AgentLoop
