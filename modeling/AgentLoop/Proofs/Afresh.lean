import AgentLoop.Proofs.Chronicle
import AgentLoop.Proofs.Executions
import AgentLoop.Proofs.Retries

/-!
# Every turn counts afresh

Whenever a run makes an attempt, it has made fewer than the policy has since its turn began, whatever the turns before
were like, and each of these failed for a transient cause and was followed by its retry.  The retries of a turn are
numbered from one.
-/

namespace AgentLoop

open Process

/-- An attempt at a request, or the note of a retry. -/
def Effect.isTry : Effect → Bool
  | ask _ | note (.event (.retryScheduled ..)) => true
  | _ => false

namespace Loop

open RunTrace ToolRound

variable {l : Loop} {input : LoopInput} {request : Request} {t u v : RunTrace} {x : Exchange runEffects}
  {made left k : Nat} {s : State} {turns : List TurnTaken} {rounds : List ToolRound}

/-! ### The attempts of a turn -/

/-- So many attempts at a request have failed in this trace, each for a transient cause.  Another attempt was left each
time, the retry was recorded if events are, and its delay could be represented. -/
inductive Tried (l : Loop) (request : Request) : RunTrace → Nat → Prop where
  | none : Tried l request [] 0
  | retried {t : RunTrace} {made : Nat} {answer : Reaction (Except ProviderError Reply)} {e : ProviderError}
    {delay : Span} (h : Tried l request t made) (hleft : made + 1 < l.policy.attempts)
    (he : answer.ending = .returns (.error e)) (ht : e.isTransient = true)
    (hd : l.policy.jitteredDelay? (.ofNat made) (l.draw made) = some delay) :
    Tried l request
      (t ++ ⟨.ask request, answer⟩ :: if l.recordsEvents then
        [⟨.note (.event (.retryScheduled (.ofNat (made + 1)) (.ofNat delay.milliseconds) e.message)), ()⟩] else [])
      (made + 1)

/-- What a turn may do about its attempts, if this is what it has done so far. -/
def retryAllows (l : Loop) (request : Request) (t : RunTrace) : Effect → Prop
  | .ask r => r = request ∧ ∃ made, l.Tried request t made ∧ made < l.policy.attempts
  | .note (.event (.retryScheduled number delayMs text timestamp)) =>
    ∃ made, l.Tried request (t ++ [⟨.note (.event (.retryScheduled number delayMs text timestamp)), ()⟩]) (made + 1) ∧
      number.toNat = made + 1
  | .room | .put _ => True
  | _ => False

def retryContract (l : Loop) (request : Request) : Contract runEffects := .ofAllows (l.retryAllows request)

private theorem keeps_judged {c : Contract runEffects} {again : ProviderError → RunProcess (Except RunError Reply)}
    {r : Except ProviderError Reply}
    (h : ∀ e, r = .error e → e.isTransient = true → Keeps c (fun _ _ => True) t (again e)) :
    Keeps c (fun _ _ => True) t (judged again r) := by
  unfold judged
  split
  · trivial
  · trivial
  · split
    · exact h _ rfl ‹_›
    · trivial

/-- With so many attempts made, what is left of them goes on counting. -/
private theorem keeps_attemptsFrom_tried (ht : l.Tried request t made) (hleft : made + left < l.policy.attempts) :
    Keeps (l.retryContract request) (fun _ _ => True) t
      (Retry.attemptsFrom l.policy l.draw l.record (fun _ => attempt request) made left) := by
  induction left generalizing made t with
  | zero =>
    rw [attemptsFrom_eq]
    refine keeps_bind.2 (keeps_bind.2 ⟨⟨rfl, made, ht, hleft⟩, fun answer _ => keeps_react.2 ⟨fun _ => trivial, ?_⟩⟩)
    exact fun r _ => keeps_judged fun e _ _ => trivial
  | succ left ih =>
    rw [attemptsFrom_eq]
    refine keeps_bind.2 (keeps_bind.2
      ⟨⟨rfl, made, ht, by omega⟩, fun answer _ => keeps_react.2 ⟨fun _ => trivial, fun r hr => ?_⟩⟩)
    refine keeps_judged fun e he htransient => ?_
    rw [again, retry]
    split
    · exact keeps_fault
    · rename_i delay hd
      have htried := ht.retried (by omega) (hr.trans (congrArg _ he)) htransient hd
      by_cases hrecords : l.recordsEvents = true
      · have hrecord (event : Event) : l.record event = RunProcess.note (.event event) := if_pos hrecords
        have hnumber : (UInt32.ofNat (made + 1)).toNat = made + 1 :=
          RetryPolicy.toNat_attempt (p := l.policy) (by omega)
        rw [if_pos hrecords] at htried
        rw [hrecord]
        refine keeps_bind.2 ⟨⟨made, by simpa using htried, hnumber⟩, fun _ _ => ?_⟩
        exact keeps_bind.2 (keeps_sleep.2 (ih (by simpa using htried) (by omega)))
      · have hrecord (event : Event) : l.record event = pure () := if_neg hrecords
        rw [if_neg hrecords] at htried
        rw [hrecord]
        exact keeps_bind.2 (keeps_pure.2 (keeps_bind.2 (keeps_sleep.2 (ih htried (by omega)))))

private theorem keeps_takeTurn_tried : Keeps (l.retryContract request) (fun _ _ => True) [] (l.takeTurn request) := by
  have hpos := l.policy.attempts_pos
  refine keeps_bind.2 ((keeps_attemptsFrom_tried .none (by omega)).imp fun u r _ => ?_)
  have hreads {spent due : Nat} {turn : Turn} {items : List (Nat × StreamItem)} {w : RunTrace} :
      Keeps (l.retryContract request) (fun _ _ => True) w (collect spent due turn items) :=
    keeps_collect (fun _ => trivial) (fun _ _ => trivial) fun _ _ => trivial
  split
  · trivial
  · dsimp only
    split
    · exact hreads
    · trivial
  · exact keeps_bind.2 (keeps_pass.2 hreads)

private theorem asksOnly_of_takeTurn {rest : RunProcess (Except RunError Turn)}
    (h : Leads (l.takeTurn request) (u ++ v) rest) :
    AsksOnly request u := by
  intro x hx r hr
  obtain ⟨before, after, rfl⟩ := List.append_of_mem hx
  rw [List.append_assoc, List.cons_append] at h
  have hallows := keeps_takeTurn_tried.allows_of_leads h fun _ _ => trivial
  rw [hr] at hallows
  exact hallows.1

/-! ### The attempts of a run -/

/-- In the turn that is under way an effect is what the attempts of this turn so far allow. -/
def Counts (l : Loop) (input : LoopInput) (t : RunTrace) (e : Effect) : Prop :=
  ∃ rounds since request, l.InTurn input t rounds since request ∧ l.retryAllows request since e

private theorem isTry_record {event : Event} {rest : RunProcess Unit} (he : (Effect.note (.event event)).isTry = false)
    (h : Leads (l.record event) (u ++ x :: v) rest) : x.1.isTry = false := by
  have hkeeps : Keeps (.ofAllows fun _ effect => effect = Effect.note (.event event)) (fun _ _ => True) []
      (l.record event) := keeps_record rfl fun _ _ _ => trivial
  have hallows := hkeeps.allows_of_leads h fun _ _ => trivial
  exact hallows ▸ he

private theorem isTry_playRound {ledger : Ledger} {calls : List CallRequest}
    {rest : RunProcess (Except RunError (List ToolResult × Ledger))}
    (h : Leads (l.playRound input ledger calls) (u ++ x :: v) rest) : x.1.isTry = false := by
  have hkeeps : Keeps (l.roundContract (.any (l.workshop input)) (roundBound ledger calls)) _ []
      (l.playRound input ledger calls) := keeps_playRound
  have hallows := hkeeps.allows_of_leads h fun _ _ => trivial
  generalize x.1 = effect at hallows
  cases effect with
  | note entry =>
    cases entry with
    | event event =>
      cases event with
      | retryScheduled => exact absurd hallows.1 Bool.false_ne_true
      | _ => rfl
    | _ => rfl
  | _ => first | rfl | exact hallows.elim

/-- What follows a turn that was taken makes attempts only from the next turn on. -/
private theorem Taken.leads_try {turn : TurnTaken} (h : l.Taken input t k s turns rounds turn)
    {rest : RunProcess (Except RunError Outcome)}
    (hl : Leads (l.goOn input k s (l.offers input (requested rounds)) (turn.reply.turn turn.request)) (u ++ x :: v) rest)
    (hx : x.1.isTry = true) :
    ∃ w later k' s' turns rounds, u = w ++ later ∧ k' < k ∧ l.Told input (t ++ w) k' s' turns rounds ∧
      Leads (l.turns input k' s') (later ++ x :: v) rest := by
  rcases h.leads_goOn hl with ⟨hnil, -⟩ | ⟨hoffer, hcalls, hk, hround⟩
  · simp at hnil
  · obtain ⟨-, r, hround⟩ | ⟨played, others, results, after, hplayed, hround, hnext⟩ := hround
    · rw [isTry_playRound hround] at hx
      cases hx
    · rcases cases_of_append hplayed.symm with ⟨more, rfl⟩ | ⟨later, rfl, rfl⟩
      · rw [isTry_playRound hround] at hx
        cases hx
      · exact ⟨played, later, k - 1, _, _, _, rfl, by omega, h.next hoffer hcalls hround, hnext⟩

/-- From the beginning of a turn on, an attempt is made in this turn or after the beginning of another one. -/
private theorem Told.leads_try (h : l.Told input t k s turns rounds) {rest : RunProcess (Except RunError Outcome)}
    (hl : Leads (l.turns input k s) (u ++ x :: v) rest) (hx : x.1.isTry = true) :
    (∃ more rest,
        Leads (l.takeTurn (l.request input s.messages (l.offers input (requested rounds)))) (u ++ x :: more) rest) ∨
      ∃ w later k' s' turns rounds, u = w ++ later ∧ k' < k ∧ l.Told input (t ++ w) k' s' turns rounds ∧
        Leads (l.turns input k' s') (later ++ x :: v) rest := by
  rw [h.turns_eq] at hl
  generalize hr : l.request input s.messages (l.offers input (requested rounds)) = request at hl ⊢
  rcases leads_bind_strict hl with ⟨-, r, -, hturn⟩ | ⟨r, own, others, hown, hturn, hothers⟩
  · exact .inl ⟨v, r, hturn⟩
  rcases cases_of_append hown.symm with ⟨more, rfl⟩ | ⟨more, rfl, rfl⟩
  · exact .inl ⟨more, _, hturn⟩
  cases r with
  | error e =>
    obtain ⟨hnil, -⟩ := leads_done hothers
    simp at hnil
  | ok turn =>
    obtain ⟨attempts, reply, htook, rfl⟩ := took_of_leads hturn
    rcases leads_bind_strict hothers with ⟨-, r, -, hnote⟩ | ⟨_, note, others, hnoted, hnote, hothers⟩
    · rw [isTry_record rfl hnote] at hx
      cases hx
    · rcases cases_of_append hnoted.symm with ⟨more, rfl⟩ | ⟨more, rfl, rfl⟩
      · rw [isTry_record rfl hnote] at hx
        cases hx
      · have htaken : l.Taken input (t ++ (own ++ note)) k s turns rounds ⟨request, attempts, reply⟩ :=
          .intro h hr.symm htook hturn hnote
        obtain ⟨w, later, k', s', turns, rounds, rfl, hk, htold, hnext⟩ := htaken.leads_try hothers hx
        rw [List.append_assoc] at htold
        exact .inr ⟨own ++ note ++ w, later, k', s', turns, rounds, by simp, hk, htold, hnext⟩

/-- Whenever a run makes an attempt, or notes a retry, it has counted from the beginning of the turn. -/
private theorem counts_of_turns (h : l.Told input t k s turns rounds) {rest : RunProcess (Except RunError Outcome)}
    (hl : Leads (l.turns input k s) (u ++ x :: v) rest) (hx : x.1.isTry = true) : l.Counts input (t ++ u) x.1 := by
  induction k using Nat.strongRecOn generalizing t u s turns rounds with
  | ind k ih =>
    rcases h.leads_try hl hx with ⟨more, rest, hturn⟩ | ⟨w, later, k', s', turns, rounds, rfl, hk, htold, hnext⟩
    · exact ⟨rounds, u, _, h.inTurn rfl (asksOnly_of_takeTurn hturn),
        keeps_takeTurn_tried.allows_of_leads hturn fun _ _ => trivial⟩
    · simpa using ih k' hk htold hnext

private theorem counts_of_exchanges {provider : Provider} {cancelAt : Option Nat} {scene : Scene}
    (h : l.exchanges provider cancelAt input scene = u ++ x :: v) (hx : x.1.isTry = true) : l.Counts input u x.1 := by
  obtain ⟨rest, hl⟩ := l.leads_exchanges provider cancelAt input scene
  rw [h] at hl
  exact counts_of_turns (l.told_run input) hl hx

/-- How a run counts the attempts of its turns. -/
structure Afresh (l : Loop) (provider : Provider) (cancelAt : Option Nat) (input : LoopInput) (scene : Scene) : Prop where
  /-- When an attempt is made, the attempts since the turn began are fewer than the policy has, and each of them has
  failed for a transient cause and was followed by its retry. -/
  attempt {before after : RunTrace} {request : Request} {answer : Reaction (Except ProviderError Reply)}
    (h : l.exchanges provider cancelAt input scene = before ++ ⟨.ask request, answer⟩ :: after) :
    ∃ rounds since, l.InTurn input before rounds since request ∧ asked since < l.policy.attempts ∧
      l.Tried request since (asked since)
  /-- When a retry is noted, it has the number of the attempts since the turn began, and it is that of the last of
  them. -/
  retry {before after : RunTrace} {number : UInt32} {delayMs : UInt64} {text : String} {timestamp : Instant}
    (h : l.exchanges provider cancelAt input scene =
      before ++ ⟨.note (.event (.retryScheduled number delayMs text timestamp)), ()⟩ :: after) :
    ∃ rounds since request, l.InTurn input before rounds since request ∧ number.toNat = asked since ∧
      l.Tried request (since ++ [⟨.note (.event (.retryScheduled number delayMs text timestamp)), ()⟩]) (asked since)

/-- Attempts that failed are attempts that were made. -/
private theorem Tried.asked_eq (h : l.Tried request t made) : asked t = made := by
  induction h with
  | none => rfl
  | retried _ _ _ _ _ ih =>
    rw [asked_append, ih]
    split <;> rfl

private theorem perform_afresh (l : Loop) (provider : Provider) (cancelAt : Option Nat) (input : LoopInput)
    (scene : Scene) :
    l.Afresh provider cancelAt input scene where
  attempt h := by
    obtain ⟨rounds, since, _, hturn, rfl, made, htried, hlt⟩ := counts_of_exchanges h rfl
    obtain rfl := htried.asked_eq
    exact ⟨rounds, since, hturn, hlt, htried⟩
  retry h := by
    obtain ⟨rounds, since, request, hturn, made, htried, hnumber⟩ := counts_of_exchanges h rfl
    have hasked := htried.asked_eq
    rw [asked_append, asked_singleton] at hasked
    have hasked : asked since = made + 1 := hasked
    exact ⟨rounds, since, request, hturn, hasked ▸ hnumber, hasked ▸ htried⟩

end Loop

namespace Retry

variable {α : Type}

/-- How a call goes that is retried, and the calls that the turns of a loop make. -/
structure Settled (c : Call α) (l : Loop) : Prop where
  /-- The call goes as the outcomes of its attempts determine if its delays can be represented, and only then. -/
  determined_iff : c.Determined ↔ c.Paced
  /-- Whatever the configuration is, it takes the course that they determine, -/
  configured (config : RetryConfig) (h : c.policy = config.policy) : c.process.timeline = c.outline
  /-- and each turn of a run makes a call of its own. -/
  afresh (provider : Provider) (cancelAt : Option Nat) (input : LoopInput) (scene : Scene) :
    l.Afresh provider cancelAt input scene

/-- A call is determined by the outcomes of its attempts as long as its delays can be represented, and every turn of a
run counts its attempts afresh. -/
theorem call_settled (c : Call α) (l : Loop) : Settled c l where
  determined_iff := Call.determined_iff
  configured _ := Call.timeline_of_config
  afresh := l.perform_afresh

/-- A call that is to wait as long as there are seconds for, spread by next to nothing, before its second attempt. -/
def boundless : Call String where
  policy := ⟨2, .longest, .longest, FloatFormat.double.round false 1 100000000000000000⟩
  attempt n := if n = 0 then .now (.error (.network "reset")) else .now (.ok "yes")

/-- Spread, even the longest delay is beyond the longest span, and the call breaks down. -/
theorem not_determined_boundless :
    boundless.process.timeline = ⟨[(0, .attempt)], 0, .faults overflowText⟩ ∧ ¬ boundless.Determined := by
  have hretries : 0 < boundless.retries := by decide
  have hdelay : boundless.delay? 0 = none := by decide +kernel
  refine ⟨Call.timeline_of_overflow hretries (fun i hi => absurd hi (Nat.not_lt_zero i)) hdelay, fun h => ?_⟩
  obtain ⟨e, delay, number, delayMs, -, hsome, -⟩ := h.retry hretries
  rw [hdelay] at hsome
  cases hsome

end Retry

end AgentLoop
