import AgentLoop.Loop
import AgentLoop.Proofs.Rounds

/-!
# What a turn does

A turn of the model makes attempts at one request, no more than the policy has, and enters no bodies of tools.  The
round that follows it does nothing but what its tool calls do.  Neither hangs unless a collaborator does; what is taken
for granted about the answers of the surroundings is gathered in `Surroundings`.
-/

namespace AgentLoop

open Process

abbrev RunTrace := List (Exchange runEffects)

namespace Effect

def isAsk : Effect → Bool
  | ask _ => true
  | _ => false

/-- The body of a tool is entered. -/
def isEntered : Effect → Bool
  | note e => e.isEntered
  | _ => false

/-- An attempt at this request, or the note that there will be another one. -/
def IsAttempt (request : Request) : Effect → Prop
  | ask r => r = request
  | note (.event (.retryScheduled ..)) => True
  | _ => False

end Effect

namespace RunTrace

/-- How many attempts at requests were made. -/
def asked (t : RunTrace) : Nat := t.countP fun x => x.1.isAsk

/-- How many bodies of tools were entered. -/
def entered (t : RunTrace) : Nat := t.countP fun x => x.1.isEntered

/-- Everything that was asked was this request. -/
def AsksOnly (request : Request) (t : RunTrace) : Prop := ∀ x ∈ t, ∀ r, x.1 = .ask r → r = request

theorem asked_append (t u : RunTrace) : asked (t ++ u) = asked t + asked u := List.countP_append ..

theorem entered_append (t u : RunTrace) : entered (t ++ u) = entered t + entered u := List.countP_append ..

theorem asked_singleton (x : Exchange runEffects) : asked [x] = if x.1.isAsk then 1 else 0 := List.countP_singleton ..

theorem entered_singleton (x : Exchange runEffects) : entered [x] = if x.1.isEntered then 1 else 0 :=
  List.countP_singleton ..

theorem asksOnly_append {request : Request} {t u : RunTrace} (ht : AsksOnly request t) (hu : AsksOnly request u) :
    AsksOnly request (t ++ u) :=
  fun x hx => (List.mem_append.1 hx).elim (ht x) (hu x)

end RunTrace

/-- What is taken for granted about the answers to a run, and whether the run may hang then. -/
structure Surroundings (w : Workshop) where
  expects : (e : Effect) → e.Answer → Prop
  mayHang : Prop
  hangs {request : Request} {answer : Reaction (Except ProviderError Reply)} (h : expects (.ask request) answer)
    (he : answer.ending = .hangs) : mayHang
  silent {request : Request} {answer : Reaction (Except ProviderError Reply)} (h : expects (.ask request) answer)
    {items : List (Nat × StreamItem)} (he : answer.ending = .returns (.ok (.stream items))) {gap : Nat}
    (hs : (gap, .silence) ∈ items) : mayHang
  workshop (h : w.MayHang) : mayHang

namespace Surroundings

variable {w : Workshop}

/-- Nothing is taken for granted. -/
def any (w : Workshop) : Surroundings w where
  expects _ _ := True
  mayHang := True
  hangs _ _ := trivial
  silent _ _ _ _ _ := trivial
  workshop _ := trivial

/-- The model answers in the end, and its streams end. -/
def Answers (answer : Reaction (Except ProviderError Reply)) : Prop :=
  answer.ending ≠ .hangs ∧
    ∀ items gap, answer.ending = .returns (.ok (.stream items)) → (gap, .silence) ∉ items

/-- The model always answers. -/
def answering (w : Workshop) : Surroundings w where
  expects
    | .ask _, answer => Answers answer
    | _, _ => True
  mayHang := w.MayHang
  hangs h he := absurd he h.1
  silent h _ he _ hs := absurd hs (h.2 _ _ he)
  workshop := id

end Surroundings

namespace Loop

open RunTrace

variable {l : Loop} {input : LoopInput} {σ : Surroundings (l.workshop input)} {request : Request} {t : RunTrace}

/-! ### Turns of the model -/

/-- What a turn may do.  Nothing but attempts comes before an attempt. -/
def turnAllows (l : Loop) (request : Request) (t : RunTrace) : Effect → Prop
  | .ask r => r = request ∧ asked t < l.policy.attempts ∧ ∀ x ∈ t, x.1.IsAttempt request
  | .note (.event (.retryScheduled ..)) | .room | .put _ => True
  | _ => False

def turnContract (l : Loop) (σ : Surroundings (l.workshop input)) (request : Request) : Contract runEffects :=
  ⟨l.turnAllows request, σ.expects, σ.mayHang⟩

/-- If a stream falls silent, that is expected to be possible. -/
def Sound (σ : Surroundings (l.workshop input)) (items : List (Nat × StreamItem)) : Prop :=
  ∀ gap, (gap, .silence) ∈ items → σ.mayHang

/-- An event is noted, unless events are of no interest. -/
theorem keeps_record {e : Event} {c : Contract runEffects} {post : RunTrace → Unit → Prop}
    (he : c.allows t (.note (.event e)))
    (hp : ∀ v, v = [] ∨ v = [⟨.note (.event e), ()⟩] → Leads (l.record e) v (done ()) → post (t ++ v) ()) :
    Keeps c post t (l.record e) := by
  unfold record at hp ⊢
  split
  · rename_i hr
    rw [if_pos hr] at hp
    exact ⟨he, fun _ _ => hp [⟨.note (.event e), ()⟩] (.inr rfl) (.act (.here _))⟩
  · rename_i hr
    rw [if_neg hr] at hp
    simpa using hp [] (.inl rfl) (.here _)

private theorem keeps_deliver {c : Contract runEffects} (hroom : ∀ u, c.allows u .room)
    (hput : ∀ u delta, c.allows u (.put delta)) {delta : String} : Keeps c (fun _ _ => True) t (deliver delta) := by
  refine keeps_bind.2 ⟨hroom _, fun room _ => ?_⟩
  cases room with
  | gone => trivial
  | free => exact keeps_bind.2 ⟨hput _ _, fun _ _ => trivial⟩
  | after ticks => exact keeps_bind.2 (keeps_sleep.2 (keeps_bind.2 ⟨hput _ _, fun _ _ => trivial⟩))

/-- To read a stream is to hand out deltas, and to hang only where the stream falls silent. -/
theorem keeps_collect {c : Contract runEffects} (hroom : ∀ u, c.allows u .room)
    (hput : ∀ u delta, c.allows u (.put delta)) {spent due : Nat} {turn : Turn} {items : List (Nat × StreamItem)}
    (h : ∀ gap, (gap, .silence) ∈ items → c.mayHang) : Keeps c (fun _ _ => True) t (collect spent due turn items) := by
  induction items generalizing spent due turn t with
  | nil => trivial
  | cons first rest ih =>
    obtain ⟨gap, item⟩ := first
    have hrest : ∀ gap, (gap, .silence) ∈ rest → c.mayHang := fun gap hg => h gap (List.mem_cons_of_mem _ hg)
    unfold collect
    refine keeps_wait.2 ?_
    cases item with
    | silence => exact h gap (List.mem_cons_self ..)
    | failure e => trivial
    | chunk chunk =>
      dsimp only
      split
      · refine keeps_bind.2 (keeps_pure.2 ?_)
        dsimp only
        split
        · trivial
        · split
          · trivial
          · exact ih hrest
      · refine keeps_bind.2 ((keeps_deliver hroom hput).imp fun u answer _ => ?_)
        split
        · trivial
        · split
          · trivial
          · exact ih hrest

private theorem keeps_attempt {post : RunTrace → Except ProviderError Reply → Prop}
    (ha : l.turnAllows request t (.ask request))
    (hp : ∀ answer r, σ.expects (.ask request) answer → answer.ending = .returns r →
      post (t ++ [⟨.ask request, answer⟩]) r) :
    Keeps (l.turnContract σ request) post t (attempt request) :=
  keeps_bind.2 ⟨ha, fun answer he => keeps_react.2 ⟨fun hh => σ.hangs he hh, fun r hr => hp answer r he hr⟩⟩

/-- The attempts that are left are made after nothing but attempts. -/
private theorem keeps_attemptsFrom {made left : Nat} (hl : asked t + left < l.policy.attempts)
    (ht : ∀ x ∈ t, x.1.IsAttempt request) :
    Keeps (l.turnContract σ request) (fun _ r => ∀ items, r = .ok (.stream items) → Sound σ items) t
      (Retry.attemptsFrom l.policy l.draw l.record (fun _ => attempt request) made left) := by
  induction left generalizing made t with
  | zero =>
    unfold Retry.attemptsFrom
    refine keeps_bind.2 (keeps_attempt ⟨rfl, by omega, ht⟩ fun answer r he hr => ?_)
    split
    · intro items hi gap hg
      cases hi
      exact σ.silent he hr hg
    · exact fun _ h => nomatch h
    · split
      · exact fun _ h => nomatch h
      · exact fun _ h => nomatch h
  | succ left ih =>
    unfold Retry.attemptsFrom
    refine keeps_bind.2 (keeps_attempt ⟨rfl, by omega, ht⟩ fun answer r he hr => ?_)
    have hall : ∀ x ∈ t ++ [⟨.ask request, answer⟩], x.1.IsAttempt request := by
      intro x hx
      rcases List.mem_append.1 hx with hx | hx
      · exact ht x hx
      · exact List.mem_singleton.1 hx ▸ rfl
    have hasked : asked (t ++ [⟨.ask request, answer⟩]) = asked t + 1 := by
      rw [asked_append, asked_singleton]
      rfl
    split
    · intro items hi gap hg
      cases hi
      exact σ.silent he hr hg
    · exact fun _ h => nomatch h
    · split
      · dsimp only
        split
        · exact keeps_fault
        · -- the note of the retry, the delay, and the attempts that are left after this one
          refine keeps_bind.2 (keeps_record trivial fun v hv _ => ?_)
          have hnoted : asked v = 0 ∧ ∀ x ∈ v, x.1.IsAttempt request := by
            rcases hv with rfl | rfl
            · exact ⟨rfl, by simp⟩
            · exact ⟨rfl, fun x hx => List.mem_singleton.1 hx ▸ trivial⟩
          refine keeps_bind.2 (keeps_sleep.2 (ih ?_ fun x hx => ?_))
          · rw [asked_append, hasked, hnoted.1]
            omega
          · exact (List.mem_append.1 hx).elim (hall x) (hnoted.2 x)
      · exact fun _ h => nomatch h

theorem keeps_takeTurn : Keeps (l.turnContract σ request) (fun _ _ => True) [] (l.takeTurn request) := by
  have hattempts := l.policy.attempts_pos
  refine keeps_bind.2 ((keeps_attemptsFrom (by simp [asked]; omega) (by simp)).imp fun u r hr => ?_)
  split
  · trivial
  · dsimp only
    split
    · exact keeps_collect (fun _ => trivial) (fun _ _ => trivial) fun gap hg => by simp at hg
    · trivial
  · exact keeps_bind.2 (keeps_pass.2 (keeps_collect (fun _ => trivial) (fun _ _ => trivial) (hr _ rfl)))

/-- What is true of a turn in the end. -/
structure TurnTrace (l : Loop) (request : Request) (t : RunTrace) : Prop where
  asked_le : asked t ≤ l.policy.attempts
  entered_eq : entered t = 0
  asksOnly : AsksOnly request t

theorem turnTrace_takeTurn : Keeps (l.turnContract σ request)
    (fun u r => l.TurnTrace request u ∧ Leads (l.takeTurn request) u (done r)) [] (l.takeTurn request) := by
  refine (keeps_takeTurn.certified (l.TurnTrace request) ?_ ⟨Nat.zero_le _, rfl, by simp [AsksOnly]⟩).imp
    fun u r h => h.2
  intro u e answer hu ha _
  constructor
  · rw [asked_append, asked_singleton]
    split
    · cases e with
      | ask r => exact ha.2.1
      | _ => contradiction
    · exact hu.asked_le
  · rw [entered_append, hu.entered_eq, entered_singleton]
    cases e with
    | note e =>
      cases e with
      | event => rfl
      | _ => exact ha.elim
    | _ => rfl
  · refine asksOnly_append hu.asksOnly fun x hx r hr => ?_
    obtain rfl := List.mem_singleton.1 hx
    cases hr
    exact ha.1

/-! ### Rounds in a run -/

/-- What a round may do: what tool calls do, and no more bodies than `bound` are entered. -/
def roundAllows (bound : Nat) (t : RunTrace) : Effect → Prop
  | .note e => e.isOfCall ∧ (e.isEntered → entered t < bound) ∧ asked t = 0
  | _ => False

/-- How many bodies a round may enter. -/
def roundBound (ledger : Ledger) (calls : List CallRequest) : Nat := min calls.length (ledger.maxCalls - ledger.calls)

def roundContract (l : Loop) (σ : Surroundings (l.workshop input)) (bound : Nat) : Contract runEffects :=
  ⟨roundAllows bound, σ.expects, σ.mayHang⟩

/-- What comes back from a round. -/
structure RoundResult (ledger : Ledger) (calls : List CallRequest) (results : List ToolResult) (after : Ledger) :
    Prop where
  callIds : results.map (·.callId) = calls.map (·.id)
  calls : after.calls = ledger.calls + calls.length
  maxCalls : after.maxCalls = ledger.maxCalls

private theorem keeps_replay {bound now : Nat} {beats : List (Nat × Beat)}
    (ho : ∀ beat ∈ beats, ∀ e, beat.2 = .entry e → e.isOfCall) (hb : entered t + enteredIn beats ≤ bound)
    (ha : asked t = 0) :
    Keeps (l.roundContract σ bound) (fun _ _ => True) t (replay playBeat now beats) := by
  induction beats generalizing t now with
  | nil => trivial
  | cons first rest ih =>
    obtain ⟨time, beat⟩ := first
    have hrest : ∀ beat ∈ rest, ∀ e, beat.2 = .entry e → e.isOfCall := fun b h => ho b (List.mem_cons_of_mem _ h)
    -- what this beat enters is taken from what may still be entered
    refine keeps_wait.2 (keeps_bind.2 ?_)
    simp only [enteredIn, List.countP_cons] at hb ih
    cases beat with
    | used tool => exact ih hrest (by omega) ha
    | entry e =>
      refine ⟨⟨ho _ (List.mem_cons_self ..) e rfl, fun he => ?_, ha⟩, fun _ _ => ih hrest ?_ ?_⟩
      · rw [if_pos (show Beat.isEntered (.entry e) = true from he)] at hb
        omega
      · have he : entered (t ++ [⟨.note e, ‹_›⟩]) = entered t + if Beat.isEntered (.entry e) then 1 else 0 := by
          rw [entered_append, entered_singleton]
          rfl
        omega
      · rw [asked_append, ha, asked_singleton]
        rfl

theorem keeps_playRound {ledger : Ledger} {calls : List CallRequest} :
    Keeps (l.roundContract σ (roundBound ledger calls))
      (fun _ r => ∀ results after, r = .ok (results, after) → RoundResult ledger calls results after) []
      (l.playRound input ledger calls) := by
  refine keeps_bind.2 (keeps_pass.2 (keeps_bind.2 ?_))
  refine (keeps_replay (fun _ h _ he => Workshop.ofCall_round h he) ?_ rfl).imp fun _ _ _ => ?_
  · simpa [entered, roundBound] using Workshop.entered_round_le (l.workshop input) ledger calls
  · refine keeps_bind.2 (keeps_sleep.2 ?_)
    split
    · rename_i h
      exact σ.workshop (Workshop.mayHang_of_round h)
    · exact keeps_bind.2 (keeps_pass.2 fun _ _ h => nomatch h)
    · rename_i results h
      refine keeps_bind.2 (keeps_pass.2 fun _ _ hr => ?_)
      cases hr
      have hs := Workshop.calls_settle ledger calls ((l.workshop input).round ledger calls).beats
      exact ⟨Workshop.callIds_round h, hs.1, hs.2⟩

/-- What is true of a round in the end. -/
structure RoundTrace (bound : Nat) (t : RunTrace) : Prop where
  asked_eq : asked t = 0
  entered_le : entered t ≤ bound

theorem roundTrace_playRound {ledger : Ledger} {calls : List CallRequest} :
    Keeps (l.roundContract σ (roundBound ledger calls))
      (fun u r => (∀ results after, r = .ok (results, after) → RoundResult ledger calls results after) ∧
        RoundTrace (roundBound ledger calls) u ∧ Leads (l.playRound input ledger calls) u (done r)) []
      (l.playRound input ledger calls) := by
  refine keeps_playRound.certified (RoundTrace _) ?_ ⟨rfl, Nat.zero_le _⟩
  intro u e answer hu ha _
  cases e with
  | note e =>
    refine ⟨?_, ?_⟩
    · rw [asked_append, hu.asked_eq, asked_singleton]
      rfl
    · rw [entered_append, entered_singleton]
      split
      · exact ha.2.1 ‹_›
      · exact hu.entered_le
  | _ => exact ha.elim

end Loop

end AgentLoop
