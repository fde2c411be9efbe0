import AgentLoop.Proofs.Course
import AgentLoop.Proofs.Pairing

/-!
# What the model is sent

The rounds of a run are well paired, since every call gets its result in its place, and they contain no message of
the user.  So the user's message of a run is the last one in its conversation, and trimming keeps it, keeps what is
left well paired, and makes it fit unless that message alone is too large.
-/

namespace AgentLoop

open Process

namespace ToolRound

private theorem Complete.answerAll {r : ToolRound} (h : r.Complete) :
    AnswerAll r.calls (r.results.map fun result => Message.ofResult result.callId result.output) := by
  constructor
  · intro m hm
    obtain ⟨result, -, rfl⟩ := List.mem_map.1 hm
    rfl
  · have hids : (r.results.map (·.callId)).map some = (r.calls.map (·.id)).map some := by rw [h.callIds]
    simpa only [List.map_map, Function.comp_def, Message.ofResult] using hids

private theorem paired_conversation {rounds : List ToolRound} (h : ∀ r ∈ rounds, r.Complete) :
    Paired (conversation rounds) := by
  induction rounds with
  | nil => exact .nil
  | cons r rounds ih =>
    have hr := h r (List.mem_cons_self ..)
    have hcalls : (Message.ofCalls r.text r.calls).requestsTools = true := by
      simpa [Message.requestsTools, Message.ofCalls] using hr.calls_ne
    exact .round hcalls hr.answerAll (ih fun r' h' => h r' (List.mem_cons_of_mem _ h'))

/-- No round speaks for the user. -/
theorem role_ne_user {rounds : List ToolRound} {m : Message} (h : m ∈ conversation rounds) : m.role ≠ .user := by
  obtain ⟨r, -, hm⟩ := List.mem_flatMap.1 h
  rcases List.mem_cons.1 hm with rfl | hm
  · simp [Message.ofCalls]
  · obtain ⟨result, -, rfl⟩ := List.mem_map.1 hm
    simp [Message.ofResult]

end ToolRound

namespace Loop

open RunTrace ToolRound

variable {l : Loop} {input : LoopInput}

/-- Messages that may be sent after these rounds. -/
structure Sendable (l : Loop) (input : LoopInput) (rounds : List ToolRound) (messages : List Message) : Prop where
  paired : Paired messages
  current : input.user ∈ messages
  sublist : messages.Sublist (input.history ++ [input.user] ++ conversation rounds)
  /-- What was shed was shed from the front, on each side of the user's message. -/
  ends : ∃ older newer, messages = older ++ input.user :: newer ∧ older <:+ input.history ∧
    newer <:+ conversation rounds
  fits : Tokens.estimate input.system + Tokens.estimateMessages messages + l.window.maxOutput ≤ l.window.maxContext ∨
    messages = [input.user]

private theorem AtTurn.sendable {arrived : RunTrace} {k : Nat} {s : State} {rounds : List ToolRound}
    (h : l.AtTurn input arrived k s rounds) (hp : Paired input.history) (hu : input.user.role = .user) (offer : Bool) :
    l.Sendable input rounds (l.request input s.messages offer).messages := by
  obtain ⟨older, newer, hm, ho, hn, hpaired, hfits⟩ :=
    l.window.trim_paired input.system hp (paired_conversation h.complete) hu fun m => role_ne_user
  have hmessages : (l.request input s.messages offer).messages = older ++ input.user :: newer := by
    rw [request, h.messages, hm]
  rw [hmessages]
  refine ⟨hpaired, by simp, ?_, ⟨older, newer, rfl, ho, hn⟩, ?_⟩
  · rw [List.append_assoc]
    exact ho.sublist.append (hn.sublist.cons_cons _)
  · refine hfits.imp (Window.fits_window (by simp)) ?_
    rintro ⟨rfl, rfl⟩
    rfl

/-- However a run goes and ends, each of its requests belongs to a turn, and if the history is well paired, so is
every request: it has the user's message, leaves out only what comes first, and fits into the window if anything but
that message is left of it. -/
theorem requests_sendable (l : Loop) (input : LoopInput) (hp : Paired input.history) (hu : input.user.role = .user)
    (provider : Provider) (cancelAt : Option Nat) (scene : Scene) {before after : RunTrace} {request : Request}
    {answer : Reaction (Except ProviderError Reply)}
    (h : l.exchanges provider cancelAt input scene = before ++ ⟨.ask request, answer⟩ :: after) :
    ∃ rounds since, l.InTurn input before rounds since request ∧ l.Sendable input rounds request.messages := by
  obtain ⟨rounds, since, hturn, -⟩ := allows_exchanges h
  obtain ⟨arrived, k, s, hbefore, hs, rfl, hsince⟩ := hturn
  exact ⟨rounds, since, ⟨arrived, k, s, hbefore, hs, rfl, hsince⟩, hs.sendable hp hu _⟩

/-- A run that goes on from a round of two calls under one id, with room for little else. -/
def resumedInput : LoopInput where
  system := "s"
  history := [.ofUser "q", .ofCalls "" [⟨"a", "f", "{}"⟩, ⟨"a", "g", "{}"⟩], .ofResult "a" "1", .ofResult "a" "2"]
  user := .ofUser "and now?"
  context := ⟨"and now?", []⟩

def resumedLoop : Loop where
  settings := { model := "m", temperature := .finite false 0 0, maxToolCalls := 1 }
  window := ⟨30, 5⟩
  policy := { jitter := .finite false 0 0 }

def resumedProvider : Provider where
  reply _ _ := .now (.ok (.whole ⟨.ofAssistant "done", none, "m"⟩))

private theorem paired_resumedInput : Paired resumedInput.history := by
  have hround : AnswerAll [⟨"a", "f", "{}"⟩, ⟨"a", "g", "{}"⟩] [.ofResult "a" "1", .ofResult "a" "2"] :=
    ⟨by decide, by decide⟩
  have h := Paired.nil.round (m := .ofCalls "" [⟨"a", "f", "{}"⟩, ⟨"a", "g", "{}"⟩]) rfl hround
  exact h.single rfl (by decide)

theorem requests_sendable_resumed :
    Paired resumedInput.history ∧ resumedInput.user.role = .user ∧
      ∃ rounds since request answer after,
        resumedLoop.exchanges resumedProvider none resumedInput {} = ⟨.ask request, answer⟩ :: after ∧
          resumedLoop.InTurn resumedInput [] rounds since request ∧
          resumedLoop.Sendable resumedInput rounds request.messages := by
  obtain ⟨answer, after, h⟩ := exchanges_run resumedLoop resumedInput resumedProvider none (by decide) {}
  obtain ⟨rounds, since, hturn, hsend⟩ :=
    requests_sendable resumedLoop resumedInput paired_resumedInput rfl resumedProvider none {}
      (h.trans (List.nil_append _).symm)
  exact ⟨paired_resumedInput, rfl, rounds, since, _, answer, after, h, hturn, hsend⟩

end Loop

end AgentLoop
