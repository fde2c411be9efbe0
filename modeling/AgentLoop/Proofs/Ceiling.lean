import AgentLoop.Proofs.Course

/-!
# The limit of tool calls

The limit bounds whole runs: the turns, since every round counts at least one call and no round follows once the
limit is reached; the bodies of tools, since a call counted beyond the limit is not executed even if its round began
below it; and with the turns the attempts.  So a run ends if its collaborators answer.
-/

namespace AgentLoop

/-! ### Tools in order -/

theorem mem_insertField {α : Type} {name : String} {value : α} {fields : List (String × α)} {entry : String × α}
    (h : entry ∈ insertField name value fields) : entry = (name, value) ∨ entry ∈ fields := by
  induction fields with
  | nil => exact .inl (List.mem_singleton.1 h)
  | cons first rest ih =>
    obtain ⟨n, v⟩ := first
    unfold insertField at h
    split at h
    · exact List.mem_cons.1 h
    · split at h
      · exact (List.mem_cons.1 h).imp_right (List.mem_cons_of_mem _)
      · rcases List.mem_cons.1 h with rfl | h
        · exact .inr (List.mem_cons_self ..)
        · exact (ih h).imp_right (List.mem_cons_of_mem _)

theorem sorted_insertField {α : Type} {name : String} {value : α} {fields : List (String × α)}
    (h : fields.Pairwise fun a b => a.1 < b.1) : (insertField name value fields).Pairwise fun a b => a.1 < b.1 := by
  induction fields with
  | nil => exact List.pairwise_singleton ..
  | cons first rest ih =>
    obtain ⟨n, v⟩ := first
    obtain ⟨hfirst, hrest⟩ := List.pairwise_cons.1 h
    unfold insertField
    split
    · rename_i hlt
      refine List.pairwise_cons.2 ⟨fun b hb => ?_, h⟩
      rcases List.mem_cons.1 hb with rfl | hb
      · exact hlt
      · exact String.lt_trans hlt (hfirst b hb)
    · split
      · rename_i heq
        exact List.pairwise_cons.2 ⟨fun b hb => heq ▸ hfirst b hb, hrest⟩
      · rename_i hlt hne
        refine List.pairwise_cons.2 ⟨fun b hb => ?_, ih hrest⟩
        rcases mem_insertField hb with rfl | hb
        · exact Std.lt_of_le_of_ne (String.not_lt.1 hlt) (Ne.symm hne)
        · exact hfirst b hb

namespace ToolSet

/-- Tools are told in the order of their names, each name once. -/
private theorem sorted_ofTools (tools : List Tool) : ((ofTools tools).definitions.map (·.name)).Pairwise (· < ·) := by
  have fold (tools : List Tool) (s : ToolSet) (hs : s.entries.Pairwise fun a b => a.1 < b.1)
      (hn : ∀ entry ∈ s.entries, entry.2.name = entry.1) :
      ((tools.foldl insert s).definitions.map (·.name)).Pairwise (· < ·) := by
    induction tools generalizing s with
    | nil =>
      rw [List.foldl_nil, definitions, List.map_map, List.pairwise_map]
      refine hs.imp_of_mem fun ha hb h => ?_
      simpa [Tool.definition, hn _ ha, hn _ hb] using h
    | cons t tools ih =>
      refine ih _ (sorted_insertField hs) fun entry h => ?_
      rcases mem_insertField h with rfl | h
      · rfl
      · exact hn entry h
  exact fold tools {} .nil (by simp)

theorem definitions_ne_nil {s : ToolSet} (h : s.isEmpty = false) : s.definitions ≠ [] := by
  intro hd
  rw [isEmpty, List.map_eq_nil_iff.1 hd] at h
  cases h

end ToolSet

/-! ### The bounds -/

namespace Loop

open RunTrace ToolRound

variable {l : Loop} {input : LoopInput} {provider : Provider} {cancelAt : Option Nat} {scene : Scene}

/-- The tools of a request say whether its turn offered any. -/
private theorem InTurn.tools_eq {t since : RunTrace} {rounds : List ToolRound} {request : Request}
    (h : l.InTurn input t rounds since request) :
    request.tools =
      if !input.tools.isEmpty && requested rounds < l.limit then input.tools.definitions else [] := by
  obtain ⟨arrived, k, s, -, -, rfl, -⟩ := h
  rfl

private theorem InTurn.length_le {t since : RunTrace} {rounds : List ToolRound} {request : Request}
    (h : l.InTurn input t rounds since request) : rounds.length ≤ l.limit := by
  obtain ⟨arrived, k, s, -, hs, -, -⟩ := h
  exact hs.length_le

private theorem InTurn.asked_le {t since : RunTrace} {rounds : List ToolRound} {request : Request}
    (h : l.InTurn input t rounds since request) : asked t ≤ l.limit * l.policy.attempts + asked since := by
  obtain ⟨arrived, k, s, rfl, hs, -, -⟩ := h
  have := hs.asked_le
  have := Nat.mul_le_mul_right l.policy.attempts hs.length_le
  rw [asked_append]
  omega

/-- A request without tools that was made before belongs to the turn that is under way. -/
private theorem InTurn.eq_of_tools_eq_nil {t since : RunTrace} {rounds : List ToolRound} {request request' : Request}
    (h : l.InTurn input t rounds since request) {x : Exchange runEffects} (hx : x ∈ t) (hr : x.1 = .ask request')
    (ht : request'.tools = []) : request' = request := by
  obtain ⟨arrived, k, s, rfl, hs, -, hsince⟩ := h
  rcases List.mem_append.1 hx with hx | hx
  · obtain ⟨htools, hd⟩ := hs.offered x hx request' hr
    exact absurd (hd.symm.trans ht) (ToolSet.definitions_ne_nil htools)
  · exact hsince x hx request' hr

/-- At most as many attempts as the turns that are possible have. -/
private theorem asked_exchanges_le :
    asked (l.exchanges provider cancelAt input scene) ≤ (l.limit + 1) * l.policy.attempts := by
  refine invariant_exchanges (fun t => asked t ≤ (l.limit + 1) * l.policy.attempts) (Nat.zero_le _) ?_
  intro t e answer ht ha
  rw [asked_append, asked_singleton]
  split
  · cases e with
    | ask request =>
      obtain ⟨rounds, since, hturn, hlt, -⟩ := ha
      have := hturn.asked_le
      rw [Nat.add_mul]
      omega
    | _ => contradiction
  · exact ht

/-- At most as many bodies as the limit allows calls. -/
private theorem entered_exchanges_le : entered (l.exchanges provider cancelAt input scene) ≤ l.limit := by
  refine invariant_exchanges (fun t => entered t ≤ l.limit) (Nat.zero_le _) ?_
  intro t e answer ht ha
  rw [entered_append, entered_singleton]
  split
  · cases e with
    | note e => exact (ha.2 ‹_›).1
    | _ => contradiction
  · exact ht

/-- After a request without tools there are only attempts at the same request, and no body is entered. -/
private theorem last_of_tools_eq_nil {before after : RunTrace} {request : Request}
    {answer : Reaction (Except ProviderError Reply)}
    (h : l.exchanges provider cancelAt input scene = before ++ ⟨.ask request, answer⟩ :: after)
    (ht : request.tools = []) : AsksOnly request after ∧ entered after = 0 := by
  -- whatever comes later comes after the request
  have later {x : Exchange runEffects} (hx : x ∈ after) :
      ∃ mid, l.runAllows input (before ++ ⟨.ask request, answer⟩ :: mid) x.1 := by
    obtain ⟨mid, rest, rfl⟩ := List.append_of_mem hx
    exact ⟨mid, allows_exchanges (v := rest) (h.trans (by simp))⟩
  have hmem (mid : RunTrace) : (⟨.ask request, answer⟩ : Exchange runEffects) ∈ before ++ ⟨.ask request, answer⟩ :: mid :=
    List.mem_append_right _ (List.mem_cons_self ..)
  constructor
  · intro x hx request' hr
    obtain ⟨mid, ha⟩ := later hx
    rw [hr] at ha
    obtain ⟨rounds, since, hturn, -⟩ := ha
    exact (hturn.eq_of_tools_eq_nil (hmem mid) rfl ht).symm
  · refine List.countP_eq_zero.2 fun x hx he => ?_
    obtain ⟨mid, ha⟩ := later hx
    obtain ⟨e, answer'⟩ := x
    cases e with
    | note e =>
      obtain ⟨-, rounds, since, request', hturn, hoffer⟩ := ha.2 he
      -- a body is only entered in a turn that offered tools, but the turn under way offered none
      have heq := hturn.eq_of_tools_eq_nil (hmem mid) rfl ht
      have htools := hturn.tools_eq
      rw [show (!input.tools.isEmpty && decide (requested rounds < l.limit)) = true from hoffer, ← heq, ht] at htools
      exact ToolSet.definitions_ne_nil (offers_eq_true hoffer).1 htools.symm
    | _ => contradiction

/-- A counter of 32 bits has the count of the ledger. -/
private theorem counted_of_atTurn {arrived : RunTrace} {k : Nat} {s : State} {rounds : List ToolRound}
    (h : l.AtTurn input arrived k s rounds) (hfew : requested rounds < UInt32.size - 1) :
    s.ledger.counter.toNat = requested rounds ∧
      (s.ledger.limitReached ↔ l.settings.maxToolCalls ≤ s.ledger.counter) ∧ s.iterations + 1 < UInt32.size := by
  have hrounds := length_le_requested h.complete
  have hcounter : s.ledger.counter.toNat = s.ledger.calls := Ledger.toNat_counter (by rw [h.calls]; omega)
  refine ⟨hcounter.trans h.calls, ?_, by rw [h.iterations]; omega⟩
  rw [UInt32.le_iff_toNat_le, hcounter, Ledger.limitReached, decide_eq_true_iff, h.maxCalls, limit]

/-- How the limit of tool calls bounds a run. -/
structure WithinLimit (l : Loop) (input : LoopInput) (provider : Provider) (cancelAt : Option Nat) (scene : Scene) :
    Prop where
  /-- Each request belongs to a turn, of which there are at most one more than the limit, is one of the attempts of
  this turn, and offers the tools as long as the calls of the turns before are below the limit. -/
  turns {before after : RunTrace} {request : Request} {answer : Reaction (Except ProviderError Reply)}
    (h : l.exchanges provider cancelAt input scene = before ++ ⟨.ask request, answer⟩ :: after) :
    ∃ rounds since, l.InTurn input before rounds since request ∧ rounds.length ≤ l.limit ∧
      asked since < l.policy.attempts ∧ request.tools =
        if !input.tools.isEmpty && requested rounds < l.limit then input.tools.definitions else []
  sorted {tools : List Tool} (h : input.tools = .ofTools tools) :
    (input.tools.definitions.map (·.name)).Pairwise (· < ·)
  asked_le : asked (l.exchanges provider cancelAt input scene) ≤ (l.limit + 1) * l.policy.attempts
  entered_le : entered (l.exchanges provider cancelAt input scene) ≤ l.limit
  /-- A turn that offered no tools is the last one, and what it asks for is not executed. -/
  last {before after : RunTrace} {request : Request} {answer : Reaction (Except ProviderError Reply)}
    (h : l.exchanges provider cancelAt input scene = before ++ ⟨.ask request, answer⟩ :: after)
    (ht : request.tools = []) : AsksOnly request after ∧ entered after = 0
  /-- The outcome counts and keeps the calls of the rounds before the last turn, refused ones included. -/
  outcome {outcome : Outcome} (h : (l.perform provider cancelAt input scene).1 = .returns (.ok outcome)) :
    ∃ rounds since request, l.InTurn input (l.exchanges provider cancelAt input scene) rounds since request ∧
      Concludes input rounds outcome
  /-- As long as few enough calls are requested, a counter of 32 bits that is compared with the limit has the same number
  at the beginning of each turn, and so has one of the turns. -/
  counted {arrived : RunTrace} {k : Nat} {s : State} {rounds : List ToolRound}
    (h : l.AtTurn input arrived k s rounds) (hfew : requested rounds < UInt32.size - 1) :
    s.ledger.counter.toNat = requested rounds ∧
      (s.ledger.limitReached ↔ l.settings.maxToolCalls ≤ s.ledger.counter) ∧ s.iterations + 1 < UInt32.size
  /-- The run ends if every call of a collaborator returns. -/
  ends (hp : ∀ earlier request, Surroundings.Answers (provider.reply earlier request))
    (hw : ¬ (l.workshop input).MayHang) : (l.perform provider cancelAt input scene).1 ≠ .hangs

/-- The limit bounds every run. -/
theorem run_withinLimit (l : Loop) (input : LoopInput) (provider : Provider) (cancelAt : Option Nat) (scene : Scene) :
    l.WithinLimit input provider cancelAt scene where
  turns h := by
    obtain ⟨rounds, since, hturn, hlt, -⟩ := allows_exchanges h
    exact ⟨rounds, since, hturn, hturn.length_le, hlt, hturn.tools_eq⟩
  sorted h := h ▸ ToolSet.sorted_ofTools _
  asked_le := asked_exchanges_le
  entered_le := entered_exchanges_le
  last := last_of_tools_eq_nil
  outcome h := by
    obtain ⟨rounds, since, request, hturn, -, -, hc⟩ := returns_perform h _ rfl
    exact ⟨rounds, since, request, hturn, hc⟩
  counted h hfew := counted_of_atTurn h hfew
  ends := perform_ne_hangs

end Loop

end AgentLoop
