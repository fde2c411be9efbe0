import AgentLoop.Window

/-!
# Well-paired conversations

A conversation is well paired if every assistant message that requests tools is directly followed by one tool message
for each of its calls, in their order, and if there are no other tool messages.  The units of the window do not cut
such a group apart, so trimming keeps a conversation well paired.  What is kept is an end of the messages before the
last user message, that message, and an end of the messages after it; it fits into the budget unless it is the last
user message alone.
-/

namespace AgentLoop

/-- The messages are the results of these calls, one for each and in their order. -/
def AnswerAll (calls : List CallRequest) (results : List Message) : Prop :=
  (∀ r ∈ results, r.role = .tool) ∧ results.map (·.callId) = calls.map fun c => some c.id

inductive Paired : List Message → Prop where
  | nil : Paired []
  | single {m : Message} {rest : List Message} (hm : m.requestsTools = false) (ht : m.role ≠ .tool)
      (h : Paired rest) : Paired (m :: rest)
  | round {m : Message} {results rest : List Message} (hm : m.requestsTools = true)
      (hr : AnswerAll m.calls results) (h : Paired rest) : Paired (m :: (results ++ rest))

namespace Paired

private theorem append {xs ys : List Message} (hx : Paired xs) (hy : Paired ys) : Paired (xs ++ ys) := by
  induction hx with
  | nil => exact hy
  | single hm ht _ ih => exact .single hm ht ih
  | round hm hr _ ih =>
    rw [List.cons_append, List.append_assoc]
    exact .round hm hr ih

private theorem head_ne_tool {m : Message} {rest : List Message} (h : Paired (m :: rest)) : m.role ≠ .tool := by
  cases h with
  | single _ ht _ => exact ht
  | round hm _ _ =>
    simp only [Message.requestsTools, Bool.and_eq_true, beq_iff_eq] at hm
    simp [hm.1]

end Paired

private theorem Message.answers_of_answerAll {m r : Message} {results : List Message} (h : AnswerAll m.calls results)
    (hr : r ∈ results) : m.answers r = true := by
  have hid : r.callId ∈ m.calls.map fun c => some c.id := h.2 ▸ List.mem_map_of_mem hr
  obtain ⟨call, hc, he⟩ := List.mem_map.1 hid
  simp only [Message.answers, h.1 r hr, ← he, BEq.rfl, Bool.true_and, Option.any_some, List.any_eq_true]
  exact ⟨call, hc, by simp⟩

namespace MessageUnit

/-! ### Units -/

theorem flatten_group (items : List Item) : (group items).flatten = items := by
  induction items using group.induct with
  | case1 => simp [group]
  | case2 first rest ih =>
    rw [group, List.flatten_cons, ih, List.cons_append, List.takeWhile_append_dropWhile]

/-- Units at the end hold the items at the end. -/
theorem flatten_suffix {items : List Item} {units : List MessageUnit} (h : units <:+ group items) :
    units.flatten <:+ items := by
  obtain ⟨shed, h⟩ := h
  exact ⟨shed.flatten, by rw [← List.flatten_append, h, flatten_group]⟩

private theorem belongs_of_answerAll {first : Item} {items : List Item} (hm : first.message.requestsTools = true)
    (h : AnswerAll first.message.calls (items.map (·.message))) : ∀ i ∈ items, belongs first i = true := by
  intro i hi
  have := Message.answers_of_answerAll h (List.mem_map_of_mem (f := (·.message)) hi)
  simp [belongs, hm, this]

/-- Only a tool message belongs to the message before it. -/
theorem belongs_eq_false_of_ne_tool {first next : Item} (h : next.message.role ≠ .tool) :
    belongs first next = false := by
  simp [belongs, Message.answers, h]

/-- What follows the first unit of a well-paired conversation is well paired. -/
private theorem paired_dropWhile {first : Item} {rest : List Item} (h : Paired ((first :: rest).map (·.message))) :
    Paired ((rest.dropWhile (belongs first)).map (·.message)) := by
  rw [List.map_cons] at h
  generalize hr : rest.map (·.message) = messages at h
  cases h with
  | single hm _ h =>
    have hb : ∀ i ∈ rest, belongs first i = false := fun i _ => by simp [belongs, hm]
    cases rest with
    | nil => exact .nil
    | cons i rest => rwa [List.dropWhile_cons_of_neg (by simp [hb i]), hr]
  | round hm ha h =>
    obtain ⟨results, others, rfl, rfl, rfl⟩ := List.map_eq_append_iff.1 hr
    rw [List.dropWhile_append_of_pos (belongs_of_answerAll hm ha)]
    cases others with
    | nil => exact .nil
    | cons i others =>
      rwa [List.dropWhile_cons_of_neg]
      simp [belongs_eq_false_of_ne_tool h.head_ne_tool]

private theorem paired_of_suffix_group {items : List Item} (h : Paired (items.map (·.message)))
    {units : List MessageUnit}
    (hu : units <:+ group items) : Paired (units.flatten.map (·.message)) := by
  induction items using group.induct with
  | case1 =>
    obtain rfl : units = [] := by simpa [group] using hu
    exact .nil
  | case2 first rest ih =>
    rw [group] at hu
    rcases List.suffix_cons_iff.1 hu with rfl | hu
    · rwa [← group, flatten_group]
    · exact ih (paired_dropWhile h) hu

/-! ### Shedding -/

private theorem shed_suffix (budget others : Nat) (units : List MessageUnit) : shed budget others units <:+ units := by
  induction units with
  | nil => exact List.suffix_refl _
  | cons u us ih =>
    unfold shed
    split
    · exact List.suffix_refl _
    · exact ih.trans (List.suffix_cons u us)

private theorem shed_eq_nil_or_fits (budget others : Nat) (units : List MessageUnit) :
    shed budget others units = [] ∨ cost (shed budget others units) + others ≤ budget := by
  induction units with
  | nil => exact .inl rfl
  | cons u us ih =>
    unfold shed
    split
    · exact .inr ‹_›
    · exact ih

theorem shed_of_fits {budget others : Nat} {units : List MessageUnit} (h : cost units + others ≤ budget) :
    shed budget others units = units := by
  cases units with
  | nil => rfl
  | cons u us => exact if_pos h

theorem cost_flatten (units : List MessageUnit) : Item.cost units.flatten = cost units := by
  induction units with
  | nil => rfl
  | cons u us ih =>
    simp only [Item.cost, cost, List.flatten_cons, List.map_append, List.map_cons, Tokens.total_append,
      Tokens.total] at ih ⊢
    rw [ih]

end MessageUnit

namespace Item

theorem cost_append (xs ys : List Item) : cost (xs ++ ys) = cost xs + cost ys := by
  simp [cost, Tokens.total_append]

theorem map_message_ofMessages (ms : List Message) : (ofMessages ms).map (·.message) = ms := by
  simp [ofMessages, Function.comp_def]

theorem tokens_of_mem_ofMessages (ms : List Message) {i : Item} (h : i ∈ ofMessages ms) :
    i.tokens = Tokens.estimateMessage i.message := by
  obtain ⟨m, -, rfl⟩ := List.mem_map.1 h
  rfl

theorem cost_eq_estimateMessages {items : List Item}
    (h : ∀ i ∈ items, i.tokens = Tokens.estimateMessage i.message) :
    cost items = Tokens.estimateMessages (items.map (·.message)) := by
  simp only [cost, Tokens.estimateMessages, List.map_map]
  exact congrArg Tokens.total (List.map_congr_left h)

end Item

/-! ### Trimming around the last user message -/

theorem splitAtLastUser_append {before after : List Item} {current : Item} (hc : current.message.role = .user)
    (ha : ∀ i ∈ after, i.message.role ≠ .user) :
    splitAtLastUser (before ++ current :: after) = (before, some current, after) := by
  have hr : (before ++ current :: after).reverse = after.reverse ++ current :: before.reverse := by simp
  have ha' : ∀ i ∈ after.reverse, (!(i.message.role == .user)) = true := by
    intro i hi
    simpa using ha i (List.mem_reverse.1 hi)
  unfold splitAtLastUser
  dsimp only
  rw [hr, List.takeWhile_append_of_pos ha', List.dropWhile_append_of_pos ha',
    List.takeWhile_cons_of_neg (by simp [hc]), List.dropWhile_cons_of_neg (by simp [hc])]
  simp

namespace Window

/-- The units that stay on both sides of the last user message.  Either everything fits, or nothing else is left. -/
theorem keep_append (budget : Nat) (before : List Item) {after : List Item} {current : Item}
    (hc : current.message.role = .user) (ha : ∀ i ∈ after, i.message.role ≠ .user) :
    ∃ older newer, older <:+ MessageUnit.group before ∧ newer <:+ MessageUnit.group after ∧
      keep budget (before ++ current :: after) = older.flatten ++ current :: newer.flatten ∧
      (Item.cost (keep budget (before ++ current :: after)) ≤ budget ∨ older = [] ∧ newer = []) := by
  unfold keep
  rw [splitAtLastUser_append hc ha]
  dsimp only
  generalize MessageUnit.group before = us
  generalize MessageUnit.group after = vs
  let fixed := Item.cost [current]
  let older := MessageUnit.shed budget (fixed + MessageUnit.cost vs) us
  let newer := MessageUnit.shed budget (fixed + MessageUnit.cost older) vs
  refine ⟨older, newer, MessageUnit.shed_suffix .., MessageUnit.shed_suffix .., by simp [older, newer, fixed], ?_⟩
  have hcost : Item.cost (older.flatten ++ [current] ++ newer.flatten) =
      MessageUnit.cost newer + (fixed + MessageUnit.cost older) := by
    rw [Item.cost_append, Item.cost_append, MessageUnit.cost_flatten, MessageUnit.cost_flatten]
    omega
  show Item.cost (older.flatten ++ [current] ++ newer.flatten) ≤ budget ∨ _
  rw [hcost]
  rcases MessageUnit.shed_eq_nil_or_fits budget (fixed + MessageUnit.cost older) vs with hn | hn
  · rcases MessageUnit.shed_eq_nil_or_fits budget (fixed + MessageUnit.cost vs) us with ho | ho
    · exact .inr ⟨ho, hn⟩
    · -- the older units made room for all the newer ones
      change MessageUnit.cost older + _ ≤ _ at ho
      have hall : newer = vs := MessageUnit.shed_of_fits (by omega)
      exact .inl (by rw [hall]; omega)
  · exact .inl hn

/-- Trimming keeps a well-paired conversation well paired and does not lose its last user message. -/
theorem trim_paired (w : Window) (system : String) {older newer : List Message} {user : Message}
    (ho : Paired older) (hn : Paired newer) (hu : user.role = .user) (hr : ∀ m ∈ newer, m.role ≠ .user) :
    ∃ kept kept', (w.trim system (older ++ user :: newer)).messages = kept ++ user :: kept' ∧
      kept <:+ older ∧ kept' <:+ newer ∧ Paired (kept ++ user :: kept') ∧
      (Tokens.estimateMessages (kept ++ user :: kept') ≤ w.budget system ∨ kept = [] ∧ kept' = []) := by
  obtain ⟨before, others, hsplit, hbefore, hothers⟩ :=
    List.map_eq_append_iff.1 (Item.map_message_ofMessages (older ++ user :: newer))
  obtain ⟨current, after, rfl, hcurrent, hafter⟩ := List.map_eq_cons_iff.1 hothers
  have hrole : ∀ i ∈ after, i.message.role ≠ .user := fun i hi => hr _ (hafter ▸ List.mem_map_of_mem hi)
  obtain ⟨us, vs, hus, hvs, hkeep, hfits⟩ :=
    keep_append (w.budget system) before (hcurrent ▸ hu) hrole
  have hmessages : (w.trim system (older ++ user :: newer)).messages =
      us.flatten.map (·.message) ++ user :: vs.flatten.map (·.message) := by
    simp only [trim, Trimmed.messages, hsplit, hkeep, List.map_append, List.map_cons, hcurrent]
  have hcost : Item.cost (keep (w.budget system) (before ++ current :: after)) =
      Tokens.estimateMessages (us.flatten.map (·.message) ++ user :: vs.flatten.map (·.message)) := by
    rw [hkeep, Item.cost_eq_estimateMessages]
    · simp [hcurrent]
    · intro i hi
      refine Item.tokens_of_mem_ofMessages (older ++ user :: newer) (hsplit ▸ ?_)
      simp only [List.mem_append, List.mem_cons] at hi ⊢
      exact hi.imp (MessageUnit.flatten_suffix hus).mem (.imp_right (MessageUnit.flatten_suffix hvs).mem)
  -- a suffix of the units of a well-paired conversation is well paired, and the user's message stands by itself
  refine ⟨_, _, hmessages, ?_, ?_, ?_, ?_⟩
  · exact hbefore ▸ (MessageUnit.flatten_suffix hus).map _
  · exact hafter ▸ (MessageUnit.flatten_suffix hvs).map _
  · have hsingle : user.requestsTools = false := by simp [Message.requestsTools, hu]
    refine .append (MessageUnit.paired_of_suffix_group (hbefore ▸ ho) hus) (.single hsingle (by simp [hu]) ?_)
    exact MessageUnit.paired_of_suffix_group (hafter ▸ hn) hvs
  · rw [← hcost]
    exact hfits.imp_right fun ⟨h, h'⟩ => by simp [h, h']

theorem fits_window {w : Window} {system : String} {ms : List Message} (hne : ms ≠ [])
    (h : Tokens.estimateMessages ms ≤ w.budget system) :
    Tokens.estimate system + Tokens.estimateMessages ms + w.maxOutput ≤ w.maxContext := by
  cases ms with
  | nil => exact absurd rfl hne
  | cons m ms =>
    have hm := Tokens.messageOverhead_le_estimateMessage m
    simp only [Tokens.estimateMessages, List.map_cons, Tokens.total, Tokens.messageOverhead, budget] at h hm ⊢
    omega

end Window

end AgentLoop
