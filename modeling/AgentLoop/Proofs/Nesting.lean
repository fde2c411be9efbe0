import AgentLoop.Proofs.Trimming

/-!
# Trimming is nested in the budget

A tighter budget keeps less of a conversation than a looser one, and it comes to the same if the looser one has been
kept to before.  Units go from the front on both sides of the last user message, so those that stay are the units of
what stays: no message comes to answer another one than before, and the last user message remains the last.  Hence the
order of removal of what stays is what stays of the order of removal.
-/

namespace AgentLoop

/-! ### The order of removal of what stays -/

namespace MessageUnit

private theorem group_flatten_drop (items : List Item) (k : Nat) :
    group ((group items).drop k).flatten = (group items).drop k := by
  induction items using group.induct generalizing k with
  | case1 => simp [group]
  | case2 first rest ih =>
    cases k with
    | zero => rw [List.drop_zero, flatten_group]
    | succ k =>
      have hunits : (group (first :: rest)).drop (k + 1) = (group (rest.dropWhile (belongs first))).drop k := by
        rw [group, List.drop_succ_cons]
      rw [hunits]
      exact ih k

end MessageUnit

private theorem splitAtLastUser_of_forall {items : List Item} (h : ∀ i ∈ items, i.message.role ≠ .user) :
    splitAtLastUser items = ([], none, items) := by
  rcases splitAtLastUser_cases items with ⟨before, current, after, rfl, hc, -⟩ | ⟨-, hsplit⟩
  · exact absurd hc (h current (by simp))
  · exact hsplit

private theorem parted_of_split {items before after : List Item} {current : Option Item}
    (hp : items.Pairwise (·.position < ·.position)) (hs : splitAtLastUser items = (before, current, after)) :
    Parted items before current after := by
  obtain ⟨before', current', after', h⟩ := exists_parted hp
  cases h.split.symm.trans hs
  exact h

/-- What stays of the order of removal is the order of removal of what stays. -/
private theorem removalOrder_without {items : List Item} (hp : items.Pairwise (·.position < ·.position)) (k : Nat) :
    removalOrder (Item.without items ((removalOrder items).take k)) = (removalOrder items).drop k := by
  have hp' : (Item.without items ((removalOrder items).take k)).Pairwise (·.position < ·.position) :=
    hp.sublist List.filter_sublist
  rcases splitAtLastUser_cases items with ⟨before, current, after, -, hc, ha, hsplit⟩ | ⟨hnone, hsplit⟩
  · have h := parted_of_split hp hsplit
    rw [h.without (Item.nodup_of_pairwise hp), Option.toList_some, List.append_assoc, List.singleton_append] at hp' ⊢
    -- nothing after the last user message becomes one
    have hlast : ∀ i ∈ ((MessageUnit.group after).drop (k - (MessageUnit.group before).length)).flatten,
        i.message.role ≠ .user :=
      fun i hi => ha i ((MessageUnit.flatten_suffix (List.drop_suffix ..)).subset hi)
    rw [(parted_of_split hp' (splitAtLastUser_append hc hlast)).order, h.order, MessageUnit.group_flatten_drop,
      MessageUnit.group_flatten_drop, List.drop_append]
  · have h := parted_of_split hp hsplit
    have hempty : MessageUnit.group [] = [] := by rw [MessageUnit.group]
    rw [h.without (Item.nodup_of_pairwise hp), hempty, List.drop_nil, List.flatten_nil, Option.toList_none,
      List.append_nil, List.nil_append, List.length_nil, Nat.sub_zero] at hp' ⊢
    have hlast : ∀ i ∈ ((MessageUnit.group items).drop k).flatten, i.message.role ≠ .user :=
      fun i hi => hnone i ((MessageUnit.flatten_suffix (List.drop_suffix ..)).subset hi)
    rw [(parted_of_split hp' (splitAtLastUser_of_forall hlast)).order, h.order, hempty,
      MessageUnit.group_flatten_drop, List.nil_append, List.nil_append]

/-! ### The shortest prefixes for two budgets -/

private theorem Item.without_without (items : List Item) (order : List MessageUnit) (k j : Nat) :
    without (without items (order.take k)) ((order.drop k).take j) = without items (order.take (k + j)) := by
  have htake : order.take (k + j) = order.take k ++ (order.drop k).take j := List.take_add
  rw [without, without, without, List.filter_filter, htake, List.flatten_append]
  refine List.filter_congr fun i _ => ?_
  rw [Bool.and_comm, Bool.eq_iff_iff]
  simp only [Bool.and_eq_true, decide_eq_true_eq, List.mem_append, not_or]

namespace Shortest

variable {b b₁ b₂ k k₁ k₂ : Nat} {items : List Item} {order : List MessageUnit}

/-- A tighter budget needs a longer prefix. -/
private theorem le_of_le (h₁ : Shortest b₁ items order k₁) (h₂ : Shortest b₂ items order k₂) (hb : b₁ ≤ b₂) :
    k₂ ≤ k₁ := by
  rcases h₁.enough with hfits | rfl
  · refine Nat.not_lt.1 fun hlt => ?_
    have hover := h₂.needed k₁ hlt
    omega
  · exact h₂.le

private theorem unique (h : Shortest b items order k) (h' : Shortest b items order k₁) : k = k₁ :=
  Nat.le_antisymm (h'.le_of_le h (Nat.le_refl b)) (h.le_of_le h' (Nat.le_refl b))

/-- After a part of the prefix the rest of it is as long as it has to be. -/
private theorem rest (h : Shortest b items order k) (hk : k₂ ≤ k) :
    Shortest b (Item.without items (order.take k₂)) (order.drop k₂) (k - k₂) where
  le := by
    have := h.le
    rw [List.length_drop]
    omega
  enough := by
    rw [Item.without_without, Nat.add_sub_cancel' hk, List.length_drop]
    exact h.enough.imp_right fun hall => by rw [hall]
  needed j hj := by
    rw [Item.without_without]
    exact h.needed (k₂ + j) (by omega)

end Shortest

namespace Window

variable {b₁ b₂ : Nat} {items : List Item}

private theorem exists_shortest_keep (hp : items.Pairwise (·.position < ·.position)) (budget : Nat) :
    ∃ k, Shortest budget items (removalOrder items) k ∧
      keep budget items = Item.without items ((removalOrder items).take k) := by
  obtain ⟨before, current, after, h⟩ := exists_parted hp
  exact h.exists_shortest (Item.nodup_of_pairwise hp) budget

private theorem keep_sublist (hp : items.Pairwise (·.position < ·.position)) (budget : Nat) :
    (keep budget items).Sublist items := by
  obtain ⟨k, -, hkeep⟩ := exists_shortest_keep hp budget
  exact hkeep ▸ List.filter_sublist

/-- Keeping to a looser budget first makes no difference. -/
private theorem keep_keep (hp : items.Pairwise (·.position < ·.position)) (hb : b₁ ≤ b₂) :
    keep b₁ (keep b₂ items) = keep b₁ items := by
  have hp' := hp.sublist (keep_sublist hp b₂)
  obtain ⟨k₁, h₁, hkeep₁⟩ := exists_shortest_keep hp b₁
  obtain ⟨k₂, h₂, hkeep₂⟩ := exists_shortest_keep hp b₂
  obtain ⟨k, h, hkeep⟩ := exists_shortest_keep hp' b₁
  have hle : k₂ ≤ k₁ := h₁.le_of_le h₂ hb
  rw [hkeep₂, removalOrder_without hp] at h hkeep
  obtain rfl : k = k₁ - k₂ := h.unique (h₁.rest hle)
  rw [hkeep₂, hkeep, hkeep₁, Item.without_without, Nat.add_sub_cancel' hle]

end Window

/-! ### Places do not matter -/

/-- The item at another place. -/
def Item.moved (f : Nat → Nat) (i : Item) : Item := { i with position := f i.position }

variable (f : Nat → Nat)

private theorem Item.cost_moved (items : List Item) : cost (items.map (moved f)) = cost items := by
  rw [cost, cost, List.map_map]
  rfl

namespace MessageUnit

private theorem group_moved (items : List Item) :
    group (items.map (Item.moved f)) = (group items).map (List.map (Item.moved f)) := by
  induction items using group.induct with
  | case1 => simp [group]
  | case2 first rest ih =>
    have hbelongs : belongs (first.moved f) ∘ Item.moved f = belongs first := rfl
    rw [List.map_cons, group, group, List.takeWhile_map, List.dropWhile_map, hbelongs, ih]
    rfl

private theorem cost_moved (units : List MessageUnit) : cost (units.map (List.map (Item.moved f))) = cost units := by
  rw [← cost_flatten, ← cost_flatten, ← List.map_flatten, Item.cost_moved]

private theorem shed_moved (budget others : Nat) (units : List MessageUnit) :
    shed budget others (units.map (List.map (Item.moved f))) =
      (shed budget others units).map (List.map (Item.moved f)) := by
  induction units with
  | nil => rfl
  | cons u us ih =>
    have hcost := cost_moved f (u :: us)
    rw [List.map_cons] at hcost ⊢
    rw [shed, shed, hcost, ih]
    split <;> rfl

end MessageUnit

private theorem splitAtLastUser_moved (items : List Item) :
    splitAtLastUser (items.map (Item.moved f)) =
      ((splitAtLastUser items).1.map (Item.moved f), (splitAtLastUser items).2.1.map (Item.moved f),
        (splitAtLastUser items).2.2.map (Item.moved f)) := by
  have hrole {after : List Item} (ha : ∀ i ∈ after, i.message.role ≠ .user) :
      ∀ i ∈ after.map (Item.moved f), i.message.role ≠ .user := by
    intro i hi
    obtain ⟨j, hj, rfl⟩ := List.mem_map.1 hi
    exact ha j hj
  rcases splitAtLastUser_cases items with ⟨before, current, after, rfl, hc, ha, hsplit⟩ | ⟨hnone, hsplit⟩
  · rw [hsplit, List.map_append, List.map_cons]
    exact splitAtLastUser_append hc (hrole ha)
  · rw [hsplit]
    exact splitAtLastUser_of_forall (hrole hnone)

private theorem Window.keep_moved (budget : Nat) (items : List Item) :
    keep budget (items.map (Item.moved f)) = (keep budget items).map (Item.moved f) := by
  unfold keep
  rw [splitAtLastUser_moved]
  generalize splitAtLastUser items = parts
  obtain ⟨before, current, after⟩ := parts
  have hcurrent : (current.map (Item.moved f)).toList = current.toList.map (Item.moved f) := by
    cases current <;> rfl
  simp only [hcurrent, MessageUnit.group_moved, MessageUnit.shed_moved, MessageUnit.cost_moved, Item.cost_moved,
    List.map_append, List.map_flatten]

/-- Where the message stands that has a place among some items. -/
def Item.placeAmong (items : List Item) (n : Nat) : Nat := (items[n]?.map (·.position)).getD 0

/-- Items are their messages by themselves, moved to their places. -/
private theorem Item.map_moved_ofMessages {items : List Item}
    (h : ∀ i ∈ items, i.tokens = Tokens.estimateMessage i.message) :
    (ofMessages (items.map (·.message))).map (moved (placeAmong items)) = items := by
  refine List.ext_getElem (by simp [ofMessages]) fun n hn hn' => ?_
  have htokens := h items[n] (List.getElem_mem hn')
  simp [ofMessages, moved, placeAmong, hn', ← htokens]

private theorem Item.getElem?_of_mem_ofMessages {items : List Item}
    (h : ∀ i ∈ items, i.tokens = Tokens.estimateMessage i.message) {i : Item}
    (hi : i ∈ ofMessages (items.map (·.message))) : items[i.position]? = some (i.moved (placeAmong items)) := by
  obtain ⟨n, hn, rfl⟩ := List.getElem_of_mem hi
  have hposition : (ofMessages (items.map (·.message)))[n].position = n := by simp [ofMessages]
  have hplaced := congrArg (·[n]?) (map_moved_ofMessages h)
  simp only [List.getElem?_map, List.getElem?_eq_getElem hn, Option.map_some] at hplaced
  rw [hposition, ← hplaced]

/-! ### Two windows -/

namespace Window

variable (w₁ w₂ : Window) (system : String) (ms : List Message)

/-- A tighter window beside a looser one. -/
structure Nests : Prop where
  /-- What the tighter one keeps, the looser one keeps, at the same places. -/
  kept : (w₁.trim system ms).kept.Sublist (w₂.trim system ms).kept
  /-- Of what the looser one keeps the tighter one keeps as much as of the whole conversation: the same messages, from
  the same places, at the same cost. -/
  places : (w₁.trim system (w₂.trim system ms).messages).kept.map (fun i => (w₂.trim system ms).kept[i.position]?) =
    (w₁.trim system ms).kept.map some
  messages : (w₁.trim system (w₂.trim system ms).messages).messages = (w₁.trim system ms).messages
  tokens : (w₁.trim system (w₂.trim system ms).messages).tokens = (w₁.trim system ms).tokens
  /-- What both drop one after the other is what the tighter one drops alone. -/
  dropped : (w₂.trim system ms).dropped + (w₁.trim system (w₂.trim system ms).messages).dropped =
    (w₁.trim system ms).dropped
  /-- Trimming again changes nothing. -/
  again : (w₁.trim system (w₁.trim system ms).messages).messages = (w₁.trim system ms).messages
  nothing : (w₁.trim system (w₁.trim system ms).messages).dropped = 0

variable {w₁ w₂ system}

private theorem tokens_of_mem_kept {i : Item} (hi : i ∈ (w₂.trim system ms).kept) :
    i.tokens = Tokens.estimateMessage i.message :=
  Item.tokens_of_mem_ofMessages ms ((keep_sublist (Item.pairwise_position ms) _).subset hi)

private theorem dropped_add_length (w : Window) (system : String) (ms : List Message) :
    (w.trim system ms).dropped + (w.trim system ms).messages.length = ms.length := by
  have hle := (keep_sublist (Item.pairwise_position ms) (w.budget system)).length_le
  have hdropped : (w.trim system ms).dropped = ms.length - (w.trim system ms).messages.length := by
    rw [Trimmed.messages, List.length_map]
    rfl
  rw [hdropped, Nat.sub_add_cancel]
  simpa [Item.ofMessages, trim, Trimmed.messages] using hle

/-- What is kept of what was kept is what is kept, but for the places. -/
private theorem kept_trim_trim (h : w₁.budget system ≤ w₂.budget system) :
    (w₁.trim system (w₂.trim system ms).messages).kept.map (Item.moved (Item.placeAmong (w₂.trim system ms).kept)) =
      (w₁.trim system ms).kept := by
  have hmoved := keep_moved (Item.placeAmong (w₂.trim system ms).kept) (w₁.budget system)
    (Item.ofMessages (w₂.trim system ms).messages)
  rw [Trimmed.messages, Item.map_moved_ofMessages fun i => tokens_of_mem_kept ms] at hmoved
  exact hmoved.symm.trans (keep_keep (Item.pairwise_position ms) h)

private theorem messages_trim_trim (h : w₁.budget system ≤ w₂.budget system) :
    (w₁.trim system (w₂.trim system ms).messages).messages = (w₁.trim system ms).messages := by
  have hkept := congrArg (List.map (·.message)) (kept_trim_trim ms h)
  rw [List.map_map] at hkept
  exact hkept

/-- For every conversation, well formed or not: what a tighter budget leaves is part of what a looser one leaves, and
can be had from that as well. -/
theorem trim_nests (h : w₁.budget system ≤ w₂.budget system) : Nests w₁ w₂ system ms where
  kept := by
    have hp := Item.pairwise_position ms
    have hkeep : (w₁.trim system ms).kept = keep (w₁.budget system) (w₂.trim system ms).kept := (keep_keep hp h).symm
    rw [hkeep]
    exact keep_sublist (hp.sublist (keep_sublist hp _)) _
  places := by
    rw [← kept_trim_trim ms h, List.map_map]
    refine List.map_congr_left fun i hi => ?_
    have hmem := (keep_sublist (Item.pairwise_position _) _).subset hi
    exact Item.getElem?_of_mem_ofMessages (fun i => tokens_of_mem_kept ms) hmem
  messages := messages_trim_trim ms h
  tokens := by
    rw [Trimmed.tokens, Trimmed.tokens, ← kept_trim_trim ms h, Item.cost_moved]
  dropped := by
    have hboth := dropped_add_length w₁ system (w₂.trim system ms).messages
    have hfirst := dropped_add_length w₂ system ms
    have halone := dropped_add_length w₁ system ms
    rw [messages_trim_trim ms h] at hboth
    omega
  again := messages_trim_trim ms (Nat.le_refl _)
  nothing := by
    have hboth := dropped_add_length w₁ system (w₁.trim system ms).messages
    rw [messages_trim_trim ms (Nat.le_refl _)] at hboth
    omega

/-- Two rounds, and two results that nobody asked for. -/
def strayConversation : List Message :=
  [.ofResult "z" "stray", .ofUser "hello", .ofCalls "" [⟨"a", "clock", ""⟩], .ofResult "a" "12:00", .ofResult "b" "stray",
    .ofAssistant "noon", .ofUser "and now?", .ofCalls "" [⟨"c", "clock", ""⟩], .ofResult "c" "12:01"]

theorem trim_nests_stray :
    (⟨30, 5⟩ : Window).budget "" ≤ (⟨55, 5⟩ : Window).budget "" ∧
      ((⟨30, 5⟩ : Window).trim "" strayConversation).kept.map (·.position) = [5, 6, 7, 8] ∧
      ((⟨55, 5⟩ : Window).trim "" strayConversation).kept.map (·.position) = [1, 2, 3, 4, 5, 6, 7, 8] ∧
      Nests ⟨30, 5⟩ ⟨55, 5⟩ "" strayConversation :=
  ⟨by decide +kernel, by decide +kernel, by decide +kernel, trim_nests strayConversation (by decide +kernel)⟩

end Window

end AgentLoop
