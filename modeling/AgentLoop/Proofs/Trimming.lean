import AgentLoop.Proofs.Pairing

/-!
# Trimming removes as little as it can

The units of a conversation are removed in a fixed order: those before the last user message and then those after it,
oldest first on both sides.  Trimming removes the shortest prefix of that order after which the rest fits into the
budget, or all of it if none will do.  A total that is kept by subtracting what is removed never runs below zero, and
ends as the estimate of what is kept.
-/

namespace AgentLoop

/-! ### The grouping -/

/-- An assistant message with tool calls and a tool message that carries the id of one of them. -/
structure Item.Answers (first next : Item) : Prop where
  assistant : first.message.role = .assistant
  tool : next.message.role = .tool
  requested : ∃ call ∈ first.message.calls, next.message.callId = some call.id

/-- Items cut into units from left to right: every unit is an item and the longest run of answers that directly follow
it. -/
inductive Grouping : List Item → List MessageUnit → Prop where
  | nil : Grouping [] []
  | cons {first : Item} {answers rest : List Item} {units : List MessageUnit} (ha : ∀ i ∈ answers, first.Answers i)
    (hr : ∀ i ∈ rest.head?, ¬ first.Answers i) (h : Grouping rest units) :
    Grouping (first :: (answers ++ rest)) ((first :: answers) :: units)

namespace MessageUnit

private theorem belongs_iff {first next : Item} : belongs first next = true ↔ first.Answers next := by
  simp only [belongs, Message.requestsTools, Message.answers, Bool.and_eq_true, beq_iff_eq, Bool.not_eq_true',
    List.isEmpty_eq_false_iff, Option.any_eq_true, List.any_eq_true]
  constructor
  · rintro ⟨⟨ha, -⟩, ht, id, hid, call, hc, hcall⟩
    exact ⟨ha, ht, call, hc, by rw [hid, hcall]⟩
  · rintro ⟨ha, ht, call, hc, hid⟩
    exact ⟨⟨ha, List.ne_nil_of_mem hc⟩, ht, call.id, hid, call, hc, rfl⟩

private theorem grouping_group (items : List Item) : Grouping items (group items) := by
  induction items using group.induct with
  | case1 =>
    rw [group]
    exact .nil
  | case2 first rest ih =>
    rw [group]
    have hsplit : first :: rest = first :: (rest.takeWhile (belongs first) ++ rest.dropWhile (belongs first)) := by
      rw [List.takeWhile_append_dropWhile]
    rw [hsplit]
    refine .cons (fun i hi => ?_) (fun i hi => ?_) ih
    · exact belongs_iff.1 (List.all_eq_true.1 List.all_takeWhile i hi)
    · have hhead := List.head?_dropWhile_not (belongs first) rest
      rw [Option.mem_def.1 hi] at hhead
      rw [← belongs_iff]
      simpa using hhead

private theorem ne_nil_of_mem_group {items : List Item} {u : MessageUnit} (h : u ∈ group items) : u ≠ [] := by
  induction items using group.induct with
  | case1 => simp [group] at h
  | case2 first rest ih =>
    rw [group] at h
    rcases List.mem_cons.1 h with rfl | h
    · exact List.cons_ne_nil _ _
    · exact ih h

/-- What belongs to nothing begins a unit of its own. -/
private theorem group_append {next : Item} (hn : ∀ first, belongs first next = false) (xs ys : List Item) :
    group (xs ++ next :: ys) = group xs ++ group (next :: ys) := by
  induction xs using group.induct with
  | case1 => simp [group]
  | case2 first rest ih =>
    rw [List.cons_append, group, group, List.cons_append, ← ih]
    have htake : (rest ++ next :: ys).takeWhile (belongs first) = rest.takeWhile (belongs first) := by
      rw [List.takeWhile_append]
      split
      · rename_i hall
        rw [List.takeWhile_cons_of_neg (by simp [hn]), List.append_nil]
        exact ((List.takeWhile_prefix (belongs first)).eq_of_length hall).symm
      · rfl
    have hdrop : (rest ++ next :: ys).dropWhile (belongs first) = rest.dropWhile (belongs first) ++ next :: ys := by
      rw [List.dropWhile_append]
      split
      · rename_i hnone
        rw [List.dropWhile_cons_of_neg (by simp [hn]), List.isEmpty_iff.1 hnone, List.nil_append]
      · rfl
    rw [htake, hdrop]

/-- A message of the user stands alone. -/
private theorem group_user {current : Item} (hc : current.message.role = .user) (before after : List Item) :
    group (before ++ current :: after) = group before ++ [current] :: group after := by
  have hown (i : Item) : belongs current i = false := by simp [belongs, Message.requestsTools, hc]
  rw [group_append fun first => belongs_eq_false_of_ne_tool (by simp [hc]), group]
  cases after with
  | nil => simp
  | cons i after => rw [List.takeWhile_cons_of_neg (by simp [hown]), List.dropWhile_cons_of_neg (by simp [hown])]

end MessageUnit

/-! ### The order of removal -/

/-- Where the last user message stands. -/
def lastUser? (items : List Item) : Option Nat :=
  (items.filter (·.message.role == .user)).getLast?.map (·.position)

/-- The units in the order in which they may be removed. -/
def removalOrder (items : List Item) : List MessageUnit :=
  let units := MessageUnit.group items
  match lastUser? items with
  | none => units
  | some anchor =>
    units.filter (fun u => u.all (·.position < anchor)) ++ units.filter (fun u => u.all (anchor < ·.position))

/-- The items without those of some units. -/
def Item.without (items : List Item) (units : List MessageUnit) : List Item :=
  items.filter fun i => i ∉ units.flatten

/-- Removes one unit after the other until the total fits, and keeps the total by subtraction.  Comes to the number of
units removed and the total, or to nothing if there is less to subtract from than to subtract. -/
def strike? (budget : Nat) : Nat → List MessageUnit → Option (Nat × Nat)
  | total, [] => some (0, total)
  | total, u :: us =>
    if total ≤ budget then some (0, total)
    else if total < Item.cost u then none
    else (strike? budget (total - Item.cost u) us).map fun (n, rest) => (n + 1, rest)

/-- These many units of an order have to go: then the rest fits or nothing is left to remove, and with fewer of them it
does not fit. -/
structure Shortest (budget : Nat) (items : List Item) (order : List MessageUnit) (k : Nat) : Prop where
  le : k ≤ order.length
  enough : Item.cost (Item.without items (order.take k)) ≤ budget ∨ k = order.length
  needed (j : Nat) (hj : j < k) : budget < Item.cost (Item.without items (order.take j))

namespace MessageUnit

private theorem cost_cons (u : MessageUnit) (us : List MessageUnit) : cost (u :: us) = Item.cost u + cost us := rfl

private theorem cost_take_drop (us : List MessageUnit) (k : Nat) : cost (us.take k) + cost (us.drop k) = cost us := by
  rw [← cost_flatten, ← cost_flatten, ← Item.cost_append, ← List.flatten_append, List.take_append_drop, cost_flatten]

/-- Shedding drops as few units as will do. -/
private theorem exists_shed_eq_drop (budget others : Nat) (us : List MessageUnit) :
    ∃ j ≤ us.length, shed budget others us = us.drop j ∧ (cost (us.drop j) + others ≤ budget ∨ j = us.length) ∧
      ∀ i < j, budget < cost (us.drop i) + others := by
  induction us with
  | nil => exact ⟨0, Nat.le_refl _, rfl, .inr rfl, fun i hi => absurd hi (Nat.not_lt_zero i)⟩
  | cons u us ih =>
    unfold shed
    split
    · exact ⟨0, Nat.zero_le _, rfl, .inl ‹_›, fun i hi => absurd hi (Nat.not_lt_zero i)⟩
    · rename_i hover
      obtain ⟨j, hle, hdrop, henough, hneeded⟩ := ih
      refine ⟨j + 1, Nat.succ_le_succ hle, hdrop, henough.imp_right (congrArg _), fun i hi => ?_⟩
      cases i with
      | zero => exact Nat.not_le.1 hover
      | succ i => exact hneeded i (Nat.lt_of_succ_lt_succ hi)

end MessageUnit

/-- The running total never runs out, and ends where the shortest prefix is removed. -/
private theorem strike?_eq {budget total k : Nat} {order : List MessageUnit} (hk : k ≤ order.length)
    (htotal : MessageUnit.cost order ≤ total)
    (henough : total - MessageUnit.cost (order.take k) ≤ budget ∨ k = order.length)
    (hneeded : ∀ j < k, budget < total - MessageUnit.cost (order.take j)) :
    strike? budget total order = some (k, total - MessageUnit.cost (order.take k)) := by
  induction order generalizing total k with
  | nil =>
    obtain rfl : k = 0 := Nat.le_zero.1 hk
    rfl
  | cons u us ih =>
    rw [MessageUnit.cost_cons] at htotal
    cases k with
    | zero =>
      have hfits : total ≤ budget := henough.elim id fun h => nomatch h
      exact if_pos hfits
    | succ k =>
      have hover : budget < total := hneeded 0 (Nat.zero_lt_succ k)
      have hrest (j : Nat) : total - MessageUnit.cost ((u :: us).take (j + 1)) =
          total - Item.cost u - MessageUnit.cost (us.take j) := by
        rw [List.take_succ_cons, MessageUnit.cost_cons, Nat.sub_add_eq]
      rw [strike?, if_neg (Nat.not_le.2 hover), if_neg (by omega), ih (k := k) (Nat.le_of_succ_le_succ hk) (by omega)]
      · rw [hrest]
        rfl
      · exact henough.imp (fun h => hrest k ▸ h) Nat.succ.inj
      · exact fun j hj => hrest j ▸ hneeded (j + 1) (Nat.succ_lt_succ hj)

/-! ### What is left after a prefix -/

namespace Item

theorem pairwise_position (ms : List Message) : (ofMessages ms).Pairwise (·.position < ·.position) := by
  have hpositions : (ofMessages ms).map (·.position) = List.range ms.length := by
    simp [ofMessages, Function.comp_def, List.range_eq_range']
  exact List.pairwise_map.1 (hpositions ▸ List.pairwise_lt_range)

theorem nodup_of_pairwise {items : List Item} (h : items.Pairwise (·.position < ·.position)) : items.Nodup :=
  h.imp fun hab heq => absurd (congrArg position heq) (Nat.ne_of_lt hab)

private theorem exists_user {ms : List Message} {m : Message} (hm : m ∈ ms) (hu : m.role = .user) :
    ∃ i ∈ ofMessages ms, i.message.role = .user := by
  rw [← map_message_ofMessages ms] at hm
  obtain ⟨i, hi, rfl⟩ := List.mem_map.1 hm
  exact ⟨i, hi, hu⟩

/-- A prefix of the units before some items and of those after them is removed from both sides. -/
private theorem without_take {us vs : List MessageUnit} {middle : List Item}
    (hn : (us.flatten ++ middle ++ vs.flatten).Nodup) (k : Nat) :
    without (us.flatten ++ middle ++ vs.flatten) ((us ++ vs).take k) =
      (us.drop k).flatten ++ middle ++ (vs.drop (k - us.length)).flatten := by
  have hus : us.flatten = (us.take k).flatten ++ (us.drop k).flatten := by
    rw [← List.flatten_append, List.take_append_drop]
  have hvs : vs.flatten = (vs.take (k - us.length)).flatten ++ (vs.drop (k - us.length)).flatten := by
    rw [← List.flatten_append, List.take_append_drop]
  rw [without, List.take_append, List.flatten_append, hus, hvs]
  rw [hus, hvs] at hn
  generalize (us.take k).flatten = a, (us.drop k).flatten = b, (vs.take (k - us.length)).flatten = c,
    (vs.drop (k - us.length)).flatten = d at hn
  have gone (xs : List Item) (h : ∀ i ∈ xs, i ∈ a ++ c) : xs.filter (· ∉ a ++ c) = [] :=
    List.filter_eq_nil_iff.2 fun i hi => by simpa [Decidable.or_iff_not_imp_left] using h i hi
  have stays (xs : List Item) (h : ∀ i ∈ xs, i ∉ a ++ c) : xs.filter (· ∉ a ++ c) = xs :=
    List.filter_eq_self.2 fun i hi => by simpa using h i hi
  simp only [List.nodup_append, List.mem_append] at hn
  simp only [List.filter_append]
  rw [gone a (by grind), stays b (by grind), stays middle (by grind), gone c (by grind), stays d (by grind),
    List.nil_append, List.nil_append]

end Item

/-! ### The last user message -/

/-- The parts around the last user message are the whole conversation.  Without a user message there is nothing but the
last part. -/
theorem splitAtLastUser_cases (items : List Item) :
    (∃ before current after, items = before ++ current :: after ∧ current.message.role = .user ∧
      (∀ i ∈ after, i.message.role ≠ .user) ∧ splitAtLastUser items = (before, some current, after)) ∨
    (∀ i ∈ items, i.message.role ≠ .user) ∧ splitAtLastUser items = ([], none, items) := by
  by_cases hu : ∃ i ∈ items, i.message.role = .user
  · left
    obtain ⟨user, hmem, hrole⟩ := hu
    have hfind : (items.reverse.find? fun i => i.message.role == .user).isSome := by
      rw [List.find?_isSome]
      exact ⟨user, List.mem_reverse.2 hmem, by simp [hrole]⟩
    obtain ⟨current, hcurrent⟩ := Option.isSome_iff_exists.1 hfind
    obtain ⟨hrole, later, earlier, hsplit, hlater⟩ := List.find?_eq_some_iff_append.1 hcurrent
    have hc : current.message.role = .user := by simpa using hrole
    have ha : ∀ i ∈ later.reverse, i.message.role ≠ .user := fun i hi => by
      simpa using hlater i (List.mem_reverse.1 hi)
    have hitems : items = earlier.reverse ++ current :: later.reverse := by
      rw [← List.reverse_reverse items, hsplit]
      simp
    exact ⟨_, _, _, hitems, hc, ha, hitems ▸ splitAtLastUser_append hc ha⟩
  · right
    have hne (i : Item) (hi : i ∈ items) : i.message.role ≠ .user := fun h => hu ⟨i, hi, h⟩
    have hrev : ∀ i ∈ items.reverse, (!(i.message.role == .user)) = true := fun i hi => by
      simpa using hne i (List.mem_reverse.1 hi)
    refine ⟨hne, ?_⟩
    unfold splitAtLastUser
    dsimp only
    rw [← List.append_nil items.reverse, List.dropWhile_append_of_pos hrev, List.takeWhile_append_of_pos hrev]
    simp

/-- The units that stand before an item. -/
private theorem filter_units {before after : List Item} {current : Item} (hc : current.message.role = .user)
    (hp : (before ++ current :: after).Pairwise (·.position < ·.position)) :
    ((MessageUnit.group (before ++ current :: after)).filter fun u => u.all (·.position < current.position)) =
        MessageUnit.group before ∧
      ((MessageUnit.group (before ++ current :: after)).filter fun u => u.all (current.position < ·.position)) =
        MessageUnit.group after := by
  obtain ⟨-, hafter, hbefore⟩ := List.pairwise_append.1 hp
  have hearlier {u : MessageUnit} (hu : u ∈ MessageUnit.group before) (i : Item) (hi : i ∈ u) :
      i.position < current.position :=
    hbefore i (MessageUnit.flatten_group before ▸ List.mem_flatten_of_mem hu hi) current (List.mem_cons_self ..)
  have hlater {u : MessageUnit} (hu : u ∈ MessageUnit.group after) (i : Item) (hi : i ∈ u) :
      current.position < i.position :=
    List.rel_of_pairwise_cons hafter (MessageUnit.flatten_group after ▸ List.mem_flatten_of_mem hu hi)
  have none_left {us : List MessageUnit} {p : Item → Bool} (h : ∀ u ∈ us, ∃ i ∈ u, p i = false) :
      us.filter (fun u => u.all p) = [] :=
    List.filter_eq_nil_iff.2 fun u hu => by simpa using h u hu
  have all_left {us : List MessageUnit} {p : Item → Bool} (h : ∀ u ∈ us, ∀ i ∈ u, p i = true) :
      us.filter (fun u => u.all p) = us :=
    List.filter_eq_self.2 fun u hu => List.all_eq_true.2 (h u hu)
  have member {items : List Item} {u : MessageUnit} (hu : u ∈ MessageUnit.group items) : ∃ i, i ∈ u :=
    List.exists_mem_of_ne_nil u (MessageUnit.ne_nil_of_mem_group hu)
  rw [MessageUnit.group_user hc, List.filter_append, List.filter_append]
  constructor
  · rw [all_left fun u hu i hi => by simpa using hearlier hu i hi, none_left, List.append_nil]
    intro u hu
    rcases List.mem_cons.1 hu with rfl | hu
    · exact ⟨current, List.mem_singleton.2 rfl, by simp⟩
    · obtain ⟨i, hi⟩ := member hu
      exact ⟨i, hi, by simpa using Nat.le_of_lt (hlater hu i hi)⟩
  · rw [none_left, List.nil_append, List.filter_cons_of_neg (by simp),
      all_left fun u hu i hi => by simpa using hlater hu i hi]
    intro u hu
    obtain ⟨i, hi⟩ := member hu
    exact ⟨i, hi, by simpa using Nat.le_of_lt (hearlier hu i hi)⟩

/-- A conversation around its last user message, if it has one. -/
structure Parted (items before : List Item) (current : Option Item) (after : List Item) : Prop where
  split : splitAtLastUser items = (before, current, after)
  whole : items = before ++ current.toList ++ after
  last : lastUser? items = current.map (·.position)
  order : removalOrder items = MessageUnit.group before ++ MessageUnit.group after
  user : (∃ i ∈ items, i.message.role = .user) → ∃ user, current = some user ∧ user.message.role = .user

theorem exists_parted {items : List Item} (hp : items.Pairwise (·.position < ·.position)) :
    ∃ before current after, Parted items before current after := by
  rcases splitAtLastUser_cases items with ⟨before, current, after, rfl, hc, ha, hsplit⟩ | ⟨hnone, hsplit⟩
  · have hlast : lastUser? (before ++ current :: after) = some current.position := by
      have hrest : after.filter (·.message.role == .user) = [] :=
        List.filter_eq_nil_iff.2 fun i hi => by simpa using ha i hi
      simp [lastUser?, List.filter_append, hc, hrest]
    obtain ⟨holder, hnewer⟩ := filter_units hc hp
    refine ⟨before, some current, after, hsplit, by simp, hlast, ?_, fun _ => ⟨current, rfl, hc⟩⟩
    simp only [removalOrder, hlast, holder, hnewer]
  · have hlast : lastUser? items = none := by
      have hrest : items.filter (·.message.role == .user) = [] :=
        List.filter_eq_nil_iff.2 fun i hi => by simpa using hnone i hi
      simp [lastUser?, hrest]
    refine ⟨[], none, items, hsplit, by simp, hlast, ?_, fun ⟨i, hi, hu⟩ => absurd hu (hnone i hi)⟩
    simp only [removalOrder, hlast, MessageUnit.group, List.nil_append]

/-! ### Trimming -/

namespace Parted

variable {items before after : List Item} {current : Option Item}

theorem without (h : Parted items before current after) (hn : items.Nodup) (k : Nat) :
    Item.without items ((removalOrder items).take k) = ((MessageUnit.group before).drop k).flatten ++ current.toList ++
      ((MessageUnit.group after).drop (k - (MessageUnit.group before).length)).flatten := by
  have hitems : items = (MessageUnit.group before).flatten ++ current.toList ++ (MessageUnit.group after).flatten := by
    rw [MessageUnit.flatten_group, MessageUnit.flatten_group]
    exact h.whole
  rw [h.order]
  rw [hitems] at hn ⊢
  exact Item.without_take hn k

private theorem cost_without (h : Parted items before current after) (hn : items.Nodup) (k : Nat) :
    Item.cost (Item.without items ((removalOrder items).take k)) =
      MessageUnit.cost ((MessageUnit.group before).drop k) + Item.cost current.toList +
        MessageUnit.cost ((MessageUnit.group after).drop (k - (MessageUnit.group before).length)) := by
  rw [h.without hn, Item.cost_append, Item.cost_append, MessageUnit.cost_flatten, MessageUnit.cost_flatten]

/-- What goes and what stays is all there is. -/
private theorem cost_take_add_without (h : Parted items before current after) (hn : items.Nodup) (k : Nat) :
    MessageUnit.cost ((removalOrder items).take k) + Item.cost (Item.without items ((removalOrder items).take k)) =
      Item.cost items := by
  have hall : Item.cost items = MessageUnit.cost (MessageUnit.group before) + Item.cost current.toList +
      MessageUnit.cost (MessageUnit.group after) := by
    conv => lhs; rw [h.whole]
    rw [Item.cost_append, Item.cost_append, ← MessageUnit.cost_flatten, ← MessageUnit.cost_flatten,
      MessageUnit.flatten_group, MessageUnit.flatten_group]
  have hbefore := MessageUnit.cost_take_drop (MessageUnit.group before) k
  have hafter := MessageUnit.cost_take_drop (MessageUnit.group after) (k - (MessageUnit.group before).length)
  rw [h.cost_without hn, h.order, List.take_append, ← MessageUnit.cost_flatten, List.flatten_append, Item.cost_append,
    MessageUnit.cost_flatten, MessageUnit.cost_flatten]
  omega

private theorem cost_order_le (h : Parted items before current after) (hn : items.Nodup) :
    MessageUnit.cost (removalOrder items) ≤ Item.cost items := by
  have := h.cost_take_add_without hn (removalOrder items).length
  rw [List.take_length] at this
  omega

/-- Nothing but the last user message cannot be removed. -/
private theorem without_all (h : Parted items before current after) (hn : items.Nodup) :
    Item.without items ((removalOrder items).take (removalOrder items).length) = current.toList := by
  rw [h.without hn, h.order, List.length_append, Nat.add_sub_cancel_left, List.drop_length,
    List.drop_eq_nil_of_le (Nat.le_add_right ..)]
  simp

/-- First the units before the last user message are shed, and those after it only if that is not enough. -/
theorem exists_shortest (h : Parted items before current after) (hn : items.Nodup) (budget : Nat) :
    ∃ k, Shortest budget items (removalOrder items) k ∧
      Window.keep budget items = Item.without items ((removalOrder items).take k) := by
  have hcost := h.cost_without hn
  have hwithout := h.without hn
  have hlength : (removalOrder items).length =
      (MessageUnit.group before).length + (MessageUnit.group after).length := by
    rw [h.order, List.length_append]
  have hkeep : Window.keep budget items =
      let older := MessageUnit.shed budget (Item.cost current.toList + MessageUnit.cost (MessageUnit.group after))
        (MessageUnit.group before)
      let newer := MessageUnit.shed budget (Item.cost current.toList + MessageUnit.cost older) (MessageUnit.group after)
      older.flatten ++ current.toList ++ newer.flatten := by
    unfold Window.keep
    rw [h.split]
  generalize MessageUnit.group before = us at hcost hwithout hlength hkeep
  generalize MessageUnit.group after = vs at hcost hwithout hlength hkeep
  obtain ⟨j, hj, hdrop, henough, hneeded⟩ :=
    MessageUnit.exists_shed_eq_drop budget (Item.cost current.toList + MessageUnit.cost vs) us
  rw [hdrop] at hkeep
  -- as long as something is left before the last user message, nothing after it is touched
  have hearly {i : Nat} (hi : i ≤ us.length) : vs.drop (i - us.length) = vs := by
    rw [Nat.sub_eq_zero_of_le hi, List.drop_zero]
  have hover (i : Nat) (hi : i < j) : budget < Item.cost (Item.without items ((removalOrder items).take i)) := by
    rw [hcost, hearly (by omega)]
    have := hneeded i hi
    omega
  by_cases hfits : MessageUnit.cost (us.drop j) + (Item.cost current.toList + MessageUnit.cost vs) ≤ budget
  · refine ⟨j, ⟨by omega, .inl ?_, hover⟩, ?_⟩
    · rw [hcost, hearly hj]
      omega
    · rw [hkeep, hwithout, hearly hj]
      dsimp only
      rw [MessageUnit.shed_of_fits (by omega)]
  · obtain rfl : j = us.length := henough.resolve_left hfits
    have hnone (i : Nat) : us.drop (us.length + i) = [] := List.drop_eq_nil_of_le (Nat.le_add_right ..)
    obtain ⟨i, hi, hdrop', henough', hneeded'⟩ :=
      MessageUnit.exists_shed_eq_drop budget (Item.cost current.toList + MessageUnit.cost (us.drop us.length)) vs
    have hlate (n : Nat) : Item.cost (Item.without items ((removalOrder items).take (us.length + n))) =
        MessageUnit.cost (vs.drop n) + (Item.cost current.toList + MessageUnit.cost (us.drop us.length)) := by
      rw [hcost, hnone, Nat.add_sub_cancel_left, List.drop_length]
      omega
    refine ⟨us.length + i, ⟨by omega, ?_, fun n hn => ?_⟩, ?_⟩
    · rw [hlate, hlength]
      exact henough'.imp_right (congrArg _)
    · by_cases hlt : n < us.length
      · exact hover n hlt
      · obtain ⟨m, rfl⟩ := Nat.exists_eq_add_of_le (Nat.not_lt.1 hlt)
        rw [hlate]
        exact hneeded' m (Nat.lt_of_add_lt_add_left hn)
    · rw [hkeep, hwithout, hnone, Nat.add_sub_cancel_left]
      dsimp only
      rw [hdrop', List.drop_length]

end Parted

namespace Window

variable (w : Window) (system : String) (ms : List Message)

/-- What trimming does to a conversation. -/
structure Trims : Prop where
  budget : (w.trim system ms).budget = w.maxContext - Tokens.estimate system - w.maxOutput
  /-- The messages are removed by units, -/
  grouping : Grouping (Item.ofMessages ms) (MessageUnit.group (Item.ofMessages ms))
  /-- as few as will do, from the front of the order of removal, and the running total does not go below zero. -/
  shortest : ∃ k, Shortest (w.trim system ms).budget (Item.ofMessages ms) (removalOrder (Item.ofMessages ms)) k ∧
    (w.trim system ms).kept = Item.without (Item.ofMessages ms) ((removalOrder (Item.ofMessages ms)).take k) ∧
    strike? (w.trim system ms).budget (Tokens.estimateMessages ms) (removalOrder (Item.ofMessages ms)) =
      some (k, (w.trim system ms).tokens)
  tokens : (w.trim system ms).tokens = Tokens.estimateMessages (w.trim system ms).messages
  dropped : (w.trim system ms).dropped + (w.trim system ms).messages.length = ms.length
  /-- Only a message of the user can be too large in the end, and then nothing else is left. -/
  alone (hu : ∃ m ∈ ms, m.role = .user) (ho : (w.trim system ms).fits = false) :
    ∃ user ∈ Item.ofMessages ms, lastUser? (Item.ofMessages ms) = some user.position ∧ (w.trim system ms).kept = [user]

/-- For every conversation, well formed or not: trimming removes the shortest prefix of the order of removal after
which the rest fits, or all of it. -/
theorem trim_removesShortest : w.Trims system ms := by
  have hp := Item.pairwise_position ms
  have hn := Item.nodup_of_pairwise hp
  obtain ⟨before, current, after, h⟩ := exists_parted hp
  obtain ⟨k, hk, hkeep⟩ := h.exists_shortest hn (w.budget system)
  have hkept : (w.trim system ms).kept =
      Item.without (Item.ofMessages ms) ((removalOrder (Item.ofMessages ms)).take k) := hkeep
  have hestimate : Item.cost (Item.ofMessages ms) = Tokens.estimateMessages ms := by
    rw [Item.cost_eq_estimateMessages fun i => Item.tokens_of_mem_ofMessages ms, Item.map_message_ofMessages]
  have hleft (j : Nat) :
      Tokens.estimateMessages ms - MessageUnit.cost ((removalOrder (Item.ofMessages ms)).take j) =
        Item.cost (Item.without (Item.ofMessages ms) ((removalOrder (Item.ofMessages ms)).take j)) := by
    rw [← hestimate, ← h.cost_take_add_without hn j, Nat.add_sub_cancel_left]
  have hsublist : ((w.trim system ms).kept).Sublist (Item.ofMessages ms) := hkept ▸ List.filter_sublist
  have hlength : (w.trim system ms).messages.length ≤ ms.length := by
    have := hsublist.length_le
    simpa [Trimmed.messages, Item.ofMessages] using this
  constructor
  case budget => rfl
  case grouping => exact MessageUnit.grouping_group _
  case shortest =>
    refine ⟨k, hk, hkept, ?_⟩
    have hstrike := strike?_eq hk.le (hestimate ▸ h.cost_order_le hn) (hk.enough.imp_left fun h => hleft k ▸ h)
      fun j hj => hleft j ▸ hk.needed j hj
    rw [hleft, ← hkept] at hstrike
    exact hstrike
  case tokens =>
    exact Item.cost_eq_estimateMessages fun i hi => Item.tokens_of_mem_ofMessages ms (hsublist.subset hi)
  case dropped =>
    have hcount : (w.trim system ms).dropped = ms.length - (w.trim system ms).messages.length := by
      simp [trim, Trimmed.messages]
    rw [hcount, Nat.sub_add_cancel hlength]
  case alone =>
    rintro ⟨m, hm, hrole⟩ ho
    have hover : ¬ Item.cost (w.trim system ms).kept ≤ w.budget system := of_decide_eq_false ho
    obtain ⟨user, rfl, -⟩ := h.user (Item.exists_user hm hrole)
    have hall : k = (removalOrder (Item.ofMessages ms)).length :=
      hk.enough.resolve_left fun hfits => hover (hkept ▸ hfits)
    have honly : (w.trim system ms).kept = [user] := hkept.trans (hall ▸ h.without_all hn)
    exact ⟨user, hsublist.subset (honly ▸ List.mem_singleton.2 rfl), h.last, honly⟩

end Window

end AgentLoop
