import AgentLoop.Proofs.Offers
import AgentLoop.Serial.Form
import Mathlib.Data.List.Forall2

/-!
# Copies of trees

What comes back when a tree is printed and read, or kept as a value, need not be the same tree: the fields of an object
may be in another order, and there is only one width of numbers.  Values lose nothing in a copy, since the order of
their fields is restored, and of a record a copy shows the same fields.
-/

namespace AgentLoop

namespace Json

mutual

/-- A tree and what it may have become: the fields of objects in any order, and numbers of single precision in double
precision, as long as they are still rounded to the same. -/
inductive CopiedAs : Json → Json → Prop
  | same (t : Json) : CopiedAs t t
  | single {x y : Floating} (h : y.convert .single = x) : CopiedAs (.number (.single x)) (.number (.double y))
  | array {items items' : List Json} (h : List.Forall₂ CopiedAs items items') :
    CopiedAs (.array items) (.array items')
  | object {fields ordered fields' : List (String × Json)} (h : List.Forall₂ FieldCopiedAs fields ordered)
    (hperm : ordered.Perm fields') : CopiedAs (.object fields) (.object fields')

/-- The same name and a copy of the value. -/
inductive FieldCopiedAs : String × Json → String × Json → Prop
  | field (name : String) {value value' : Json} (h : CopiedAs value value') :
    FieldCopiedAs (name, value) (name, value')

end

theorem CopiedAs.exists_items {items : List Json} {j : Json} (h : (Json.array items).CopiedAs j) :
    ∃ items', j = Json.array items' ∧ List.Forall₂ CopiedAs items items' := by
  cases h with
  | same => exact ⟨items, rfl, List.forall₂_same.2 fun item _ => .same item⟩
  | array h => exact ⟨_, rfl, h⟩

theorem CopiedAs.exists_fields {fields : List (String × Json)} {j : Json} (h : (Json.object fields).CopiedAs j) :
    ∃ ordered fields', j = Json.object fields' ∧ List.Forall₂ FieldCopiedAs fields ordered ∧ ordered.Perm fields' := by
  cases h with
  | same => exact ⟨fields, fields, rfl, List.forall₂_same.2 fun entry _ => .field entry.1 (.same entry.2), .refl _⟩
  | object h hperm => exact ⟨_, _, rfl, h, hperm⟩

/-! ### Values -/

mutual

/-- A value: nothing in it is flawed, the fields of objects are in the order of their names, each name once, and numbers
have one width. -/
def IsValue : Json → Prop
  | array items => AreValues items
  | object fields => (fields.Pairwise fun a b => a.1 < b.1) ∧ AreFieldValues fields
  | number (.single _) | flawed => False
  | _ => True

def AreValues : List Json → Prop
  | [] => True
  | item :: rest => IsValue item ∧ AreValues rest

def AreFieldValues : List (String × Json) → Prop
  | [] => True
  | (_, value) :: rest => IsValue value ∧ AreFieldValues rest

end

private theorem canonicalFields_eq (fields : List (String × Json)) :
    canonicalFields fields = fields.map fun entry => (entry.1, entry.2.canonical) := by
  induction fields with
  | nil => rfl
  | cons entry rest ih => rw [canonicalFields, ih, List.map_cons]

theorem areSoundFields_eq (fields : List (String × Json)) :
    areSoundFields fields = fields.all fun entry => entry.2.isSound := by
  induction fields with
  | nil => rfl
  | cons entry rest ih => rw [areSoundFields, ih, List.all_cons]

private theorem insertField_perm {α : Type} {name : String} {value : α} {fields : List (String × α)}
    (h : name ∉ fields.map (·.1)) : (insertField name value fields).Perm ((name, value) :: fields) := by
  induction fields with
  | nil => exact .refl _
  | cons first rest ih =>
    obtain ⟨n, v⟩ := first
    rw [List.map_cons, List.mem_cons, not_or] at h
    unfold insertField
    split_ifs with hlt heq
    · exact .refl _
    · exact absurd heq h.1
    · exact ((ih h.2).cons (n, v)).trans (.swap ..)

/-- Fields with different names are only put in order. -/
private theorem sortFields_perm {α : Type} {fields : List (String × α)} (h : (fields.map (·.1)).Nodup) :
    (sortFields fields).Perm fields := by
  induction fields using List.reverseRecOn with
  | nil => exact .refl _
  | append_singleton fields entry ih =>
    rw [List.map_append, List.map_singleton, List.nodup_append] at h
    obtain ⟨hfields, -, hdisjoint⟩ := h
    have habsent : entry.1 ∉ (sortFields fields).map (·.1) := fun hmem =>
      hdisjoint entry.1 (((ih hfields).map _).mem_iff.1 hmem) entry.1 (List.mem_singleton_self _) rfl
    have hlast : sortFields (fields ++ [entry]) = insertField entry.1 entry.2 (sortFields fields) := by
      rw [sortFields, List.foldl_append, List.foldl_cons, List.foldl_nil, ← sortFields]
    rw [hlast]
    exact (insertField_perm habsent).trans (((ih hfields).cons entry).trans (List.perm_append_singleton entry fields).symm)

private theorem sorted_sortFields {α : Type} (fields : List (String × α)) :
    (sortFields fields).Pairwise fun a b => a.1 < b.1 := by
  induction fields using List.reverseRecOn with
  | nil => exact .nil
  | append_singleton fields entry ih =>
    rw [sortFields, List.foldl_append, List.foldl_cons, List.foldl_nil, ← sortFields]
    exact sorted_insertField ih

/-- Whatever order fields are in, there is only one in which they are sorted. -/
private theorem sortFields_eq_of_perm {α : Type} {fields sorted : List (String × α)} (hperm : sorted.Perm fields)
    (hsorted : sorted.Pairwise fun a b => a.1 < b.1) : sortFields fields = sorted := by
  have hne {a b : String × α} (hlt : a.1 < b.1) : a.1 ≠ b.1 := fun heq => String.lt_irrefl _ (heq ▸ hlt)
  have hnodup : (sorted.map (·.1)).Nodup := List.pairwise_map.2 (hsorted.imp hne)
  have hsame := (sortFields_perm ((hperm.map _).nodup_iff.1 hnodup)).trans hperm.symm
  refine hsame.eq_of_pairwise (fun a b _ _ hab hba => ?_) (sorted_sortFields fields) hsorted
  exact absurd hba (String.lt_asymm hab)

mutual

/-- In a copy of a value the order of the fields can be restored. -/
theorem IsValue.restored : ∀ {t j : Json}, t.IsValue → t.CopiedAs j → j.isSound = true ∧ j.canonical = t
  | .null, _, _, h | .bool _, _, _, h | .string _, _, _, h | .number (.integer _), _, _, h
  | .number (.double _), _, _, h => by
    cases h
    exact ⟨rfl, rfl⟩
  | .array items, _, ht, h => by
    obtain ⟨items', rfl, hitems⟩ := h.exists_items
    obtain ⟨hsound, hcanonical⟩ := AreValues.restored ht hitems
    exact ⟨hsound, by rw [canonical, hcanonical]⟩
  | .object fields, _, ht, h => by
    obtain ⟨ordered, fields', rfl, hfields, hperm⟩ := h.exists_fields
    obtain ⟨hsound, hcanonical⟩ := AreFieldValues.restored ht.2 hfields
    rw [areSoundFields_eq] at hsound
    rw [canonicalFields_eq] at hcanonical
    have hsorted := sortFields_eq_of_perm (hcanonical ▸ hperm.map _) ht.1
    exact ⟨by rw [isSound, areSoundFields_eq, ← hperm.all_eq, hsound], by rw [canonical, canonicalFields_eq, hsorted]⟩

theorem AreValues.restored : ∀ {items items' : List Json}, AreValues items → List.Forall₂ CopiedAs items items' →
    areSound items' = true ∧ canonicalItems items' = items
  | [], _, _, .nil => ⟨rfl, rfl⟩
  | item :: rest, _, ht, .cons hitem hrest => by
    obtain ⟨hsound, hcanonical⟩ := IsValue.restored ht.1 hitem
    obtain ⟨hsounds, hcanonicals⟩ := AreValues.restored ht.2 hrest
    exact ⟨by rw [areSound, hsound, hsounds, Bool.and_self], by rw [canonicalItems, hcanonical, hcanonicals]⟩

theorem AreFieldValues.restored : ∀ {fields fields' : List (String × Json)}, AreFieldValues fields →
    List.Forall₂ FieldCopiedAs fields fields' → areSoundFields fields' = true ∧ canonicalFields fields' = fields
  | [], _, _, .nil => ⟨rfl, rfl⟩
  | (name, value) :: rest, _, ht, .cons (.field _ hvalue) hrest => by
    obtain ⟨hsound, hcanonical⟩ := IsValue.restored ht.1 hvalue
    obtain ⟨hsounds, hcanonicals⟩ := AreFieldValues.restored ht.2 hrest
    exact ⟨by rw [areSoundFields, hsound, hsounds, Bool.and_self], by rw [canonicalFields, hcanonical, hcanonicals]⟩

end

/-! ### Fields -/

theorem names_of_copied {fields ordered : List (String × Json)} (h : List.Forall₂ FieldCopiedAs fields ordered) :
    ordered.map (·.1) = fields.map (·.1) := by
  induction h with
  | nil => rfl
  | cons hentry _ ih =>
    obtain ⟨name, _⟩ := hentry
    rw [List.map_cons, List.map_cons, ih]

private theorem lookup_of_copied {fields ordered : List (String × Json)} (h : List.Forall₂ FieldCopiedAs fields ordered)
    (name : String) : Option.Rel CopiedAs (fields.lookup name) (ordered.lookup name) := by
  induction h with
  | nil => exact .none
  | cons hentry _ ih =>
    obtain ⟨n, hvalue⟩ := hentry
    rw [Store.lookup_cons_eq, Store.lookup_cons_eq]
    split_ifs
    · exact .some hvalue
    · exact ih

/-- What is found under a name does not depend on the order of the fields. -/
private theorem lookup_of_perm {α : Type} {fields fields' : List (String × α)} (h : fields.Perm fields')
    (hnodup : (fields.map (·.1)).Nodup) (name : String) : fields.lookup name = fields'.lookup name := by
  induction h with
  | nil => rfl
  | cons entry _ ih =>
    obtain ⟨n, v⟩ := entry
    rw [Store.lookup_cons_eq, Store.lookup_cons_eq, ih (List.nodup_cons.1 hnodup).2]
  | swap first second rest =>
    obtain ⟨m, v⟩ := first
    obtain ⟨n, w⟩ := second
    have hne : n ≠ m := fun heq => (List.nodup_cons.1 hnodup).1 (heq ▸ List.mem_cons_self ..)
    rw [Store.lookup_cons_eq, Store.lookup_cons_eq, Store.lookup_cons_eq, Store.lookup_cons_eq]
    split_ifs with hn hm
    · exact absurd (hn.symm.trans hm) hne
    · rfl
    · rfl
    · rfl
  | trans hfirst _ ih ih' => exact (ih hnodup).trans (ih' ((hfirst.map _).nodup_iff.1 hnodup))

end Json

/-- What is found for a field: a copy of its value, or nothing if it has been left out. -/
inductive Slotted.Shows : Slotted → Option Json → Prop
  | given {t v : Json} (h : t.CopiedAs v) : Shows (.given v) (some t)
  | missing : Shows .missing none

private theorem Slotted.shows_of_rel {t v : Option Json} (h : Option.Rel Json.CopiedAs t v) :
    Shows ((v.map .given).getD .missing) t := by
  cases h with
  | none => exact .missing
  | some h => exact .given h

namespace Record

/-- In the record the fields are found as copies of these. -/
def Shows (r : Record) (fields : List (String × Json)) : Prop := ∀ name, (r.slot name).Shows (fields.lookup name)

private theorem lookup_map_pair {α : Type} (g : String → α) (names : List String) (name : String) :
    (names.map fun n => (n, g n)).lookup name = if name ∈ names then some (g name) else none := by
  induction names with
  | nil => rfl
  | cons n rest ih =>
    rw [List.map_cons, Store.lookup_cons_eq, ih]
    by_cases hn : name = n
    · simp [hn]
    · simp [hn]

/-- From a copy of an object whose fields have the names of a record in their order, where some may have been left
out, the record comes back. -/
theorem exists_shows {names : List String} {fields : List (String × Json)} {j : Json}
    (hfields : (fields.map (·.1)).Sublist names) (hnames : names.Nodup) (h : (Json.object fields).CopiedAs j) :
    ∃ r, Record.of? names j = some r ∧ r.Shows fields := by
  obtain ⟨ordered, fields', rfl, hcopied, hperm⟩ := h.exists_fields
  have hnodup : (ordered.map (·.1)).Nodup := Json.names_of_copied hcopied ▸ hnames.sublist hfields
  have hnodup' : (fields'.map (·.1)).Nodup := (hperm.map _).nodup_iff.1 hnodup
  have honce (name : String) : fields'.countP (fun entry => entry.1 == name) ≤ 1 := by
    have hcount := List.nodup_iff_count_le_one.1 hnodup' name
    rwa [List.count_eq_countP, List.countP_map] at hcount
  refine ⟨names.map fun name => (name, ((fields'.lookup name).map .given).getD .missing), ?_, fun name => ?_⟩
  · rw [of?, if_pos (by simpa using fun name _ => honce name)]
  · have hslot := Json.lookup_of_copied hcopied name
    rw [Json.lookup_of_perm hperm hnodup] at hslot
    unfold slot
    rw [lookup_map_pair]
    split_ifs with hmem
    · exact Slotted.shows_of_rel hslot
    · have habsent : fields.lookup name = none := by
        rw [List.lookup_eq_none_iff]
        intro entry hentry
        have hname : entry.1 ∈ names := hfields.subset (List.mem_map_of_mem hentry)
        simpa using fun heq : name = entry.1 => hmem (heq ▸ hname)
      rw [habsent]
      exact .missing

end Record

end AgentLoop
