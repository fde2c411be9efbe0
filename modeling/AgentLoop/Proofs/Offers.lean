import AgentLoop.Proofs.ByteOrder
import AgentLoop.Proofs.Ceiling
import AgentLoop.Proofs.History
import Mathlib.Data.Finset.Card
import Mathlib.Data.List.Induction

/-!
# What is offered is what resolves

A name is resolved to the last of the tools that were given under it, whether the set was put together tool by tool or
from all of them at once.  The tools are listed by name in increasing byte order, each name once, so a model is told of
exactly the tools that its calls can reach.
-/

namespace AgentLoop

/-! ### Sorted entries -/

section

variable {α : Type} {entries entries' : List (String × α)}

private theorem lookup_eq_some_iff_mem (h : entries.Pairwise fun a b => a.1 < b.1) {name : String} {value : α} :
    entries.lookup name = some value ↔ (name, value) ∈ entries := by
  induction entries with
  | nil => simp
  | cons first rest ih =>
    obtain ⟨n, v⟩ := first
    obtain ⟨hfirst, hrest⟩ := List.pairwise_cons.1 h
    rw [Store.lookup_cons_eq, List.mem_cons, Prod.mk.injEq]
    by_cases hn : name = n
    · subst hn
      have habsent : (name, value) ∉ rest := fun hmem => String.lt_irrefl name (hfirst _ hmem)
      rw [if_pos rfl, Option.some.injEq]
      simp [habsent, eq_comm]
    · rw [if_neg hn, ih hrest]
      simp [hn]

/-- Sorted entries are known by what is found among them. -/
private theorem eq_of_lookup_eq (h : entries.Pairwise fun a b => a.1 < b.1)
    (h' : entries'.Pairwise fun a b => a.1 < b.1)
    (hlookup : ∀ name, entries.lookup name = entries'.lookup name) : entries = entries' := by
  have hmem (entry : String × α) : entry ∈ entries ↔ entry ∈ entries' := by
    rw [← lookup_eq_some_iff_mem h, ← lookup_eq_some_iff_mem h', hlookup]
  have hne {a b : String × α} (hlt : a.1 < b.1) : a ≠ b := fun heq => String.lt_irrefl _ (heq ▸ hlt)
  have hperm : entries.Perm entries' := (List.perm_ext_iff_of_nodup (h.imp hne) (h'.imp hne)).2 hmem
  refine hperm.eq_of_pairwise (fun a b _ _ hab hba => ?_) h h'
  exact absurd hba (String.lt_asymm hab)

/-! ### All at once -/

/-- The last entry of each run of entries with one name. -/
def lastOfRuns : List (String × α) → List (String × α)
  | [] => []
  | [entry] => [entry]
  | entry :: next :: rest =>
    if entry.1 = next.1 then lastOfRuns (next :: rest) else entry :: lastOfRuns (next :: rest)

private theorem lastOfRuns_sublist (entries : List (String × α)) : (lastOfRuns entries).Sublist entries := by
  fun_induction lastOfRuns entries with
  | case1 | case2 => exact List.Sublist.refl _
  | case3 entry next rest _ ih => exact ih.cons entry
  | case4 entry next rest _ ih => exact ih.cons_cons entry

/-- The first of two neighbours with different names comes before all that follows. -/
private theorem lt_of_mem_of_ne {entry next : String × α} {rest : List (String × α)}
    (h : (entry :: next :: rest).Pairwise fun a b => a.1 ≤ b.1) (hne : entry.1 ≠ next.1) {later : String × α}
    (hlater : later ∈ next :: rest) : entry.1 < later.1 := by
  obtain ⟨hentry, hrest⟩ := List.pairwise_cons.1 h
  have hnext : entry.1 < next.1 := Std.lt_of_le_of_ne (hentry next (List.mem_cons_self ..)) hne
  rcases List.mem_cons.1 hlater with rfl | hmem
  · exact hnext
  · exact Std.lt_of_lt_of_le hnext ((List.pairwise_cons.1 hrest).1 later hmem)

private theorem sorted_lastOfRuns (h : entries.Pairwise fun a b => a.1 ≤ b.1) :
    (lastOfRuns entries).Pairwise fun a b => a.1 < b.1 := by
  fun_induction lastOfRuns entries with
  | case1 => exact .nil
  | case2 => exact List.pairwise_singleton ..
  | case3 entry next rest _ ih => exact ih h.tail
  | case4 entry next rest hne ih =>
    refine List.pairwise_cons.2 ⟨fun later hlater => ?_, ih h.tail⟩
    exact lt_of_mem_of_ne h hne ((lastOfRuns_sublist _).mem hlater)

/-- Among the last entries of the runs is found the last entry of a name. -/
private theorem lookup_lastOfRuns (h : entries.Pairwise fun a b => a.1 ≤ b.1) (name : String) :
    (lastOfRuns entries).lookup name = ((entries.filter fun entry => entry.1 = name).getLast?).map (·.2) := by
  fun_induction lastOfRuns entries with
  | case1 => rfl
  | case2 entry =>
    obtain ⟨n, v⟩ := entry
    rw [Store.lookup_cons_eq]
    by_cases hn : n = name
    · simp [hn]
    · simp [hn, Ne.symm hn]
  | case3 entry next rest heq ih =>
    rw [ih h.tail]
    by_cases hn : entry.1 = name
    · have hnext : next.1 = name := heq ▸ hn
      simp [hn, hnext, List.getLast?_cons_cons]
    · simp [hn]
  | case4 entry next rest hne ih =>
    obtain ⟨n, v⟩ := entry
    rw [Store.lookup_cons_eq, ih h.tail]
    by_cases hn : n = name
    · subst hn
      have hnone : (next :: rest).filter (fun entry => entry.1 = n) = [] := by
        refine List.filter_eq_nil_iff.2 fun later hlater => ?_
        simpa using (String.ne_of_lt (lt_of_mem_of_ne h hne hlater)).symm
      have hfilter : ((n, v) :: next :: rest).filter (fun entry => entry.1 = n) = [(n, v)] := by
        rw [List.filter_cons, hnone, if_pos (by simp)]
      rw [hfilter, if_pos rfl]
      rfl
    · have hfilter : ((n, v) :: next :: rest).filter (fun entry => entry.1 = name) =
          (next :: rest).filter fun entry => entry.1 = name := by
        rw [List.filter_cons, if_neg (by simpa using hn)]
      rw [hfilter, if_neg (Ne.symm hn)]

/-- Entries in order of their names, those of one name as they were. -/
def sortByName (entries : List (String × α)) : List (String × α) := entries.mergeSort fun a b => a.1 ≤ b.1

private theorem nameLe_trans (a b c : String × α) :
    decide (a.1 ≤ b.1) = true → decide (b.1 ≤ c.1) = true → decide (a.1 ≤ c.1) = true := by
  simpa only [decide_eq_true_eq] using String.le_trans

private theorem nameLe_total (a b : String × α) : (decide (a.1 ≤ b.1) || decide (b.1 ≤ a.1)) = true := by
  simpa only [Bool.or_eq_true, decide_eq_true_eq] using String.le_total a.1 b.1

private theorem sorted_sortByName (entries : List (String × α)) : (sortByName entries).Pairwise fun a b => a.1 ≤ b.1 :=
  (List.pairwise_mergeSort nameLe_trans nameLe_total entries).imp of_decide_eq_true

/-- Entries of one name are in order wherever they stand, so a stable sort leaves them in their order. -/
private theorem filter_sortByName (entries : List (String × α)) (name : String) :
    (sortByName entries).filter (fun entry => entry.1 = name) = entries.filter fun entry => entry.1 = name := by
  have hordered : (entries.filter fun entry => entry.1 = name).Pairwise fun a b => decide (a.1 ≤ b.1) := by
    refine List.pairwise_of_forall_mem_list fun a ha b hb => ?_
    have ha := of_decide_eq_true (List.mem_filter.1 ha).2
    have hb := of_decide_eq_true (List.mem_filter.1 hb).2
    rw [ha, hb]
    exact decide_eq_true (String.le_refl name)
  have hsub : (entries.filter fun entry => entry.1 = name).Sublist (sortByName entries) :=
    List.sublist_mergeSort nameLe_trans nameLe_total hordered List.filter_sublist
  have hkept := hsub.filter fun entry => entry.1 = name
  simp only [List.filter_filter, Bool.and_self] at hkept
  have hperm : ((sortByName entries).filter fun entry => entry.1 = name).Perm
      (entries.filter fun entry => entry.1 = name) := (List.mergeSort_perm entries _).filter _
  exact (hkept.eq_of_length hperm.length_eq.symm).symm

end

namespace ToolSet

/-! ### Sets of tools -/

/-- The last of the tools that have a name. -/
def lastNamed? (tools : List Tool) (name : String) : Option Tool := (tools.filter fun t => t.name = name).getLast?

/-- The set that comes from sorting the tools by name and keeping the last of each run. -/
def collect (tools : List Tool) : ToolSet := ⟨lastOfRuns (sortByName (tools.map fun t => (t.name, t)))⟩

/-- In order, and each tool under its name. -/
structure Ordered (s : ToolSet) : Prop where
  sorted : s.entries.Pairwise fun a b => a.1 < b.1
  named : ∀ entry ∈ s.entries, entry.2.name = entry.1

variable {s s' : ToolSet}

/-- An ordered set is known by what it resolves. -/
private theorem Ordered.ext (h : s.Ordered) (h' : s'.Ordered) (hget : ∀ name, s.get? name = s'.get? name) : s = s' :=
  congrArg ToolSet.mk (eq_of_lookup_eq h.sorted h'.sorted hget)

private theorem Ordered.insert (h : s.Ordered) (t : Tool) : (s.insert t).Ordered where
  sorted := sorted_insertField h.sorted
  named entry hentry := by
    rcases mem_insertField hentry with rfl | hentry
    · rfl
    · exact h.named entry hentry

private theorem get?_insert (s : ToolSet) (t : Tool) (name : String) :
    (s.insert t).get? name = if t.name = name then some t else s.get? name := by
  by_cases hname : t.name = name
  · rw [if_pos hname, ← hname, get?_insert_self]
  · rw [if_neg hname, get?_insert_ne s (Ne.symm hname)]

private theorem ofTools_append (tools : List Tool) (t : Tool) : ofTools (tools ++ [t]) = (ofTools tools).insert t := by
  simp [ofTools]

private theorem ordered_ofTools (tools : List Tool) : (ofTools tools).Ordered := by
  induction tools using List.reverseRecOn with
  | nil => exact ⟨.nil, fun entry hentry => by cases hentry⟩
  | append_singleton tools t ih =>
    rw [ofTools_append]
    exact ih.insert t

/-- The tool that was put in last under a name is the one that the name is resolved to. -/
private theorem get?_ofTools (tools : List Tool) (name : String) :
    (ofTools tools).get? name = lastNamed? tools name := by
  induction tools using List.reverseRecOn with
  | nil => rfl
  | append_singleton tools t ih =>
    rw [ofTools_append, get?_insert, ih]
    unfold lastNamed?
    by_cases hname : t.name = name
    · simp [hname]
    · simp [hname]

private theorem ordered_collect (tools : List Tool) : (collect tools).Ordered where
  sorted := sorted_lastOfRuns (sorted_sortByName _)
  named entry hentry := by
    have hmem := (lastOfRuns_sublist _).mem hentry
    obtain ⟨t, -, rfl⟩ := List.mem_map.1 (List.mem_mergeSort.1 hmem)
    rfl

private theorem get?_collect (tools : List Tool) (name : String) :
    (collect tools).get? name = lastNamed? tools name := by
  show (lastOfRuns (sortByName (tools.map fun t => (t.name, t)))).lookup name = _
  rw [lookup_lastOfRuns (sorted_sortByName _), filter_sortByName, List.filter_map, List.getLast?_map, Option.map_map]
  exact congrFun Option.map_id _

/-- Tool by tool or all at once, the set is the same. -/
private theorem collect_eq_ofTools (tools : List Tool) : collect tools = ofTools tools :=
  (ordered_collect tools).ext (ordered_ofTools tools) fun name => by rw [get?_collect, get?_ofTools]

/-! ### Names and definitions -/

private theorem Ordered.map_name_definitions (h : s.Ordered) : s.definitions.map (·.name) = s.names := by
  unfold definitions names
  rw [List.map_map]
  exact List.map_congr_left h.named

private theorem Ordered.names_pairwise (h : s.Ordered) : s.names.Pairwise fun a b => Text.bytes a < Text.bytes b :=
  List.pairwise_map.2 (h.sorted.imp Text.lt_iff_bytes_lt.1)

private theorem Ordered.get?_eq_some_iff (h : s.Ordered) {name : String} {t : Tool} :
    s.get? name = some t ↔ (name, t) ∈ s.entries :=
  lookup_eq_some_iff_mem h.sorted

private theorem Ordered.mem_names_iff (h : s.Ordered) {name : String} : name ∈ s.names ↔ ∃ t, s.get? name = some t := by
  simp only [h.get?_eq_some_iff, names, List.mem_map, Prod.exists, exists_and_right, exists_eq_right]

/-- The definition that is listed under a name is that of the tool that the name is resolved to. -/
private theorem Ordered.mem_definitions_iff (h : s.Ordered) {name : String} {d : ToolDefinition} :
    d ∈ s.definitions ∧ d.name = name ↔ ∃ t, s.get? name = some t ∧ t.definition = d := by
  constructor
  · rintro ⟨hd, rfl⟩
    obtain ⟨⟨n, t⟩, hentry, rfl⟩ := List.mem_map.1 hd
    obtain rfl : t.name = n := h.named _ hentry
    exact ⟨t, h.get?_eq_some_iff.2 hentry, rfl⟩
  · rintro ⟨t, ht, rfl⟩
    have hentry := h.get?_eq_some_iff.1 ht
    exact ⟨List.mem_map.2 ⟨_, hentry, rfl⟩, h.named _ hentry⟩

private theorem lastNamed?_eq_none_iff {tools : List Tool} {name : String} :
    lastNamed? tools name = none ↔ name ∉ tools.map (·.name) := by
  simp [lastNamed?]

private theorem mem_names_ofTools {tools : List Tool} {name : String} :
    name ∈ (ofTools tools).names ↔ name ∈ tools.map (·.name) := by
  rw [(ordered_ofTools tools).mem_names_iff, ← Option.isSome_iff_exists, get?_ofTools, ← Option.ne_none_iff_isSome,
    Ne, lastNamed?_eq_none_iff, not_not]

/-- There are as many entries as there are different names. -/
private theorem size_ofTools (tools : List Tool) : (ofTools tools).size = (tools.map (·.name)).toFinset.card := by
  have hnodup : (ofTools tools).names.Nodup :=
    (List.pairwise_map.2 (ordered_ofTools tools).sorted).imp String.ne_of_lt
  have hsame : (ofTools tools).names.toFinset = (tools.map (·.name)).toFinset := by
    ext name
    rw [List.mem_toFinset, List.mem_toFinset, mem_names_ofTools]
  rw [← hsame, List.toFinset_card_of_nodup hnodup]
  exact (List.length_map ..).symm

/-- What a set made of tools resolves and lists. -/
structure Offers (tools : List Tool) (s : ToolSet) : Prop where
  /-- A name is resolved to the last tool that has it, if there is one. -/
  get? (name : String) : s.get? name = (tools.filter fun t => t.name = name).getLast?
  /-- Names are listed in order, -/
  names : s.names.Pairwise fun a b => Text.bytes a < Text.bytes b
  /-- and so are definitions, -/
  definitions : s.definitions.Pairwise fun a b => Text.bytes a.name < Text.bytes b.name
  /-- as many as there are different names. -/
  size : s.size = (tools.map (·.name)).toFinset.card
  length_names : s.names.length = (tools.map (·.name)).toFinset.card
  length_definitions : s.definitions.length = (tools.map (·.name)).toFinset.card
  /-- The names that are offered are those that are resolved, -/
  resolves (name : String) : (∃ t, s.get? name = some t) ↔ name ∈ s.definitions.map (·.name)
  /-- and what is offered under a name is the tool that the name is resolved to. -/
  offers (name : String) (d : ToolDefinition) :
    d ∈ s.definitions ∧ d.name = name ↔ ∃ t, s.get? name = some t ∧ t.definition = d

private theorem offers_ofTools (tools : List Tool) : Offers tools (ofTools tools) := by
  have h := ordered_ofTools tools
  have hsize := size_ofTools tools
  refine ⟨get?_ofTools tools, h.names_pairwise, ?_, hsize, ?_, ?_, fun name => ?_, fun _ _ => h.mem_definitions_iff⟩
  · have hnames := h.names_pairwise
    rw [← h.map_name_definitions, List.pairwise_map] at hnames
    exact hnames
  · rw [← hsize]
    exact List.length_map ..
  · rw [← hsize]
    exact List.length_map ..
  · rw [h.map_name_definitions, h.mem_names_iff]

/-- What a list of tools comes to, whichever way the set is put together. -/
structure Assembled (tools : List Tool) : Prop where
  offers : Offers tools (ofTools tools)
  /-- The set is the same if all tools are taken at once, -/
  collect : collect tools = ofTools tools
  /-- and if one is added to a set of the others. -/
  insert (t : Tool) : (ToolSet.collect tools).insert t = ToolSet.collect (tools ++ [t])

/-- Whatever tools there are, what is offered is what resolves. -/
theorem assembled (tools : List Tool) : Assembled tools where
  offers := offers_ofTools tools
  collect := collect_eq_ofTools tools
  insert t := by rw [collect_eq_ofTools, collect_eq_ofTools, ofTools_append]

end ToolSet

end AgentLoop
