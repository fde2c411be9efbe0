import AgentLoop.Proofs.Copies
import AgentLoop.Proofs.Rounding
import AgentLoop.Proofs.Timestamps
import AgentLoop.Serial.Event

/-!
# Restored values

The serialized forms lose nothing: `Form.nothingLost`.  A form restores a value if the value is read from every copy
of the tree that is written for it, in particular from that tree itself.  Whether it does is a matter of its parts.
For a record one has to know what is found under each name, and there it shows that whatever is left out when it is
written is what is assumed when it is missing.
-/

namespace AgentLoop

/-! ### Forms and their parts -/

namespace Form

variable {α : Type} {f : Form α} {x : α}

/-- From every copy of the tree that is written for it the value comes back. -/
def Restores (f : Form α) (x : α) : Prop := ∀ j, (f.write x).CopiedAs j → f.read j = some x

private theorem restores_string (s : String) : string.Restores s := by
  intro j h
  cases h
  rfl

private theorem restores_boolean (b : Bool) : boolean.Restores b := by
  intro j h
  cases h
  rfl

/-- A word comes back if it is that of its number, and this is below the limit. -/
private theorem restores_word {limit : Nat} {toNat : α → Nat} {ofNat : Nat → α} (hlt : toNat x < limit)
    (hword : ofNat (toNat x) = x) : (word limit toNat ofNat).Restores x := by
  intro j h
  cases h
  simp [word, naturalBelow?, Json.natural?, hlt, hword]

private theorem restores_word32 (n : UInt32) : word32.Restores n := restores_word n.toNat_lt UInt32.ofNat_toNat

private theorem restores_word64 (n : UInt64) : word64.Restores n := restores_word n.toNat_lt UInt64.ofNat_toNat

private theorem restores_single_iff {x : Floating} : single.Restores x ↔ FloatFormat.single.Holds x := by
  cases x with
  | nan => exact ⟨fun h => (nomatch h _ (.same _)), False.elim⟩
  | infinite => exact ⟨fun h => (nomatch h _ (.same _)), False.elim⟩
  | finite negative m e =>
    have hexact := FloatFormat.convert_finite_iff FloatFormat.proper_single (s := negative) (m := m) (e := e)
    refine ⟨fun h => hexact.1 (Option.some.inj (h _ (.same _))), fun hx j h => ?_⟩
    cases h with
    | same => exact congrArg some (hexact.2 hx)
    | single h => exact congrArg some h

private theorem restores_value {t : Json} (ht : t.IsValue) : value.Restores t := by
  intro j h
  obtain ⟨hsound, hcanonical⟩ := ht.restored h
  show (if j.isSound then some j.canonical else none) = some t
  rw [hsound, if_pos rfl, hcanonical]

private theorem restores_list (items : List α) (h : ∀ item ∈ items, f.Restores item) : f.list.Restores items := by
  intro j hj
  obtain ⟨items', rfl, hcopied⟩ := Json.CopiedAs.exists_items hj
  show items'.mapM f.read = some items
  clear hj
  induction items generalizing items' with
  | nil =>
    cases hcopied
    rfl
  | cons item rest ih =>
    obtain ⟨v, vs, hv, hvs, rfl⟩ := List.forall₂_cons_left_iff.1 hcopied
    have hrest := ih (fun item hitem => h item (List.mem_cons_of_mem _ hitem)) vs hvs
    rw [List.mapM_cons, h item (List.mem_cons_self ..) v hv, hrest]
    rfl

/-- Null stands for no value, as long as it is not read as one. -/
private theorem restores_nullable (x : Option α) (h : ∀ y ∈ x, f.Restores y) (hnull : f.read .null = none) :
    f.nullable.Restores x := by
  intro j hj
  cases x with
  | none =>
    cases hj
    rfl
  | some y =>
    have hread := h y rfl j hj
    cases j with
    | null => simp [hnull] at hread
    | _ => simp [nullable, hread]

private theorem restores_named {name : α → String} {ofName? : String → Option α} (h : ofName? (name x) = some x) :
    (named name ofName?).Restores x := by
  intro j hj
  cases hj
  exact h

end Form

/-! ### Fields and their names -/

namespace Json

/-- The fields have names from the list, in its order.  The list is found from the entries that the fields are put
together from. -/
class Named (names : outParam (List String)) (fields : List (String × Json)) : Prop where
  sublist : (fields.map (·.1)).Sublist names

section

variable {α : Type} (n : String) (f : Form α) (name : String)

instance (x : α) : Named [n] (entry n f x) := ⟨.refl _⟩

instance (x : Option α) : Named [n] (entryIfSome n f x) := by
  cases x with
  | none => exact ⟨List.nil_sublist _⟩
  | some x => exact ⟨.refl _⟩

instance (xs : List α) : Named [n] (entryIfAny n f xs) := by
  unfold entryIfAny
  split_ifs
  · exact ⟨List.nil_sublist _⟩
  · exact ⟨.refl _⟩

instance {names names' : List String} {fields fields' : List (String × Json)} [h : Named names fields]
    [h' : Named names' fields'] : Named (names ++ names') (fields ++ fields') :=
  ⟨by rw [List.map_append]; exact h.sublist.append h'.sublist⟩

@[simp] theorem lookup_entry (x : α) : (entry n f x).lookup name = if name = n then some (f.write x) else none :=
  Store.lookup_cons_eq ..

@[simp] theorem lookup_entryIfSome (x : Option α) :
    (entryIfSome n f x).lookup name = if name = n then x.map f.write else none := by
  cases x with
  | none => simp [entryIfSome]
  | some x => exact Store.lookup_cons_eq ..

@[simp] theorem lookup_entryIfAny (xs : List α) : (entryIfAny n f xs).lookup name =
    if name = n then (if xs = [] then none else some (f.list.write xs)) else none := by
  unfold entryIfAny
  cases xs with
  | nil => simp
  | cons x xs => simp [Store.lookup_cons_eq]

end

end Json

namespace Record

variable {α : Type} {r : Record} {fields : List (String × Json)} (name : String) {f : Form α}

private theorem Shows.exists_slot_eq {name : String} {t : Json} (hr : r.Shows fields)
    (h : fields.lookup name = some t) :
    ∃ v, r.slot name = .given v ∧ t.CopiedAs v := by
  have hslot := hr name
  rw [h] at hslot
  generalize r.slot name = slot at hslot
  cases hslot with
  | given hv => exact ⟨_, rfl, hv⟩

private theorem Shows.slot_eq_missing {name : String} (hr : r.Shows fields) (h : fields.lookup name = none) :
    r.slot name = .missing := by
  have hslot := hr name
  rw [h] at hslot
  generalize r.slot name = slot at hslot
  cases hslot with
  | missing => rfl

/-! What is found under a name follows from the entries alone. -/

private theorem Shows.required {x : α} (hr : r.Shows fields) (hf : f.Restores x)
    (h : fields.lookup name = some (f.write x) := by simp [List.lookup_append]) : r.required name f = some x := by
  obtain ⟨v, hv, hcopied⟩ := hr.exists_slot_eq h
  rw [Record.required, hv]
  exact hf v hcopied

private theorem Shows.optional {x : Option α} (hr : r.Shows fields) (hf : f.nullable.Restores x)
    (h : fields.lookup name = some (f.nullable.write x) := by simp [List.lookup_append]) :
    r.optional name f = some x := by
  obtain ⟨v, hv, hcopied⟩ := hr.exists_slot_eq h
  rw [Record.optional, hv]
  exact hf v hcopied

private theorem Shows.withDefault {x : α} (hr : r.Shows fields) (default : α) (hf : f.Restores x)
    (h : fields.lookup name = some (f.write x) := by simp [List.lookup_append]) :
    r.withDefault name f default = some x := by
  obtain ⟨v, hv, hcopied⟩ := hr.exists_slot_eq h
  rw [Record.withDefault, hv]
  exact hf v hcopied

/-- A list that has been left out is empty. -/
private theorem Shows.ifAny {xs : List α} (hr : r.Shows fields) (hf : f.list.Restores xs)
    (h : fields.lookup name = if xs = [] then none else some (f.list.write xs) := by simp [List.lookup_append]) :
    r.withDefault name f.list [] = some xs := by
  split_ifs at h with hxs
  · rw [Record.withDefault, hr.slot_eq_missing h, hxs]
  · exact hr.withDefault name _ hf h

/-- A value that has been left out is none. -/
private theorem Shows.ifSome {x : Option α} (hr : r.Shows fields) (hf : f.nullable.Restores x)
    (h : fields.lookup name = x.map f.write := by simp [List.lookup_append]) :
    r.withDefault name f.nullable none = some x := by
  cases x with
  | none => rw [Record.withDefault, hr.slot_eq_missing h]
  | some x => exact hr.withDefault name _ hf h

/-- What is made of a record is right for a copy of an object if it is right for every record that shows the fields of
the object. -/
private theorem bind_of_copied {x : α} {names found : List String} {j : Json} {body : Record → Option α}
    [hfields : Json.Named found fields] (hj : (Json.object fields).CopiedAs j) (hfound : found = names)
    (hnames : names.Nodup) (hbody : ∀ r : Record, r.Shows fields → body r = some x) :
    (Record.of? names j).bind body = some x := by
  obtain ⟨r, hr, hshows⟩ := Record.exists_shows (hfound ▸ hfields.sublist) hnames hj
  rw [hr, Option.bind_some, hbody r hshows]

end Record

private theorem Form.restores_of_fields {α : Type} {f : Form α} {x : α} {names found : List String}
    {fields : List (String × Json)} {body : Record → Option α} [Json.Named found fields]
    (hwrite : f.write x = .object fields) (hread : ∀ j, f.read j = (Record.of? names j).bind body)
    (hfound : found = names) (hnames : names.Nodup) (hbody : ∀ r : Record, r.Shows fields → body r = some x) :
    f.Restores x := by
  intro j hj
  rw [hwrite] at hj
  rw [hread, Record.bind_of_copied hj hfound hnames hbody]

/-! ### Messages -/

open Form

private theorem CallRequest.restores (c : CallRequest) : CallRequest.form.Restores c := by
  refine restores_of_fields rfl (fun _ => rfl) rfl (by decide) fun r hr => ?_
  have hid := hr.required "id" (restores_string c.id)
  have hname := hr.required "name" (restores_string c.name)
  have harguments := hr.required "arguments" (restores_string c.arguments)
  simp only [hid, hname, harguments]
  rfl

private theorem Role.restores (role : Role) : Role.form.Restores role := restores_named (by cases role <;> rfl)

private theorem ErrorCode.restores (code : ErrorCode) :
    ErrorCode.form.Restores code := restores_named (by cases code <;> rfl)

private theorem Instant.restores_iff {t : Instant} : Instant.form.Restores t ↔ t.Proper := by
  refine ⟨fun h => ?_, fun h j hj => ?_⟩
  · have hread := h _ (.same _)
    simp only [form, Json.string?, Option.bind_some] at hread
    exact read_text_iff.1 hread
  · have hread := restores_string t.text j hj
    show (string.read j).bind read = some t
    rw [hread, Option.bind_some, read_text_iff.2 h]

private theorem Message.restores (m : Message) (h : m.timestamp.Proper) : Message.form.Restores m := by
  refine restores_of_fields rfl (fun _ => rfl) rfl (by decide) fun r hr => ?_
  have hid := hr.required "id" (restores_string m.id)
  have hrole := hr.required "role" m.role.restores
  have hcontent := hr.required "content" (restores_string m.content)
  have hcalls := hr.ifAny "tool_calls" (restores_list m.calls fun c _ => c.restores)
  have hcallId := hr.ifSome "tool_call_id" (restores_nullable m.callId (fun s _ => restores_string s) rfl)
  have htimestamp := hr.required "timestamp" (Instant.restores_iff.2 h)
  simp only [hid, hrole, hcontent, hcalls, hcallId, htimestamp]
  rfl

/-! ### Tools, requests and responses -/

private theorem Usage.restores (u : Usage) : Usage.form.Restores u := by
  refine restores_of_fields rfl (fun _ => rfl) rfl (by decide) fun r hr => ?_
  have hprompt := hr.required "prompt_tokens" (restores_word32 u.prompt)
  have hcompletion := hr.required "completion_tokens" (restores_word32 u.completion)
  have htotal := hr.required "total_tokens" (restores_word32 u.total)
  simp only [hprompt, hcompletion, htotal]
  rfl

private theorem ToolCall.restores {c : ToolCall} (h : c.arguments.IsValue) : ToolCall.form.Restores c := by
  refine restores_of_fields rfl (fun _ => rfl) rfl (by decide) fun r hr => ?_
  have hid := hr.required "id" (restores_string c.id)
  have hname := hr.required "name" (restores_string c.name)
  have harguments := hr.required "arguments" (restores_value h)
  simp only [hid, hname, harguments]
  rfl

private theorem ToolResult.restores (t : ToolResult) : ToolResult.form.Restores t := by
  refine restores_of_fields rfl (fun _ => rfl) rfl (by decide) fun r hr => ?_
  have hcallId := hr.required "call_id" (restores_string t.callId)
  have hsuccess := hr.required "success" (restores_boolean t.success)
  have houtput := hr.required "output" (restores_string t.output)
  simp only [hcallId, hsuccess, houtput]
  rfl

private theorem ToolDefinition.restores (t : ToolDefinition) (h : t.parameters.IsValue) :
    ToolDefinition.form.Restores t := by
  refine restores_of_fields rfl (fun _ => rfl) rfl (by decide) fun r hr => ?_
  have hname := hr.required "name" (restores_string t.name)
  have hdescription := hr.required "description" (restores_string t.description)
  have hparameters := hr.required "parameters" (restores_value h)
  simp only [hname, hdescription, hparameters]
  rfl

/-- A request whose temperature is finite; what it holds are instants and values. -/
structure Request.Proper (q : Request) : Prop where
  messages : ∀ m ∈ q.messages, m.timestamp.Proper
  temperature : FloatFormat.single.Holds q.temperature
  tools : ∀ t ∈ q.tools, t.parameters.IsValue

private theorem Request.restores {q : Request} (h : q.Proper) : Request.form.Restores q := by
  refine restores_of_fields rfl (fun _ => rfl) rfl (by decide) fun r hr => ?_
  have hmodel := hr.required "model" (restores_string q.model)
  have hsystem := hr.required "system" (restores_string q.system)
  have hmessages := hr.required "messages" (restores_list q.messages fun m hm => m.restores (h.messages m hm))
  have htemperature := hr.withDefault "temperature" defaultTemperature (restores_single_iff.2 h.temperature)
  have hmaxTokens := hr.ifSome "max_tokens" (restores_nullable q.maxTokens (fun n _ => restores_word32 n) rfl)
  have htools := hr.ifAny "tools" (restores_list q.tools fun t ht => t.restores (h.tools t ht))
  have hresponseFormat :=
    hr.ifSome "response_format" (restores_nullable q.responseFormat (fun s _ => restores_string s) rfl)
  have hstream := hr.withDefault "stream" false (restores_boolean q.stream)
  simp only [hmodel, hsystem, hmessages, htemperature, hmaxTokens, htools, hresponseFormat, hstream]
  rfl

private theorem Response.restores {a : Response} (h : a.message.timestamp.Proper) : Response.form.Restores a := by
  refine restores_of_fields rfl (fun _ => rfl) rfl (by decide) fun r hr => ?_
  have hmessage := hr.required "message" (a.message.restores h)
  have husage := hr.optional "usage" (restores_nullable a.usage (fun u _ => u.restores) rfl)
  have hmodel := hr.required "model" (restores_string a.model)
  simp only [hmessage, husage, hmodel]
  rfl

private theorem Chunk.restores (c : Chunk) : Chunk.form.Restores c := by
  refine restores_of_fields rfl (fun _ => rfl) rfl (by decide) fun r hr => ?_
  have hcontent :=
    hr.withDefault "content" none (restores_nullable c.content (fun s _ => restores_string s) rfl)
  have hcalls := hr.ifAny "tool_calls" (restores_list c.calls fun call _ => call.restores)
  have hdone := hr.withDefault "done" false (restores_boolean c.done)
  have husage := hr.ifSome "usage" (restores_nullable c.usage (fun u _ => u.restores) rfl)
  simp only [hcontent, hcalls, hdone, husage]
  rfl

/-! ### Commands and results -/

private theorem CommandOptions.restores {o : CommandOptions} (h : ∀ x ∈ o.temperature, FloatFormat.single.Holds x) :
    CommandOptions.form.Restores o := by
  refine restores_of_fields rfl (fun _ => rfl) rfl (by decide) fun r hr => ?_
  have hmodel := hr.ifSome "model" (restores_nullable o.model (fun s _ => restores_string s) rfl)
  have htemperature :=
    hr.ifSome "temperature" (restores_nullable o.temperature (fun x hx => restores_single_iff.2 (h x hx)) rfl)
  have hmaxOutputTokens :=
    hr.ifSome "max_output_tokens" (restores_nullable o.maxOutputTokens (fun n _ => restores_word32 n) rfl)
  have hresponseFormat :=
    hr.ifSome "response_format" (restores_nullable o.responseFormat (fun s _ => restores_string s) rfl)
  simp only [hmodel, htemperature, hmaxOutputTokens, hresponseFormat]
  rfl

private theorem ExecutionError.restores (e : ExecutionError) : ExecutionError.form.Restores e := by
  refine restores_of_fields rfl (fun _ => rfl) rfl (by decide) fun r hr => ?_
  have hcode := hr.required "code" e.code.restores
  have hmessage := hr.required "message" (restores_string e.message)
  simp only [hcode, hmessage]
  rfl

/-- The seconds of the longest span still fit. -/
private theorem Span.seconds_lt {n : Nat} (h : n ≤ longest.nanoseconds) : n / 1000000000 < UInt64.size := by
  unfold longest at h
  dsimp only at h
  have hpos : 0 < UInt64.size * 1000000000 := Nat.mul_pos (by decide) (by decide)
  refine Nat.div_lt_of_lt_mul ?_
  rw [Nat.mul_comm]
  omega

private theorem Span.le_longest_of_read {s : Span} {j : Json} (h : Span.form.read j = some s) :
    s.nanoseconds ≤ longest.nanoseconds := by
  simp only [form, Option.bind_eq_bind, Option.bind_none] at h
  split_ifs at h
  obtain ⟨_, -, h⟩ := Option.bind_eq_some_iff.1 h
  obtain ⟨_, -, h⟩ := Option.bind_eq_some_iff.1 h
  obtain ⟨_, -, h⟩ := Option.bind_eq_some_iff.1 h
  split_ifs at h with hle
  cases h
  exact hle

private theorem Span.restores {s : Span} (h : s.nanoseconds ≤ longest.nanoseconds) : Span.form.Restores s := by
  intro j hj
  obtain ⟨ordered, fields, rfl, hcopied, hperm⟩ := hj.exists_fields
  have hknown : (fields.all fun entry => entry.1 == "secs" || entry.1 == "nanos") = true := by
    have hnames : ordered.map (·.1) = ["secs", "nanos"] := Json.names_of_copied hcopied
    have hall : (ordered.map (·.1)).all (fun name => name == "secs" || name == "nanos") = true := by
      rw [hnames]
      decide
    rw [← hperm.all_eq, ← hall, List.all_map]
    rfl
  have hseconds : (UInt64.ofNat (s.nanoseconds / 1000000000)).toNat = s.nanoseconds / 1000000000 :=
    UInt64.toNat_ofNat_of_lt (seconds_lt h)
  have hnanoseconds : (UInt32.ofNat (s.nanoseconds % 1000000000)).toNat = s.nanoseconds % 1000000000 :=
    UInt32.toNat_ofNat_of_lt ((Nat.mod_lt _ (by decide)).trans (by decide))
  simp only [Span.form, hknown, Bool.not_true, Bool.false_eq_true, if_false]
  have hsum : s.nanoseconds / 1000000000 * 1000000000 + s.nanoseconds % 1000000000 = s.nanoseconds :=
    Nat.div_add_mod' ..
  refine Record.bind_of_copied hj rfl (by decide) fun r hr => ?_
  have hsecs := hr.required "secs" (restores_word64 (.ofNat (s.nanoseconds / 1000000000)))
  have hnanos := hr.required "nanos" (restores_word32 (.ofNat (s.nanoseconds % 1000000000)))
  rw [hsecs, hnanos, Option.bind_eq_bind, Option.bind_some, Option.bind_eq_bind, Option.bind_some, hseconds,
    hnanoseconds, hsum, if_pos h]

structure ExecutionResult.Proper (x : ExecutionResult) : Prop where
  duration : x.duration.nanoseconds ≤ Span.longest.nanoseconds
  messages : ∀ m ∈ x.messages, m.timestamp.Proper

private theorem ExecutionResult.restores {x : ExecutionResult} (h : x.Proper) : ExecutionResult.form.Restores x := by
  refine restores_of_fields rfl (fun _ => rfl) rfl (by decide) fun r hr => ?_
  have hsuccess := hr.required "success" (restores_boolean x.success)
  have hcontent := hr.optional "content" (restores_nullable x.content (fun s _ => restores_string s) rfl)
  have htoolsUsed := hr.required "tools_used" (restores_list x.toolsUsed fun s _ => restores_string s)
  have husage := hr.required "usage" x.usage.restores
  have hduration := hr.required "duration" (Span.restores h.duration)
  have hmessages := hr.ifAny "messages" (restores_list x.messages fun m hm => m.restores (h.messages m hm))
  have herror := hr.ifSome "error" (restores_nullable x.error (fun e _ => e.restores) rfl)
  simp only [hsuccess, hcontent, htoolsUsed, husage, hduration, hmessages, herror]
  rfl

/-! ### Decisions -/

/-- Fields that hold texts are copied as they are. -/
private theorem Json.eq_of_copied_texts {texts : List (String × String)} {ordered : List (String × Json)}
    (h : List.Forall₂ FieldCopiedAs (texts.map fun text => (text.1, .string text.2)) ordered) :
    ordered = texts.map fun text => (text.1, .string text.2) := by
  induction texts generalizing ordered with
  | nil =>
    cases h
    rfl
  | cons text rest ih =>
    rw [List.map_cons] at h ⊢
    obtain ⟨_, _, ⟨_, hvalue⟩, hrest, rfl⟩ := List.forall₂_cons_left_iff.1 h
    cases hvalue
    rw [ih hrest]

namespace GuardDecision

/-- The name of a decision is found wherever it stands, and the other fields are left. -/
private theorem read_of_copied {decision : String} {j : Json} (texts : List (String × String))
    (htexts : ∀ text ∈ texts, text.1 ≠ tag)
    (h : (Json.object (((tag, decision) :: texts).map fun text => (text.1, .string text.2))).CopiedAs j) :
    ∃ rest, (Json.object (texts.map fun text => (text.1, .string text.2))).CopiedAs (.object rest) ∧
      form.read j = ofFields? decision (.object rest) := by
  obtain ⟨_, fields, rfl, hcopied, hperm⟩ := h.exists_fields
  rw [Json.eq_of_copied_texts hcopied] at hperm
  have hsound : (Json.object fields).isSound = true := by
    rw [Json.isSound, Json.areSoundFields_eq, ← hperm.all_eq, List.all_map, List.all_eq_true]
    exact fun _ _ => rfl
  have hne : ∀ entry ∈ texts.map fun text => (text.1, Json.string text.2), entry.1 ≠ tag := by
    intro entry hentry
    obtain ⟨text, htext, rfl⟩ := List.mem_map.1 hentry
    exact htexts text htext
  have htag : fields.filter (·.1 == tag) = [(tag, .string decision)] := by
    have hfiltered := hperm.filter (·.1 == tag)
    rw [List.map_cons, List.filter_cons_of_pos (by simp), List.filter_eq_nil_iff.2 (by simpa using hne),
      List.singleton_perm] at hfiltered
    exact hfiltered.symm
  have hrest := hperm.filter (·.1 != tag)
  rw [List.map_cons, List.filter_cons_of_neg (by simp), List.filter_eq_self.2 (by simpa using hne)] at hrest
  refine ⟨_, .object (List.forall₂_same.2 fun entry _ => .field entry.1 (.same entry.2)) hrest, ?_⟩
  simp only [form, hsound, htag, Bool.not_true, Bool.false_eq_true, if_false]

private theorem restores (d : GuardDecision) : form.Restores d := by
  intro j hj
  cases d with
  | allow =>
    obtain ⟨rest, -, hread⟩ := read_of_copied [] (by simp) hj
    rw [hread]
    rfl
  | reject reason category =>
    obtain ⟨rest, hrest, hread⟩ :=
      read_of_copied [("reason", reason), ("category", category)] (by simp [tag]) hj
    have hj : (Json.object (Json.entry "reason" string reason ++ Json.entry "category" string category)).CopiedAs
        (.object rest) := hrest
    rw [hread]
    refine Record.bind_of_copied hj rfl (by decide) fun r hr => ?_
    have hreason := hr.required "reason" (restores_string reason)
    have hcategory := hr.required "category" (restores_string category)
    simp only [hreason, hcategory]
    rfl

end GuardDecision

/-! ### Events -/

namespace Event

@[simp] def timestamp : Event → Instant
  | responseGenerated _ _ _ t | toolExecuted _ _ _ t | retryScheduled _ _ _ t | executionCompleted _ _ _ _ _ t => t

private theorem ofKind?_of_copied {e : Event} (h : e.timestamp.Proper) {j : Json}
    (hj : (Json.object e.fields).CopiedAs j) :
    ofKind? e.kind j = some e := by
  cases e with
  | responseGenerated model tokensUsed durationMs timestamp =>
    rw [fields] at hj
    refine Record.bind_of_copied hj rfl (by decide) fun r hr => ?_
    have hmodel := hr.required "model" (restores_string model)
    have htokensUsed := hr.required "tokens_used" (restores_word32 tokensUsed)
    have hdurationMs := hr.required "duration_ms" (restores_word64 durationMs)
    have htimestamp := hr.required "timestamp" (Instant.restores_iff.2 h)
    simp only [hmodel, htokensUsed, hdurationMs, htimestamp]
    rfl
  | toolExecuted tool success durationMs timestamp =>
    rw [fields] at hj
    refine Record.bind_of_copied hj rfl (by decide) fun r hr => ?_
    have htool := hr.required "tool_name" (restores_string tool)
    have hsuccess := hr.required "success" (restores_boolean success)
    have hdurationMs := hr.required "duration_ms" (restores_word64 durationMs)
    have htimestamp := hr.required "timestamp" (Instant.restores_iff.2 h)
    simp only [htool, hsuccess, hdurationMs, htimestamp]
    rfl
  | retryScheduled attempt delayMs message timestamp =>
    rw [fields] at hj
    refine Record.bind_of_copied hj rfl (by decide) fun r hr => ?_
    have hattempt := hr.required "attempt" (restores_word32 attempt)
    have hdelayMs := hr.required "delay_ms" (restores_word64 delayMs)
    have hmessage := hr.required "error_message" (restores_string message)
    have htimestamp := hr.required "timestamp" (Instant.restores_iff.2 h)
    simp only [hattempt, hdelayMs, hmessage, htimestamp]
    rfl
  | executionCompleted success code toolCalls tokensUsed durationMs timestamp =>
    rw [fields] at hj
    refine Record.bind_of_copied hj rfl (by decide) fun r hr => ?_
    have hsuccess := hr.required "success" (restores_boolean success)
    have hcode := hr.optional "error_code" (restores_nullable code (fun c _ => c.restores) rfl)
    have htoolCalls := hr.required "tool_calls" (restores_word32 toolCalls)
    have htokensUsed := hr.required "tokens_used" (restores_word32 tokensUsed)
    have hdurationMs := hr.required "duration_ms" (restores_word64 durationMs)
    have htimestamp := hr.required "timestamp" (Instant.restores_iff.2 h)
    simp only [hsuccess, hcode, htoolCalls, htokensUsed, hdurationMs, htimestamp]
    rfl

private theorem restores {e : Event} (h : e.timestamp.Proper) : form.Restores e := by
  intro j hj
  obtain ⟨_, _, rfl, hcopied, hperm⟩ := Json.CopiedAs.exists_fields hj
  obtain ⟨_, _, ⟨_, hfields⟩, hnil, rfl⟩ := List.forall₂_cons_left_iff.1 hcopied
  cases hnil
  rw [List.singleton_perm] at hperm
  subst hperm
  exact ofKind?_of_copied h hfields

end Event

/-! ### All forms -/

/-- Values come back from the trees that are written for them, and from every copy of these trees.  Instants, numbers
and spans do if and only if they are proper ones.  Of anything else it is only asked that the instants, numbers, spans
and trees that it holds are proper. -/
structure Form.NothingLost : Prop where
  instant (t : Instant) : Instant.form.Restores t ↔ t.Proper
  single (x : Floating) : Form.single.Restores x ↔ FloatFormat.single.Holds x
  span (s : Span) : Span.form.Restores s ↔ s.nanoseconds ≤ Span.longest.nanoseconds
  message (m : Message) (h : m.timestamp.Proper) : Message.form.Restores m
  callRequest (c : CallRequest) : CallRequest.form.Restores c
  toolCall (c : ToolCall) (h : c.arguments.IsValue) : ToolCall.form.Restores c
  toolResult (t : ToolResult) : ToolResult.form.Restores t
  request (q : Request) (h : q.Proper) : Request.form.Restores q
  commandOptions (o : CommandOptions) (h : ∀ x ∈ o.temperature, FloatFormat.single.Holds x) :
    CommandOptions.form.Restores o
  response (a : Response) (h : a.message.timestamp.Proper) : Response.form.Restores a
  chunk (c : Chunk) : Chunk.form.Restores c
  usage (u : Usage) : Usage.form.Restores u
  executionResult (x : ExecutionResult) (h : x.Proper) : ExecutionResult.form.Restores x
  guardDecision (d : GuardDecision) : GuardDecision.form.Restores d
  errorCode (code : ErrorCode) : ErrorCode.form.Restores code
  event (e : Event) (h : e.timestamp.Proper) : Event.form.Restores e

theorem Form.nothingLost : NothingLost where
  instant _ := Instant.restores_iff
  single _ := restores_single_iff
  span _ := ⟨fun h => Span.le_longest_of_read (h _ (.same _)), Span.restores⟩
  message m h := m.restores h
  callRequest := CallRequest.restores
  toolCall _ := ToolCall.restores
  toolResult := ToolResult.restores
  request _ := Request.restores
  commandOptions _ := CommandOptions.restores
  response _ := Response.restores
  chunk := Chunk.restores
  usage := Usage.restores
  executionResult _ := ExecutionResult.restores
  guardDecision := GuardDecision.restores
  errorCode := ErrorCode.restores
  event _ := Event.restores

/-! A request sent in a leap second, and a copy of it that begins at the other end. -/

/-- The temperature is the one that is nearest to a tenth. -/
def Request.weighing : Request where
  model := "m"
  system := ""
  messages := [{ role := .user, content := "How heavy is it?", timestamp := ⟨1483228799, 1000000000⟩ }]
  temperature := FloatFormat.single.round false 1 10
  tools := [{ name := "weigh", description := "", parameters := .object [("a", .null), ("b", .array [])] }]

/-- The temperature is the one of double precision that is nearest to a tenth. -/
def Request.weighingCopy : List (String × Json) :=
  [("model", .string "m"), ("system", .string ""), ("messages", Message.form.list.write weighing.messages),
    ("temperature", .number (.double (FloatFormat.double.round false 1 10))),
    ("tools", .array [.object [("name", .string "weigh"), ("description", .string ""),
      ("parameters", .object [("b", .array []), ("a", .null)])]]),
    ("stream", .bool false)]

private theorem Request.proper_weighing : weighing.Proper where
  messages := by
    intro m hm
    rw [List.mem_singleton.1 hm]
    exact ⟨by decide, by decide⟩
  temperature := by decide
  tools := by
    intro t ht
    rw [List.mem_singleton.1 ht]
    exact ⟨List.pairwise_pair.2 (by decide), trivial, trivial, trivial⟩

private theorem Request.copied_weighing : (Request.form.write weighing).CopiedAs (.object weighingCopy.reverse) := by
  have hparameters : (Json.object [("a", .null), ("b", .array [])]).CopiedAs (.object [("b", .array []), ("a", .null)]) :=
    .object (.cons (.field _ (.same _)) (.cons (.field _ (.same _)) .nil)) (.swap ..)
  have htool := Json.CopiedAs.object (.cons (.field "name" (.same (.string "weigh")))
    (.cons (.field "description" (.same (.string ""))) (.cons (.field "parameters" hparameters) .nil))) (.refl _)
  have htemperature : (FloatFormat.double.round false 1 10).convert .single = FloatFormat.single.round false 1 10 := by
    decide
  refine .object (.cons (.field _ (.same _)) (.cons (.field _ (.same _)) (.cons (.field _ (.same _))
    (.cons (.field _ (.single htemperature)) (.cons (.field _ (.array (.cons htool .nil)))
    (.cons (.field _ (.same _)) .nil)))))) (List.reverse_perm weighingCopy).symm

theorem Form.nothingLost_weighing : Request.weighing.Proper ∧
    (Request.form.write Request.weighing).CopiedAs (.object Request.weighingCopy.reverse) ∧
    Request.form.read (.object Request.weighingCopy.reverse) = some Request.weighing :=
  ⟨Request.proper_weighing, Request.copied_weighing,
    nothingLost.request _ Request.proper_weighing _ Request.copied_weighing⟩

end AgentLoop
