import AgentLoop.Proofs.Numerals
import AgentLoop.Proofs.Ranges

/-!
# Overrides and the order of errors

A configuration is loaded from what is found at its path and from the variables that override it.  Each variable that is
set replaces its own setting and no other; those of numbers must spell one, blanks around it aside, that fits its type.
Of several things that are wrong, the one that is told is the first in the order in which they are read: what was found,
the variables one after the other, and at last the settings in place of which the overrides stand.
-/

namespace AgentLoop

/-! ### Settings that are numbers -/

/-- The variable of a setting that is a number, and what the numbers of its type are below. -/
structure NumericSetting where
  key : String
  limit : Nat

namespace NumericSetting

def maxToolCalls : NumericSetting := ⟨"REAGENT_MAX_TOOL_CALLS", UInt32.size⟩
def timeoutSeconds : NumericSetting := ⟨"REAGENT_TIMEOUT_SECS", UInt64.size⟩
def maxConcurrent : NumericSetting := ⟨"REAGENT_MAX_CONCURRENT", UInt64.size⟩

/-- The settings that are numbers, in the order in which they are read. -/
def all : List NumericSetting := [maxToolCalls, timeoutSeconds, maxConcurrent]

def read (s : NumericSetting) (env : Environment) : Except ConfigError (Option Nat) :=
  Config.override? s.limit s.key (env s.key)

/-- Either the variable is not set, or it spells a number that fits. -/
def Readable (s : NumericSetting) (env : Environment) : Prop :=
  ∀ text, env s.key = some text → ∃ n < s.limit, Spells text n

variable {s : NumericSetting} {env : Environment}

private theorem readNatural?_eq_none_iff {limit : Nat} {text : String} :
    readNatural? limit (Text.trim text) = none ↔ ¬ ∃ n < limit, Spells text n := by
  rw [Option.eq_none_iff_forall_ne_some]
  constructor
  · rintro hnone ⟨n, hlimit, hspells⟩
    exact hnone n (readNatural?_trim_eq_some_iff.2 ⟨hspells, hlimit⟩)
  · intro hnone n hread
    obtain ⟨hspells, hlimit⟩ := readNatural?_trim_eq_some_iff.1 hread
    exact hnone ⟨n, hlimit, hspells⟩

private theorem read_of_not_set (h : env s.key = none) : s.read env = .ok none := by
  rw [read, h, Config.override?]

private theorem read_of_set {text : String} (h : env s.key = some text) :
    (∃ n < s.limit, Spells text n ∧ s.read env = .ok (some n)) ∨
      (¬ ∃ n < s.limit, Spells text n) ∧ s.read env = .error (.badOverride s.key text) := by
  rw [read, h, Config.override?]
  cases hread : readNatural? s.limit (Text.trim text) with
  | none => exact .inr ⟨readNatural?_eq_none_iff.1 hread, rfl⟩
  | some n =>
    obtain ⟨hspells, hlimit⟩ := readNatural?_trim_eq_some_iff.1 hread
    exact .inl ⟨n, hlimit, hspells, rfl⟩

/-- What cannot be read is told as it stands in the environment. -/
private theorem read_eq_error_iff {e : ConfigError} : s.read env = .error e ↔
    ∃ text, env s.key = some text ∧ (¬ ∃ n < s.limit, Spells text n) ∧ e = .badOverride s.key text := by
  cases hset : env s.key with
  | none =>
    rw [read_of_not_set hset]
    simp
  | some text =>
    rcases read_of_set hset with ⟨n, hlimit, hspells, hread⟩ | ⟨hbad, hread⟩
    · rw [hread]
      refine iff_of_false (by simp) ?_
      rintro ⟨_, ⟨⟩, hbad, -⟩
      exact hbad ⟨n, hlimit, hspells⟩
    · rw [hread]
      constructor
      · rintro ⟨⟩
        exact ⟨text, rfl, hbad, rfl⟩
      · rintro ⟨_, ⟨⟩, -, rfl⟩
        rfl

private theorem of_read_eq_ok {n? : Option Nat} (h : s.read env = .ok n?) :
    (env s.key = none ∧ n? = none) ∨
      ∃ text n, env s.key = some text ∧ n < s.limit ∧ Spells text n ∧ n? = some n := by
  cases hset : env s.key with
  | none =>
    rw [read_of_not_set hset] at h
    cases h
    exact .inl ⟨rfl, rfl⟩
  | some text =>
    rcases read_of_set hset with ⟨n, hlimit, hspells, hread⟩ | ⟨-, herror⟩
    · rw [hread] at h
      cases h
      exact .inr ⟨text, n, rfl, hlimit, hspells, rfl⟩
    · rw [herror] at h
      cases h

private theorem readable_iff : s.Readable env ↔ ∃ n?, s.read env = .ok n? := by
  constructor
  · intro h
    cases hread : s.read env with
    | ok n? => exact ⟨n?, rfl⟩
    | error e =>
      obtain ⟨text, hset, hbad, -⟩ := read_eq_error_iff.1 hread
      exact absurd (h text hset) hbad
  · rintro ⟨n?, hread⟩ text hset
    rcases of_read_eq_ok hread with ⟨hnone, -⟩ | ⟨text', n, hset', hlimit, hspells, -⟩
    · rw [hnone] at hset
      cases hset
    · rw [hset'] at hset
      cases hset
      exact ⟨n, hlimit, hspells⟩

private theorem lt_of_read {n : Nat} (h : s.read env = .ok (some n)) : n < s.limit := by
  rcases of_read_eq_ok h with ⟨-, ⟨⟩⟩ | ⟨_, _, -, hlimit, -, ⟨⟩⟩
  exact hlimit

/-- The new number is the one that the variable spells, or the old one where it is not set. -/
def Sets (s : NumericSetting) (env : Environment) (old new : Nat) : Prop :=
  match env s.key with
  | none => new = old
  | some text => Spells text new

private theorem sets_of_read {n? : Option Nat} (h : s.read env = .ok n?) (old : Nat) :
    s.Sets env old (n?.getD old) := by
  unfold Sets
  rcases of_read_eq_ok h with ⟨hset, rfl⟩ | ⟨text, n, hset, -, hspells, rfl⟩
  · rw [hset]
    rfl
  · rw [hset]
    exact hspells

/-- A number that was read fits its word, so that it is what the word holds. -/
private theorem sets_word {α : Type} (toNat : α → Nat) (ofNat : Nat → α) (hword : ∀ n < s.limit, toNat (ofNat n) = n)
    {n? : Option Nat} (h : s.read env = .ok n?) (old : α) :
    s.Sets env (toNat old) (toNat ((n?.map ofNat).getD old)) := by
  cases n? with
  | none => exact sets_of_read h (toNat old)
  | some n =>
    show s.Sets env (toNat old) (toNat (ofNat n))
    rw [hword n (lt_of_read h)]
    exact sets_of_read h (toNat old)

private theorem Sets.unique {old m n : Nat} (hm : s.Sets env old m) (hn : s.Sets env old n) : m = n := by
  unfold Sets at hm hn
  cases hset : env s.key with
  | none =>
    rw [hset] at hm hn
    exact hm.trans hn.symm
  | some text =>
    rw [hset] at hm hn
    exact Spells.unique hm hn

private theorem Sets.readable {old new : Nat} (h : s.Sets env old new) (hlimit : new < s.limit) : s.Readable env := by
  intro text hset
  rw [Sets, hset] at h
  exact ⟨new, hlimit, h⟩

end NumericSetting

/-! ### What is loaded -/

section Errors

variable {ε α β : Type} {e : ε}

private theorem bind_eq_error_iff {x : Except ε α} {f : α → Except ε β} :
    (x >>= f) = .error e ↔ x = .error e ∨ ∃ a, x = .ok a ∧ f a = .error e := by
  cases x with
  | error e' =>
    show Except.error e' = .error e ↔ _
    simp
  | ok a =>
    show f a = .error e ↔ _
    simp

private theorem pure_ne_error (a : α) : ¬ (pure a : Except ε α) = .error e := by
  intro h
  cases h

/-- A run through a list fails with what the first in it fails with that does. -/
private theorem mapM_eq_error_iff {f : α → Except ε β} {l : List α} : l.mapM f = .error e ↔
    ∃ before a after, l = before ++ a :: after ∧ (∀ x ∈ before, ∃ b, f x = .ok b) ∧ f a = .error e := by
  induction l with
  | nil => simp [pure_ne_error]
  | cons x l ih =>
    simp only [List.mapM_cons, bind_eq_error_iff, pure_ne_error, and_false, exists_false, or_false, ih]
    constructor
    · rintro (hx | ⟨b, hx, before, a, after, rfl, hbefore, ha⟩)
      · exact ⟨[], x, l, rfl, by simp, hx⟩
      · exact ⟨x :: before, a, after, rfl, List.forall_mem_cons.2 ⟨⟨b, hx⟩, hbefore⟩, ha⟩
    · rintro ⟨before, a, after, hsplit, hbefore, ha⟩
      cases before with
      | nil =>
        cases hsplit
        exact .inl ha
      | cons y before =>
        cases hsplit
        obtain ⟨⟨b, hx⟩, hbefore⟩ := List.forall_mem_cons.1 hbefore
        exact .inr ⟨b, hx, before, a, after, rfl, hbefore, ha⟩

end Errors

namespace Environment

open NumericSetting

/-- The settings that are set in the environment stand in place of those that were found, and the others are left. -/
structure Overridden (env : Environment) (found c : Config) : Prop where
  defaultModel : c.defaultModel = (env "REAGENT_MODEL").getD found.defaultModel
  maxToolCalls : maxToolCalls.Sets env found.maxToolCalls.toNat c.maxToolCalls.toNat
  timeoutSeconds : timeoutSeconds.Sets env found.timeoutSeconds.toNat c.timeoutSeconds.toNat
  maxConcurrent : maxConcurrent.Sets env found.maxConcurrent.toNat c.maxConcurrent.toNat
  defaultTemperature : c.defaultTemperature = found.defaultTemperature
  context : c.context = found.context
  retry : c.retry = found.retry
  retrieval : c.retrieval = found.retrieval

variable {env : Environment} {found c c' : Config} {e : ConfigError}

private theorem Overridden.unique (h : env.Overridden found c) (h' : env.Overridden found c') : c = c' := by
  have hmodel := h.defaultModel.trans h'.defaultModel.symm
  have hcalls := UInt32.toNat_inj.1 (h.maxToolCalls.unique h'.maxToolCalls)
  have htimeout := UInt64.toNat_inj.1 (h.timeoutSeconds.unique h'.timeoutSeconds)
  have hconcurrent := UInt64.toNat_inj.1 (h.maxConcurrent.unique h'.maxConcurrent)
  have htemperature := h.defaultTemperature.trans h'.defaultTemperature.symm
  have hcontext := h.context.trans h'.context.symm
  have hretry := h.retry.trans h'.retry.symm
  have hretrieval := h.retrieval.trans h'.retrieval.symm
  cases c
  cases c'
  congr

private theorem Overridden.readable (h : env.Overridden found c) : ∀ s ∈ NumericSetting.all, s.Readable env := by
  intro s hs
  simp only [NumericSetting.all, List.mem_cons, List.not_mem_nil, or_false] at hs
  rcases hs with rfl | rfl | rfl
  · exact h.maxToolCalls.readable (UInt32.toNat_lt_size _)
  · exact h.timeoutSeconds.readable (UInt64.toNat_lt_size _)
  · exact h.maxConcurrent.readable (UInt64.toNat_lt_size _)

private theorem override_eq (found : Config) (env : Environment) : found.override env.overrides = do
    let calls ← NumericSetting.maxToolCalls.read env
    let timeout ← NumericSetting.timeoutSeconds.read env
    let concurrent ← NumericSetting.maxConcurrent.read env
    return { found with
      defaultModel := (env "REAGENT_MODEL").getD found.defaultModel
      maxToolCalls := (calls.map UInt32.ofNat).getD found.maxToolCalls
      timeoutSeconds := (timeout.map UInt64.ofNat).getD found.timeoutSeconds
      maxConcurrent := (concurrent.map UInt64.ofNat).getD found.maxConcurrent } := rfl

private theorem overridden_of_override (h : found.override env.overrides = .ok c) : env.Overridden found c := by
  rw [override_eq] at h
  obtain ⟨calls, hcalls, h⟩ := Config.exists_of_bind_eq_ok h
  obtain ⟨timeout, htimeout, h⟩ := Config.exists_of_bind_eq_ok h
  obtain ⟨concurrent, hconcurrent, h⟩ := Config.exists_of_bind_eq_ok h
  cases h
  refine ⟨rfl, ?_, ?_, ?_, rfl, rfl, rfl, rfl⟩
  · exact sets_word UInt32.toNat UInt32.ofNat (fun _ => UInt32.toNat_ofNat_of_lt) hcalls _
  · exact sets_word UInt64.toNat UInt64.ofNat (fun _ => UInt64.toNat_ofNat_of_lt) htimeout _
  · exact sets_word UInt64.toNat UInt64.ofNat (fun _ => UInt64.toNat_ofNat_of_lt) hconcurrent _

private theorem override_fails_iff :
    found.override env.overrides = .error e ↔ NumericSetting.all.mapM (read · env) = .error e := by
  simp only [override_eq, NumericSetting.all, List.mapM_cons, List.mapM_nil, bind_eq_error_iff, pure_ne_error,
    and_false, exists_false, or_false]

/-- The first of the settings that cannot be read is told. -/
private theorem override_eq_error_iff : found.override env.overrides = .error e ↔
    ∃ before s after text, NumericSetting.all = before ++ s :: after ∧ (∀ t ∈ before, t.Readable env) ∧
      env s.key = some text ∧ (¬ ∃ n < s.limit, Spells text n) ∧ e = .badOverride s.key text := by
  rw [override_fails_iff, mapM_eq_error_iff]
  simp only [← readable_iff, read_eq_error_iff, exists_and_left]

private theorem exists_override_of_readable (h : ∀ s ∈ NumericSetting.all, s.Readable env) :
    ∃ c, found.override env.overrides = .ok c := by
  cases hover : found.override env.overrides with
  | ok c => exact ⟨c, rfl⟩
  | error e =>
    obtain ⟨before, s, after, text, hsplit, -, hset, hbad, -⟩ := override_eq_error_iff.1 hover
    have hmem : s ∈ NumericSetting.all := hsplit ▸ List.mem_append_right _ (List.mem_cons_self ..)
    exact absurd (h s hmem text hset) hbad

private theorem exists_overridden_iff : (∃ c, env.Overridden found c) ↔ ∀ s ∈ NumericSetting.all, s.Readable env := by
  constructor
  · rintro ⟨c, h⟩
    exact h.readable
  · intro h
    obtain ⟨c, hover⟩ := exists_override_of_readable h
    exact ⟨c, overridden_of_override hover⟩

private theorem override_eq_ok_iff : found.override env.overrides = .ok c ↔ env.Overridden found c := by
  refine ⟨overridden_of_override, fun h => ?_⟩
  obtain ⟨c', hover⟩ := exists_override_of_readable h.readable
  rw [hover, (overridden_of_override hover).unique h]

/-- What is wrong with a file by itself; an error of reading it has its path. -/
inductive FileFault (readerFault : String → String) (path : String) : ConfigFile → ConfigError → Prop where
  | unreadable {reason : String} : FileFault readerFault path (.unreadable reason) (.unreadable path reason)
  | malformed {content : String} (hdocument : (Toml.read content).bind Config.ofDocument? = none) :
    FileFault readerFault path (.text content) (.malformed path (readerFault content))
  | outOfRange {content : String} {c : Config} {fault : ConfigFault}
    (hdocument : (Toml.read content).bind Config.ofDocument? = some c) (hfault : c.fault? = some fault) :
    FileFault readerFault path (.text content) (.outOfRange fault)

/-- The first of the things that are wrong: in what was found, in the variables, or in what they make of it. -/
inductive FirstFault (env : Environment) (readerFault : String → String) (file : ConfigFile) : ConfigError → Prop where
  | found {e : ConfigError} (he : Config.ofFile readerFault env.configPath file = .error e) :
    FirstFault env readerFault file e
  | setting {found : Config} {before after : List NumericSetting} {s : NumericSetting} {text : String}
      (hfound : Config.ofFile readerFault env.configPath file = .ok found) (hsplit : NumericSetting.all = before ++ s :: after)
      (hbefore : ∀ t ∈ before, t.Readable env) (hset : env s.key = some text)
      (hbad : ¬ ∃ n < s.limit, Spells text n) : FirstFault env readerFault file (.badOverride s.key text)
  | merged {found c : Config} {fault : ConfigFault} (hfound : Config.ofFile readerFault env.configPath file = .ok found)
      (hmerged : env.Overridden found c) (hfault : c.fault? = some fault) :
      FirstFault env readerFault file (.outOfRange fault)

private theorem load_eq (env : Environment) (readerFault : String → String) (files : String → ConfigFile) :
    env.load readerFault files = Config.ofFile readerFault env.configPath (files env.configPath) >>= fun found =>
      found.override env.overrides >>= Config.checked := rfl

private theorem checked_eq_error_iff :
    c.checked = .error e ↔ ∃ fault, c.fault? = some fault ∧ e = .outOfRange fault := by
  unfold Config.checked
  cases c.fault? with
  | none => simp
  | some fault => simp [eq_comm]

private theorem read_eq_error_iff {readerFault : String → String} {content : String} :
    Config.read readerFault content = .error e ↔
      ((Toml.read content).bind Config.ofDocument? = none ∧ e = .malformed "<inline>" (readerFault content)) ∨
        ∃ c fault, (Toml.read content).bind Config.ofDocument? = some c ∧ c.fault? = some fault ∧
          e = .outOfRange fault := by
  unfold Config.read
  cases (Toml.read content).bind Config.ofDocument? with
  | none => simp [eq_comm]
  | some c => simp [checked_eq_error_iff]

private theorem mapError_eq_error_iff {ε ε' α : Type} {x : Except ε α} {f : ε → ε'} {e : ε'} :
    x.mapError f = .error e ↔ ∃ e', x = .error e' ∧ f e' = e := by
  cases x <;> simp [Except.mapError]

private theorem ofFile_eq_error_iff {readerFault : String → String} {path : String} {file : ConfigFile} :
    Config.ofFile readerFault path file = .error e ↔ FileFault readerFault path file e := by
  constructor
  · intro h
    cases file with
    | missing => cases h
    | unreadable reason =>
      cases h
      exact .unreadable
    | text content =>
      obtain ⟨e', hread, rfl⟩ := mapError_eq_error_iff.1 h
      rcases read_eq_error_iff.1 hread with ⟨hdocument, rfl⟩ | ⟨c, fault, hdocument, hfault, rfl⟩
      · exact .malformed hdocument
      · exact .outOfRange hdocument hfault
  · intro h
    cases h with
    | unreadable => rfl
    | malformed hdocument =>
      exact mapError_eq_error_iff.2 ⟨_, read_eq_error_iff.2 (.inl ⟨hdocument, rfl⟩), rfl⟩
    | outOfRange hdocument hfault =>
      exact mapError_eq_error_iff.2 ⟨_, read_eq_error_iff.2 (.inr ⟨_, _, hdocument, hfault, rfl⟩), rfl⟩

private theorem load_eq_ok_iff {readerFault : String → String} {files : String → ConfigFile} :
    env.load readerFault files = .ok c ↔ ∃ found,
      Config.ofFile readerFault env.configPath (files env.configPath) = .ok found ∧ env.Overridden found c ∧
        c.fault? = none := by
  rw [load_eq]
  constructor
  · intro h
    obtain ⟨found, hfound, h⟩ := Config.exists_of_bind_eq_ok h
    obtain ⟨merged, hmerged, h⟩ := Config.exists_of_bind_eq_ok h
    obtain ⟨rfl, hadmitted⟩ := Config.checked_ok_iff.1 h
    exact ⟨found, hfound, overridden_of_override hmerged, Config.fault?_eq_none_iff.2 hadmitted⟩
  · rintro ⟨found, hfound, hmerged, hfault⟩
    rw [hfound]
    show (found.override env.overrides >>= Config.checked) = .ok c
    rw [override_eq_ok_iff.2 hmerged]
    exact Config.checked_ok_iff.2 ⟨rfl, Config.fault?_eq_none_iff.1 hfault⟩

private theorem load_eq_error_iff {readerFault : String → String} {files : String → ConfigFile} :
    env.load readerFault files = .error e ↔ env.FirstFault readerFault (files env.configPath) e := by
  rw [load_eq, bind_eq_error_iff]
  constructor
  · rintro (hfound | ⟨found, hfound, h⟩)
    · exact .found hfound
    · rcases bind_eq_error_iff.1 h with hover | ⟨merged, hmerged, h⟩
      · obtain ⟨before, s, after, text, hsplit, hbefore, hset, hbad, rfl⟩ := override_eq_error_iff.1 hover
        exact .setting hfound hsplit hbefore hset hbad
      · obtain ⟨fault, hfault, rfl⟩ := checked_eq_error_iff.1 h
        exact .merged hfound (override_eq_ok_iff.1 hmerged) hfault
  · intro h
    cases h with
    | found hfound => exact .inl hfound
    | setting hfound hsplit hbefore hset hbad =>
      refine .inr ⟨_, hfound, bind_eq_error_iff.2 (.inl ?_)⟩
      exact override_eq_error_iff.2 ⟨_, _, _, _, hsplit, hbefore, hset, hbad, rfl⟩
    | merged hfound hmerged hfault =>
      refine .inr ⟨_, hfound, bind_eq_error_iff.2 (.inr ⟨_, override_eq_ok_iff.2 hmerged, ?_⟩)⟩
      exact checked_eq_error_iff.2 ⟨_, hfault, rfl⟩

/-- What is loaded in an environment, or told instead. -/
structure Loads (env : Environment) (readerFault : String → String) (files : String → ConfigFile) : Prop where
  /-- What was found is overridden, and passes the check. -/
  ok_iff (c : Config) : env.load readerFault files = .ok c ↔ ∃ found,
    Config.ofFile readerFault env.configPath (files env.configPath) = .ok found ∧ env.Overridden found c ∧
      c.fault? = none
  error_iff (e : ConfigError) :
    env.load readerFault files = .error e ↔ env.FirstFault readerFault (files env.configPath) e
  /-- What comes first in that is what is wrong with the file by itself. -/
  file_error_iff (e : ConfigError) : Config.ofFile readerFault env.configPath (files env.configPath) = .error e ↔
    FileFault readerFault env.configPath (files env.configPath) e
  /-- The overrides can be put in place as soon as the numbers among them can be read, -/
  readable (found : Config) : (∃ c, env.Overridden found c) ↔ ∀ s ∈ NumericSetting.all, s.Readable env
  /-- and in one way only. -/
  unique {found c c' : Config} (h : env.Overridden found c) (h' : env.Overridden found c') : c = c'

/-- Whatever is found at its path, a configuration is loaded with the overrides in place, or the first fault told. -/
theorem loads (env : Environment) (readerFault : String → String) (files : String → ConfigFile) :
    env.Loads readerFault files where
  ok_iff _ := load_eq_ok_iff
  error_iff _ := load_eq_error_iff
  file_error_iff _ := ofFile_eq_error_iff
  readable _ := exists_overridden_iff
  unique := Overridden.unique

end Environment

end AgentLoop
