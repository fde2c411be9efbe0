import AgentLoop.Config.Load
import Mathlib.Data.Rat.Lemmas
import Mathlib.Tactic.Linarith

/-!
# Ranges

Every configuration that is checked or loaded has its settings in range: from a document, from a file or in place of a
missing one, with the overrides of the environment or without.  Of the temperature this holds only as far as it is a
number, since nothing is below or above what is not a number, and the check looks for what is below or above.
-/

namespace AgentLoop

/-! ### Comparisons -/

namespace Floating

variable {x : Floating}

/-- A number that is neither infinite nor missing, and that satisfies what is asked of its value. -/
def IsNumber (x : Floating) (p : Rat → Prop) : Prop := ∃ negative m e, x = .finite negative m e ∧ p x.value

private theorem not_isNumber_nan (p : Rat → Prop) : ¬ nan.IsNumber p := by
  rintro ⟨_, _, _, hx, -⟩
  cases hx

private theorem not_isNumber_infinite (negative : Bool) (p : Rat → Prop) : ¬ (infinite negative).IsNumber p := by
  rintro ⟨_, _, _, hx, -⟩
  cases hx

private theorem isNumber_finite {negative : Bool} {m : Nat} {e : Int} {p : Rat → Prop} :
    (finite negative m e).IsNumber p ↔ p (finite negative m e).value := by
  constructor
  · rintro ⟨_, _, _, -, hp⟩
    exact hp
  · exact fun hp => ⟨_, _, _, rfl, hp⟩

variable {n n' : Bool} {m m' : Nat} {e e' : Int}

/-- What is neither below the one bound nor above the other lies between them, unless it is not a number. -/
private theorem not_outside_iff :
    (x.lt (.finite n m e) = false ∧ lt (.finite n' m' e') x = false) ↔
      x = .nan ∨ x.IsNumber fun q => (finite n m e).value ≤ q ∧ q ≤ (finite n' m' e').value := by
  cases x with
  | nan => exact ⟨fun _ => .inl rfl, fun _ => ⟨rfl, rfl⟩⟩
  | infinite negative =>
    have habsurd : ¬ (lt (.infinite negative) (.finite n m e) = false ∧
        lt (.finite n' m' e') (.infinite negative) = false) := by
      cases negative <;> simp [lt]
    refine iff_of_false habsurd ?_
    rintro (hx | hx)
    · cases hx
    · exact not_isNumber_infinite negative _ hx
  | finite negative s k =>
    rw [isNumber_finite, or_iff_right (by simp)]
    simp only [lt, decide_eq_false_iff_not, not_lt]

/-- What is at least the one number and below the other is a number itself. -/
private theorem between_iff :
    (le (.finite n m e) x = true ∧ x.lt (.finite n' m' e') = true) ↔
      x.IsNumber fun q => (finite n m e).value ≤ q ∧ q < (finite n' m' e').value := by
  cases x with
  | nan => exact iff_of_false (fun h => absurd h.2 (by simp [lt])) (not_isNumber_nan _)
  | infinite negative =>
    refine iff_of_false ?_ (not_isNumber_infinite negative _)
    cases negative <;> simp [le, lt, isNaN]
  | finite negative s k =>
    rw [isNumber_finite]
    simp only [le, lt, isNaN, Bool.not_false, Bool.true_and, Bool.not_eq_true', decide_eq_false_iff_not, not_lt,
      decide_eq_true_eq]

end Floating

namespace Config

open Floating

variable {c c' : Config} {readerFault : String → String} {path : String} {file : ConfigFile} {o : Overrides}

private theorem value_zero : zero.value = 0 := by decide +kernel

private theorem value_one : one.value = 1 := by decide +kernel

private theorem value_two : two.value = 2 := by decide +kernel

/-! ### The check -/

/-- What the check demands of the settings other than the temperature. -/
structure Limited (c : Config) : Prop where
  maxConcurrent : 1 ≤ c.maxConcurrent
  timeout_pos : 1 ≤ c.timeoutSeconds
  timeout_le : c.timeoutSeconds ≤ 86400
  output_lt : c.context.maxOutputTokens < c.context.maxContextTokens
  maxAttempts : 1 ≤ c.retry.maxAttempts
  jitter : c.retry.jitter.IsNumber fun q => 0 ≤ q ∧ q < 1
  initialDelay_le : c.retry.initialDelayMs ≤ c.retry.maxDelayMs

/-- Every setting is in range. -/
structure InRange (c : Config) : Prop extends Limited c where
  temperature : c.defaultTemperature.IsNumber fun q => 0 ≤ q ∧ q ≤ 2

/-- Every setting is in range, the temperature only if it is a number. -/
structure Admitted (c : Config) : Prop extends Limited c where
  temperature : c.defaultTemperature = .nan ∨ c.defaultTemperature.IsNumber fun q => 0 ≤ q ∧ q ≤ 2

/-- With a number for the temperature, what is admitted is in range. -/
private theorem inRange_iff_admitted : c.InRange ↔ c.Admitted ∧ c.defaultTemperature ≠ .nan := by
  constructor
  · intro h
    refine ⟨⟨h.toLimited, .inr h.temperature⟩, fun hnan => ?_⟩
    exact not_isNumber_nan _ (hnan ▸ h.temperature)
  · rintro ⟨h, hnumber⟩
    exact ⟨h.toLimited, h.temperature.resolve_left hnumber⟩

private theorem temperature_admitted_iff :
    ¬ (c.defaultTemperature.lt zero || two.lt c.defaultTemperature) = true ↔
      c.defaultTemperature = .nan ∨ c.defaultTemperature.IsNumber fun q => 0 ≤ q ∧ q ≤ 2 := by
  rw [Bool.not_eq_true, Bool.or_eq_false_iff, zero, two, not_outside_iff, ← zero, ← two, value_zero, value_two]

private theorem jitter_admitted_iff :
    ¬ (!zero.le c.retry.jitter || !c.retry.jitter.lt one) = true ↔ c.retry.jitter.IsNumber fun q => 0 ≤ q ∧ q < 1 := by
  rw [Bool.not_eq_true, Bool.or_eq_false_iff, Bool.not_eq_false', Bool.not_eq_false', zero, one, between_iff, ← zero,
    ← one, value_zero, value_one]

private theorem ite_fault_eq_none {p : Prop} [Decidable p] {fault : ConfigFault} {rest : Option ConfigFault} :
    (if p then some fault else rest) = none ↔ ¬ p ∧ rest = none := by
  split_ifs with hp
  · exact iff_of_false (by simp) (fun h => h.1 hp)
  · exact (and_iff_right hp).symm

/-- The check lets through what is admitted, and nothing else. -/
theorem fault?_eq_none_iff : c.fault? = none ↔ c.Admitted := by
  unfold fault?
  have hconcurrent : ¬ c.maxConcurrent = 0 ↔ 1 ≤ c.maxConcurrent := by grind
  have htimeout : ¬ c.timeoutSeconds = 0 ↔ 1 ≤ c.timeoutSeconds := by grind
  have hattempts : ¬ c.retry.maxAttempts = 0 ↔ 1 ≤ c.retry.maxAttempts := by grind
  simp only [ite_fault_eq_none, temperature_admitted_iff, jitter_admitted_iff, hconcurrent, htimeout, hattempts,
    UInt32.not_le, UInt64.not_lt, and_true]
  constructor
  · rintro ⟨htemperature, hconcurrent, htimeout, hday, houtput, hattempts, hjitter, hdelays⟩
    exact ⟨⟨hconcurrent, htimeout, hday, houtput, hattempts, hjitter, hdelays⟩, htemperature⟩
  · intro h
    exact ⟨h.temperature, h.maxConcurrent, h.timeout_pos, h.timeout_le, h.output_lt, h.maxAttempts, h.jitter,
      h.initialDelay_le⟩

/-! ### Loading -/

theorem checked_ok_iff : c.checked = .ok c' ↔ c' = c ∧ c.Admitted := by
  rw [← fault?_eq_none_iff]
  unfold checked
  cases c.fault? with
  | none => simp [eq_comm]
  | some fault => simp

private theorem admitted_of_checked (h : c.checked = .ok c') : c'.Admitted := by
  obtain ⟨rfl, hadmitted⟩ := checked_ok_iff.1 h
  exact hadmitted

private theorem admitted_of_read {s : String} (h : read readerFault s = .ok c) : c.Admitted := by
  unfold read at h
  split at h
  · exact admitted_of_checked h
  · cases h

/-- The defaults pass the check that they are not put to. -/
private theorem admitted_default : ({} : Config).Admitted := fault?_eq_none_iff.1 (by decide +kernel)

private theorem admitted_of_ofFile (h : ofFile readerFault path file = .ok c) : c.Admitted := by
  cases file with
  | missing =>
    cases h
    exact admitted_default
  | unreadable => cases h
  | text content =>
    rw [ofFile] at h
    cases hread : read readerFault content with
    | error e =>
      rw [hread] at h
      cases h
    | ok found =>
      rw [hread] at h
      cases h
      exact admitted_of_read hread

theorem exists_of_bind_eq_ok {ε α β : Type} {x : Except ε α} {f : α → Except ε β} {b : β} (h : x.bind f = .ok b) :
    ∃ a, x = .ok a ∧ f a = .ok b := by
  cases x with
  | error e => cases h
  | ok a => exact ⟨a, rfl, h⟩

/-- What the overrides change is checked once more. -/
private theorem admitted_of_load (h : load readerFault path file o = .ok c) : c.Admitted := by
  have hload : load readerFault path file o =
      (ofFile readerFault path file).bind fun c => (c.override o).bind checked := rfl
  rw [hload] at h
  obtain ⟨found, -, h⟩ := exists_of_bind_eq_ok h
  obtain ⟨overridden, -, h⟩ := exists_of_bind_eq_ok h
  exact admitted_of_checked h

/-- What it means for a configuration to be checked or loaded. -/
structure RangesKept (c : Config) : Prop where
  fault?_eq_none_iff : c.fault? = none ↔ c.Admitted
  /-- A number for the temperature is all that what passes the check may lack. -/
  inRange_iff : c.InRange ↔ c.fault? = none ∧ c.defaultTemperature ≠ .nan
  read {readerFault : String → String} {s : String} (h : Config.read readerFault s = .ok c) : c.Admitted
  ofFile {readerFault : String → String} {path : String} {file : ConfigFile}
    (h : Config.ofFile readerFault path file = .ok c) : c.Admitted
  load {readerFault : String → String} {path : String} {file : ConfigFile} {o : Overrides}
    (h : Config.load readerFault path file o = .ok c) : c.Admitted

/-- Whatever is checked or loaded has its settings in range, the temperature as far as it is a number. -/
theorem rangesKept (c : Config) : c.RangesKept where
  fault?_eq_none_iff := fault?_eq_none_iff
  inRange_iff := by
    rw [fault?_eq_none_iff]
    exact inRange_iff_admitted
  read := admitted_of_read
  ofFile := admitted_of_ofFile
  load := admitted_of_load

/-- A document may set the temperature to what is not a number. -/
theorem not_inRange_of_read : ¬ ∀ readerFault s c, read readerFault s = .ok c → c.InRange := by
  intro hranges
  have hread : (read id "default_temperature = nan").toOption = some { defaultTemperature := .nan } := by decide +kernel
  cases h : read id "default_temperature = nan" with
  | error e =>
    rw [h] at hread
    cases hread
  | ok c =>
    rw [h] at hread
    cases hread
    exact not_isNumber_nan _ (hranges _ _ _ h).temperature

end Config

end AgentLoop
