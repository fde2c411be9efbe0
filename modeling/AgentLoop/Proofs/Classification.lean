import AgentLoop.Engine
import Mathlib.Data.List.Find

/-!
# Context can only raise a classification

The codes that messages are classified by are ordered as their phrases are looked for.  A phrase that occurs in a text
occurs in every text around it, so more text can bring in a phrase of a higher code but never lose one; and since the
wording of an error stands around the text that it carries, each kind of error has a code below which no text can bring
it.  None of this depends on what lower case makes of letters outside ASCII, in particular not on the letters whose
lower case depends on their neighbours.
-/

namespace AgentLoop

namespace ErrorCode

/-! ### The order of codes -/

/-- The place of a code among those that a message can be classified by. -/
def rank? : ErrorCode → Option Nat
  | rateLimited => some 5
  | timeout => some 4
  | contextTooLong => some 3
  | toolError => some 2
  | invalidResponse => some 1
  | unknown => some 0
  | rejected => none

/-- Both codes have a place, and the first is not below the second. -/
def AtLeast (code floor : ErrorCode) : Prop := ∃ m ∈ code.rank?, ∃ n ∈ floor.rank?, n ≤ m

instance (code floor : ErrorCode) : Decidable (AtLeast code floor) :=
  inferInstanceAs (Decidable (∃ m ∈ code.rank?, ∃ n ∈ floor.rank?, n ≤ m))

variable {code floor : ErrorCode}

private theorem AtLeast.trans {a b c : ErrorCode} (h : AtLeast a b) (h' : AtLeast b c) : AtLeast a c := by
  obtain ⟨m, ha, n, hb, hle⟩ := h
  obtain ⟨n', hb', k, hc, hle'⟩ := h'
  obtain rfl : n = n' := Option.some.inj (hb.symm.trans hb')
  exact ⟨m, ha, k, hc, Nat.le_trans hle' hle⟩

private theorem atLeast_unknown (h : code ≠ rejected) : AtLeast code unknown := by
  cases code with
  | rejected => exact absurd rfl h
  | _ => decide

/-- Nothing is above a rate limit. -/
private theorem eq_rateLimited_of_atLeast (h : AtLeast code rateLimited) : code = rateLimited := by
  cases code with
  | rateLimited => rfl
  | _ => exact absurd h (by decide)

private theorem ne_unknown_of_atLeast_invalidResponse (h : AtLeast code invalidResponse) : code ≠ unknown := by
  rintro rfl
  exact absurd h (by decide)

/-! ### What the phrases decide -/

/-- A text that is in lower case already, classified by the phrases that occur in it. -/
def ofLowered (text : List Char) : ErrorCode :=
  match phrases.find? fun group => group.2.any fun phrase => Text.occurs phrase.toList text with
  | some group => group.1
  | none => unknown

/-- A phrase of a code, or of a code that is looked for earlier, occurs in a text in lower case. -/
def Hints (code : ErrorCode) (text : List Char) : Prop :=
  ∃ group ∈ phrases, AtLeast group.1 code ∧ ∃ phrase ∈ group.2, phrase.toList <:+: text

private theorem phrases_descending : phrases.Pairwise fun a b => AtLeast a.1 b.1 := by decide

private theorem any_occurs_iff {group : ErrorCode × List String} {text : List Char} :
    (group.2.any fun phrase => Text.occurs phrase.toList text) = true ↔
      ∃ phrase ∈ group.2, phrase.toList <:+: text := by
  simp only [List.any_eq_true, Text.occurs_iff]

private theorem atLeast_ofLowered_of_hints {text : List Char} (h : Hints code text) :
    AtLeast (ofLowered text) code := by
  obtain ⟨group, hgroup, hcode, hphrase⟩ := h
  have hfound := any_occurs_iff.2 hphrase
  unfold ofLowered
  split
  · rename_i first hfirst
    -- the group that is found comes no later than the one that is known to occur
    obtain ⟨-, before, after, hsplit, hbefore⟩ := List.find?_eq_some_iff_append.1 hfirst
    have hdescending := phrases_descending
    rw [hsplit] at hgroup hdescending
    rcases List.mem_append.1 hgroup with hin | hin
    · have hmissed := hbefore group hin
      rw [hfound] at hmissed
      cases hmissed
    · rcases List.mem_cons.1 hin with rfl | hin
      · exact hcode
      · exact ((List.pairwise_cons.1 (List.pairwise_append.1 hdescending).2.1).1 group hin).trans hcode
  · rename_i hnone
    exact absurd hfound (List.find?_eq_none.1 hnone group hgroup)

private theorem hints_of_ofLowered_ne {text : List Char} (h : ofLowered text ≠ unknown) :
    Hints (ofLowered text) text := by
  unfold ofLowered at h ⊢
  split
  · rename_i group hgroup
    have hmem : group ∈ phrases := List.mem_of_find?_eq_some hgroup
    have hself : ∀ group ∈ phrases, AtLeast group.1 group.1 := by decide
    exact ⟨group, hmem, hself group hmem, any_occurs_iff.1 (List.find?_eq_some_iff_append.1 hgroup).1⟩
  · rename_i hnone
    rw [hnone] at h
    exact absurd rfl h

private theorem ofLowered_ne_rejected (text : List Char) : ofLowered text ≠ rejected := by
  intro h
  have hhints : Hints (ofLowered text) text := hints_of_ofLowered_ne (by rw [h]; decide)
  obtain ⟨group, hgroup, hcode, -⟩ := hhints
  rw [h] at hcode
  obtain ⟨m, -, n, hn, -⟩ := hcode
  cases hn

/-- What is said in a part of a text is said in the whole. -/
private theorem Hints.within {text whole : List Char} (h : Hints code text) (hpart : text <:+: whole) :
    Hints code whole := by
  obtain ⟨group, hgroup, hcode, phrase, hphrase, hin⟩ := h
  exact ⟨group, hgroup, hcode, phrase, hphrase, hin.trans hpart⟩

private theorem ofLowered_mono {text whole : List Char} (h : text <:+: whole) :
    AtLeast (ofLowered whole) (ofLowered text) := by
  by_cases hunknown : ofLowered text = unknown
  · rw [hunknown]
    exact atLeast_unknown (ofLowered_ne_rejected whole)
  · exact atLeast_ofLowered_of_hints ((hints_of_ofLowered_ne hunknown).within h)

/-! ### Messages and what stands around them -/

private theorem ofMessage_eq (message : String) : ofMessage message = ofLowered (message.toList.flatMap lower) := rfl

private theorem ofMessage_mono (before message after : String) :
    AtLeast (ofMessage (before ++ message ++ after)) (ofMessage message) := by
  rw [ofMessage_eq, ofMessage_eq]
  refine ofLowered_mono ⟨before.toList.flatMap lower, after.toList.flatMap lower, ?_⟩
  rw [String.toList_append, String.toList_append, List.flatMap_append, List.flatMap_append]

/-! ### Other lower cases -/

/-- Text in lower case.  A character may become something else in other surroundings, but characters of ASCII and the
two others with a lower case that holds a letter of ASCII always become the same, and no other becomes one of ASCII. -/
structure LowerCase where
  /-- What becomes of a character between what stands before it and what follows. -/
  lower : List Char → Char → List Char → List Char
  ascii (before after : List Char) {c : Char} (h : c.toNat < 0x80) : lower before c after = [c.toLower]
  kelvin (before after : List Char) : lower before '\u212a' after = ['k']
  dottedI (before after : List Char) : lower before '\u0130' after = ['i', '\u0307']
  other (before after : List Char) {c : Char} (h : 0x80 ≤ c.toNat) (hk : c ≠ '\u212a') (hi : c ≠ '\u0130') :
    ∃ d, lower before c after = [d] ∧ 0x80 ≤ d.toNat

private theorem lower_of_ascii {c : Char} (h : c.toNat < 0x80) : lower c = [c.toLower] := by
  have hk : c ≠ '\u212a' := fun heq => absurd (heq ▸ h) (by decide)
  have hi : c ≠ '\u0130' := fun heq => absurd (heq ▸ h) (by decide)
  rw [lower, if_neg hk, if_neg hi]

private theorem lower_of_other {c : Char} (h : 0x80 ≤ c.toNat) (hk : c ≠ '\u212a') (hi : c ≠ '\u0130') :
    lower c = [c] := by
  have hcapital : ¬ (c.val ≥ 'A'.val ∧ c.val ≤ 'Z'.val) := fun hc => by
    have hle : c.toNat ≤ 0x5a := UInt32.le_iff_toNat_le.1 hc.2
    omega
  have hlower : c.toLower = c := dif_neg hcapital
  rw [lower, if_neg hk, if_neg hi, hlower]

namespace LowerCase

/-- The text that follows after what stands before it, in lower case. -/
def text (l : LowerCase) (before : List Char) : List Char → List Char
  | [] => []
  | c :: after => l.lower before c after ++ l.text (before ++ [c]) after

/-- A message classified by the phrases that occur in it in this lower case. -/
def classify (l : LowerCase) (message : String) : ErrorCode := ofLowered (l.text [] message.toList)

/-- The sigma has a lower case of its own at the end of a word. -/
def greek (isLetter : Char → Bool) : LowerCase where
  lower before c after :=
    if c = '\u03a3' then
      if before.getLast?.any isLetter && !after.head?.any isLetter then ['\u03c2'] else ['\u03c3']
    else ErrorCode.lower c
  ascii _ _ c h := by
    have hsigma : c ≠ '\u03a3' := fun heq => absurd (heq ▸ h) (by decide)
    rw [if_neg hsigma, lower_of_ascii h]
  kelvin _ _ := rfl
  dottedI _ _ := rfl
  other before after c h hk hi := by
    split_ifs
    · exact ⟨_, rfl, by decide⟩
    · exact ⟨_, rfl, by decide⟩
    · exact ⟨c, lower_of_other h hk hi, h⟩

end LowerCase

/-- All characters outside ASCII are one. -/
def mask (c : Char) : Char := if c.toNat < 0x80 then c else '\u0080'

private theorem beq_mask {p : Char} (hp : p.toNat < 0x80) (c : Char) : (p == mask c) = (p == c) := by
  unfold mask
  split_ifs with hc
  · rfl
  · have hne : p ≠ c := fun heq => hc (heq ▸ hp)
    have hne' : p ≠ '\u0080' := fun heq => absurd (heq ▸ hp) (by decide)
    rw [beq_false_of_ne hne, beq_false_of_ne hne']

private theorem isPrefixOf_map_mask {phrase : List Char} (h : ∀ p ∈ phrase, p.toNat < 0x80) (cs : List Char) :
    phrase.isPrefixOf (cs.map mask) = phrase.isPrefixOf cs := by
  induction phrase generalizing cs with
  | nil => simp
  | cons p phrase ih =>
    cases cs with
    | nil => rfl
    | cons c cs =>
      rw [List.map_cons, List.isPrefixOf, List.isPrefixOf, beq_mask (h p (List.mem_cons_self ..)),
        ih fun q hq => h q (List.mem_cons_of_mem p hq)]

/-- Characters outside ASCII take no part in the occurrence of a phrase of ASCII. -/
private theorem occurs_map_mask {phrase : List Char} (h : ∀ p ∈ phrase, p.toNat < 0x80) (cs : List Char) :
    Text.occurs phrase (cs.map mask) = Text.occurs phrase cs := by
  induction cs with
  | nil => rfl
  | cons c cs ih =>
    have hprefix := isPrefixOf_map_mask h (c :: cs)
    rw [List.map_cons] at hprefix ⊢
    rw [Text.occurs, Text.occurs, hprefix, ih]

private theorem phrases_ascii : ∀ group ∈ phrases, ∀ phrase ∈ group.2, ∀ p ∈ phrase.toList, p.toNat < 0x80 := by
  -- as a check that runs along the phrases, so that it is not one of all characters
  have hchecked : (phrases.all fun group => group.2.all fun phrase => phrase.toList.all fun p =>
      decide (p.toNat < 0x80)) = true := by decide
  simpa only [List.all_eq_true, decide_eq_true_eq] using hchecked

private theorem ofLowered_map_mask (text : List Char) : ofLowered (text.map mask) = ofLowered text := by
  have hsame : ∀ group ∈ phrases, (group.2.any fun phrase => Text.occurs phrase.toList (text.map mask)) =
      group.2.any fun phrase => Text.occurs phrase.toList text := by
    intro group hgroup
    rw [Bool.eq_iff_iff, List.any_eq_true, List.any_eq_true]
    refine exists_congr fun phrase => and_congr_right fun hphrase => ?_
    rw [occurs_map_mask (phrases_ascii group hgroup phrase hphrase)]
  unfold ofLowered
  rw [List.find?_congr hsame]

private theorem LowerCase.map_mask_lower (l : LowerCase) (before after : List Char) (c : Char) :
    (l.lower before c after).map mask = (ErrorCode.lower c).map mask := by
  by_cases hascii : c.toNat < 0x80
  · rw [l.ascii before after hascii, lower_of_ascii hascii]
  · by_cases hk : c = '\u212a'
    · rw [hk, l.kelvin]
      rfl
    · by_cases hi : c = '\u0130'
      · rw [hi, l.dottedI]
        rfl
      · obtain ⟨d, hd, hother⟩ := l.other before after (Nat.le_of_not_lt hascii) hk hi
        rw [hd, lower_of_other (Nat.le_of_not_lt hascii) hk hi]
        simp [mask, hascii, Nat.not_lt.2 hother]

private theorem LowerCase.map_mask_text (l : LowerCase) (before cs : List Char) :
    (l.text before cs).map mask = (cs.flatMap ErrorCode.lower).map mask := by
  induction cs generalizing before with
  | nil => rfl
  | cons c after ih =>
    rw [LowerCase.text, List.flatMap_cons, List.map_append, List.map_append, l.map_mask_lower, ih]

/-- Every lower case leads to the same code. -/
private theorem LowerCase.classify_eq (l : LowerCase) (message : String) : l.classify message = ofMessage message := by
  rw [LowerCase.classify, ofMessage_eq, ← ofLowered_map_mask, l.map_mask_text, ofLowered_map_mask]

example (isLetter : Char → Bool) (message : String) :
    (LowerCase.greek isLetter).classify message = ofMessage message :=
  LowerCase.classify_eq _ message

/-! ### Errors -/

private theorem ofMessage_ne_rejected (message : String) : ofMessage message ≠ rejected := ofLowered_ne_rejected _

private theorem ofError_eq_ofMessage {e : RunError} (h : ¬ ∃ reason category, e = .rejected reason category) :
    ofError e = ofMessage e.message := by
  cases e with
  | rejected reason category => exact absurd ⟨reason, category, rfl⟩ h
  | _ => rfl

/-- Refusals have a code of their own, and nothing else has it. -/
private theorem ofError_eq_rejected_iff {e : RunError} :
    ofError e = rejected ↔ ∃ reason category, e = .rejected reason category := by
  constructor
  · intro hcode
    by_contra hother
    rw [ofError_eq_ofMessage hother] at hcode
    exact ofMessage_ne_rejected _ hcode
  · rintro ⟨reason, category, rfl⟩
    rfl

/-- The code of an error is at least that of a part of its wording. -/
private theorem atLeast_ofError {e : RunError} {before wording after : String} (hwording : ofMessage wording = code)
    (he : e.message = before ++ wording ++ after) (hother : ¬ ∃ reason category, e = .rejected reason category) :
    AtLeast (ofError e) code := by
  rw [ofError_eq_ofMessage hother, he, ← hwording]
  exact ofMessage_mono before wording after

private theorem atLeast_ofError_provider {e : ProviderError} {wording rest : String}
    (hwording : ofMessage wording = code)
    (he : e.message = wording ++ rest) : AtLeast (ofError (.provider e)) code := by
  have hmessage : RunError.message (.provider e) = "Provider error: " ++ wording ++ rest := by
    rw [String.append_assoc, ← he]
    rfl
  exact atLeast_ofError hwording hmessage (by rintro ⟨_, _, h⟩; cases h)

private theorem atLeast_ofError_tool (e : ToolError) : AtLeast (ofError (.tool e)) toolError := by
  have hwording : ofMessage "Tool error: " = toolError := by decide +kernel
  have hmessage : RunError.message (.tool e) = "" ++ "Tool error: " ++ e.message := by
    rw [String.empty_append]
    rfl
  exact atLeast_ofError hwording hmessage (by rintro ⟨_, _, h⟩; cases h)

private theorem atLeast_ofError_toolTimeout (tool : String) (seconds : UInt64) :
    AtLeast (ofError (.tool (.timeout tool seconds))) timeout := by
  have hwording : ofMessage "Tool timed out: " = timeout := by decide +kernel
  have hmessage : RunError.message (.tool (.timeout tool seconds)) =
      "Tool error: " ++ "Tool timed out: " ++ (tool ++ " after " ++ toString seconds.toNat ++ "s") := by
    show "Tool error: " ++ ("Tool timed out: " ++ tool ++ " after " ++ toString seconds.toNat ++ "s") = _
    simp only [String.append_assoc]
  exact atLeast_ofError hwording hmessage (by rintro ⟨_, _, h⟩; cases h)

end ErrorCode

namespace Engine

open ErrorCode

private theorem isCancelled_iff {e : RunError} : e.isCancelled = true ↔ e = .cancelled ∨ e = .provider .cancelled := by
  unfold RunError.isCancelled
  split <;> simp_all

private theorem failure_of_isCancelled {e : RunError} (h : e.isCancelled = true) (duration : Span) :
    failure e duration = .failure .unknown "execution cancelled" duration := by
  unfold failure
  rw [if_pos h]
  rfl

private theorem failure_of_not_isCancelled {e : RunError} (h : e.isCancelled = false) (duration : Span) :
    failure e duration = .failure (ofError e) e.message duration := by
  unfold failure
  rw [if_neg (by simp [h])]

/-- How errors are classified, whatever text they carry, and what the engine makes of it. -/
structure Classified : Prop where
  /-- Text around a message never brings its code down. -/
  context (before message after : String) : AtLeast (ofMessage (before ++ message ++ after)) (ofMessage message)
  /-- Whichever lower case is taken, the codes are the same. -/
  lowerCase (l : LowerCase) (message : String) : l.classify message = ofMessage message
  rateLimited (seconds : UInt64) : ofError (.provider (.rateLimited seconds)) = .rateLimited
  modelTimeout (text : String) : AtLeast (ofError (.provider (.timeout text))) .timeout
  toolTimeout (tool : String) (seconds : UInt64) : AtLeast (ofError (.tool (.timeout tool seconds))) .timeout
  contextLength (text : String) : AtLeast (ofError (.provider (.contextLengthExceeded text))) .contextTooLong
  tool (e : ToolError) : AtLeast (ofError (.tool e)) .toolError
  invalidResponse (text : String) : ofError (.provider (.invalidResponse text)) ≠ .unknown
  /-- Refusals, and only they, are told as such. -/
  rejected (e : RunError) : ofError e = .rejected ↔ ∃ reason category, e = .rejected reason category
  /-- A cancellation is told without a look at its text, -/
  cancelled (e : RunError) (duration : Span) (h : e = .cancelled ∨ e = .provider .cancelled) :
    failure e duration = .failure .unknown "execution cancelled" duration
  /-- and every other error by its code and its wording. -/
  failed (e : RunError) (duration : Span) (h : ¬ (e = .cancelled ∨ e = .provider .cancelled)) :
    failure e duration = .failure (ofError e) e.message duration

theorem classified : Classified where
  context := ofMessage_mono
  lowerCase := LowerCase.classify_eq
  rateLimited seconds := by
    have hwording : ofMessage "Rate limited by provider, retry after " = .rateLimited := by decide +kernel
    have hmessage : ProviderError.message (.rateLimited seconds) =
        "Rate limited by provider, retry after " ++ (toString seconds.toNat ++ "s") := String.append_assoc ..
    exact eq_rateLimited_of_atLeast (atLeast_ofError_provider hwording hmessage)
  modelTimeout text := by
    have hwording : ofMessage "Request timed out: " = .timeout := by decide +kernel
    exact atLeast_ofError_provider hwording rfl
  toolTimeout := atLeast_ofError_toolTimeout
  contextLength text := by
    have hwording : ofMessage "Context length exceeded: " = .contextTooLong := by decide +kernel
    exact atLeast_ofError_provider hwording rfl
  tool := atLeast_ofError_tool
  invalidResponse text := by
    have hwording : ofMessage "Invalid response from provider: " = .invalidResponse := by decide +kernel
    exact ne_unknown_of_atLeast_invalidResponse (atLeast_ofError_provider hwording rfl)
  rejected _ := ofError_eq_rejected_iff
  cancelled _ duration h := failure_of_isCancelled (isCancelled_iff.2 h) duration
  failed e duration h := by
    refine failure_of_not_isCancelled ?_ duration
    by_contra hcancelled
    exact h (isCancelled_iff.1 (Bool.eq_true_of_not_eq_false hcancelled))

end Engine

end AgentLoop
