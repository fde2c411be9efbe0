import AgentLoop.Config.Load
import Mathlib.Data.List.Induction
import Mathlib.Data.List.TakeWhile
import Mathlib.Data.Nat.Digits.Defs

/-!
# Numerals

The texts that spell a natural number: decimal digits, perhaps with a plus sign in front, and blanks around them.  A
reader that trims a text first accepts just these, as far as the number is below its limit
(`readNatural?_trim_eq_some_iff`).
-/

namespace AgentLoop

/-! ### Blanks at both ends -/

namespace Text

private theorem exists_blanks_around (cs : List Char) :
    ∃ before after, (∀ c ∈ before, isBlank c = true) ∧ (∀ c ∈ after, isBlank c = true) ∧
      cs = before ++ trimmed cs ++ after := by
  let rest := cs.dropWhile isBlank
  have hfront : cs = cs.takeWhile isBlank ++ rest := List.takeWhile_append_dropWhile.symm
  have hback : rest = trimmed cs ++ (rest.reverse.takeWhile isBlank).reverse := by
    have hreverse : rest.reverse = rest.reverse.takeWhile isBlank ++ rest.reverse.dropWhile isBlank :=
      List.takeWhile_append_dropWhile.symm
    rw [trimmed, ← List.reverse_append, ← hreverse, List.reverse_reverse]
  refine ⟨cs.takeWhile isBlank, (rest.reverse.takeWhile isBlank).reverse, ?_, ?_, ?_⟩
  · intro c hc
    exact List.mem_takeWhile_imp hc
  · intro c hc
    exact List.mem_takeWhile_imp (List.mem_reverse.1 hc)
  · rw [List.append_assoc, ← hback]
    exact hfront

private theorem toList_trim (s : String) : (trim s).toList = trimmed s.toList := String.toList_ofList

private theorem dropWhile_word {word : List Char} (hne : word ≠ []) (hword : ∀ c ∈ word, isBlank c = false)
    (rest : List Char) : (word ++ rest).dropWhile isBlank = word ++ rest := by
  obtain ⟨c, cs, rfl⟩ := List.exists_cons_of_ne_nil hne
  have hc : isBlank c = false := hword c (List.mem_cons_self ..)
  rw [List.cons_append, List.dropWhile_cons_of_neg (by simp [hc])]

/-- A word without blanks is what is left of it between blanks. -/
private theorem trimmed_append {before word after : List Char} (hbefore : ∀ c ∈ before, isBlank c = true)
    (hafter : ∀ c ∈ after, isBlank c = true) (hword : ∀ c ∈ word, isBlank c = false) :
    trimmed (before ++ word ++ after) = word := by
  by_cases hnil : word = []
  · rw [hnil]
    apply trimmed_eq_nil_of_all
    simp only [List.append_nil, List.all_append, List.all_eq_true.2 hbefore, List.all_eq_true.2 hafter, Bool.and_self]
  · have hfront : (before ++ word ++ after).dropWhile isBlank = word ++ after := by
      rw [List.append_assoc, List.dropWhile_append_of_pos hbefore, dropWhile_word hnil hword]
    have hback : (after.reverse ++ word.reverse).dropWhile isBlank = word.reverse := by
      have hlast := dropWhile_word (mt List.reverse_eq_nil_iff.1 hnil) (fun c hc => hword c (List.mem_reverse.1 hc)) []
      rw [List.append_nil] at hlast
      rw [List.dropWhile_append_of_pos fun c hc => hafter c (List.mem_reverse.1 hc), hlast]
    rw [trimmed, hfront, List.reverse_append, hback, List.reverse_reverse]

end Text

/-! ### Numbers as they are written -/

/-- A number between blanks: perhaps a plus sign, and then decimal digits. -/
structure Numeral where
  before : List Char
  plus : Bool
  digits : List Char
  after : List Char
  before_blank : ∀ c ∈ before, Text.isBlank c = true
  after_blank : ∀ c ∈ after, Text.isBlank c = true
  digits_ne_nil : digits ≠ []
  isDigit_of_mem : ∀ c ∈ digits, isDigit c = true

namespace Numeral

/-- The sign and the digits. -/
def word (w : Numeral) : List Char := (if w.plus then ['+'] else []) ++ w.digits

def text (w : Numeral) : String := String.ofList (w.before ++ w.word ++ w.after)

def value (w : Numeral) : Nat := Nat.ofDigits 10 (w.digits.reverse.map digitValue)

end Numeral

/-- The text is that of a numeral, which has this value. -/
def Spells (text : String) (n : Nat) : Prop := ∃ w : Numeral, w.text = text ∧ w.value = n

theorem ofDigits_eq (cs : List Char) : ofDigits cs = Nat.ofDigits 10 (cs.reverse.map digitValue) := by
  induction cs using List.reverseRecOn with
  | nil => rfl
  | append_singleton cs c ih =>
    rw [List.reverse_append, List.reverse_singleton, List.singleton_append, List.map_cons, Nat.ofDigits_cons, ← ih,
      ofDigits, List.foldl_append, List.foldl_cons, List.foldl_nil, ← ofDigits, Nat.add_comm]

theorem isBlank_of_isDigit {c : Char} (h : isDigit c = true) : Text.isBlank c = false := by
  rw [isDigit, Bool.and_eq_true, decide_eq_true_eq, decide_eq_true_eq] at h
  have hlow : 48 ≤ c.toNat := UInt32.le_iff_toNat_le.1 h.1
  have hhigh : c.toNat ≤ 57 := UInt32.le_iff_toNat_le.1 h.2
  simp only [Text.isBlank, Bool.or_eq_false_iff, Bool.and_eq_false_iff, decide_eq_false_iff_not, beq_eq_false_iff_ne]
  omega

/-- What is left without a plus sign in front. -/
def unsigned : List Char → List Char
  | '+' :: digits => digits
  | digits => digits

private theorem exists_sign (cs : List Char) : ∃ plus : Bool, cs = (if plus then ['+'] else []) ++ unsigned cs := by
  unfold unsigned
  split
  · exact ⟨true, rfl⟩
  · exact ⟨false, rfl⟩

namespace Numeral

variable (w : Numeral)

private theorem unsigned_word : unsigned w.word = w.digits := by
  unfold word
  cases w.plus with
  | true => rfl
  | false =>
    show unsigned w.digits = w.digits
    unfold unsigned
    split
    · -- a plus sign is no digit
      rename_i digits hdigits
      exact absurd (w.isDigit_of_mem '+' (hdigits ▸ List.mem_cons_self ..)) (by decide)
    · rfl

private theorem isBlank_of_mem_word {c : Char} (hc : c ∈ w.word) : Text.isBlank c = false := by
  rw [word, List.mem_append] at hc
  rcases hc with hsign | hdigit
  · split at hsign
    · rw [List.mem_singleton.1 hsign]
      decide
    · cases hsign
  · exact isBlank_of_isDigit (w.isDigit_of_mem c hdigit)

private theorem trim_text : (Text.trim w.text).toList = w.word := by
  rw [Text.toList_trim, text, String.toList_ofList]
  exact Text.trimmed_append w.before_blank w.after_blank fun _ => w.isBlank_of_mem_word

end Numeral

private theorem readNatural?_eq_some_iff {limit n : Nat} {s : String} :
    readNatural? limit s = some n ↔ unsigned s.toList ≠ [] ∧ (∀ c ∈ unsigned s.toList, isDigit c = true) ∧
      ofDigits (unsigned s.toList) = n ∧ n < limit := by
  have hread : readNatural? limit s = if (unsigned s.toList).isEmpty || !(unsigned s.toList).all isDigit then none
      else if ofDigits (unsigned s.toList) < limit then some (ofDigits (unsigned s.toList)) else none := rfl
  rw [hread]
  generalize unsigned s.toList = digits
  split_ifs with hbad hlimit
  · refine iff_of_false (by simp) fun h => ?_
    rw [List.isEmpty_eq_false_iff.2 h.1, List.all_eq_true.2 h.2.1] at hbad
    cases hbad
  · rw [Bool.not_eq_true, Bool.or_eq_false_iff, Bool.not_eq_false', List.all_eq_true] at hbad
    constructor
    · rintro ⟨⟩
      exact ⟨List.isEmpty_eq_false_iff.1 hbad.1, hbad.2, rfl, hlimit⟩
    · rintro ⟨-, -, rfl, -⟩
      rfl
  · refine iff_of_false (by simp) ?_
    rintro ⟨-, -, rfl, h⟩
    exact hlimit h

private theorem spells_of_trimmed {text : String} {plus : Bool} {digits : List Char}
    (hword : Text.trimmed text.toList = (if plus then ['+'] else []) ++ digits) (hne : digits ≠ [])
    (hdigits : ∀ c ∈ digits, isDigit c = true) : Spells text (ofDigits digits) := by
  obtain ⟨before, after, hbefore, hafter, htext⟩ := Text.exists_blanks_around text.toList
  refine ⟨⟨before, plus, digits, after, hbefore, hafter, hne, hdigits⟩, ?_, (ofDigits_eq digits).symm⟩
  rw [Numeral.text, Numeral.word, ← hword, ← htext, String.ofList_toList]

/-- What is read of a text, blanks around it aside, is what it spells, below the limit. -/
theorem readNatural?_trim_eq_some_iff {limit n : Nat} {text : String} :
    readNatural? limit (Text.trim text) = some n ↔ Spells text n ∧ n < limit := by
  rw [readNatural?_eq_some_iff]
  constructor
  · rintro ⟨hne, hdigits, rfl, hlimit⟩
    obtain ⟨plus, hword⟩ := exists_sign (Text.trim text).toList
    rw [Text.toList_trim] at hword hne hdigits hlimit ⊢
    exact ⟨spells_of_trimmed hword hne hdigits, hlimit⟩
  · rintro ⟨⟨w, rfl, rfl⟩, hlimit⟩
    rw [w.trim_text, w.unsigned_word, ofDigits_eq]
    exact ⟨w.digits_ne_nil, w.isDigit_of_mem, rfl, hlimit⟩

example : readNatural? 8 (Text.trim " +007\n") = some 7 := by decide +kernel

/-- A text spells no second number. -/
theorem Spells.unique {text : String} {m n : Nat} (hm : Spells text m) (hn : Spells text n) : m = n := by
  have hread : readNatural? (m + n + 1) (Text.trim text) = some m := readNatural?_trim_eq_some_iff.2 ⟨hm, by omega⟩
  have hread' : readNatural? (m + n + 1) (Text.trim text) = some n := readNatural?_trim_eq_some_iff.2 ⟨hn, by omega⟩
  exact Option.some.inj (hread.symm.trans hread')

end AgentLoop
