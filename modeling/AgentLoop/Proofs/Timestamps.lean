import AgentLoop.Proofs.Calendar
import AgentLoop.Proofs.Numerals

/-!
# Timestamps

What is written for an instant is read as that instant again, for all instants of the years that can be written and
with leap seconds at the ends of minutes.  These are also the only instants that are ever read.
-/

namespace AgentLoop

/-! ### Digits -/

private theorem ofDigits_append (cs ds : List Char) :
    ofDigits (cs ++ ds) = ofDigits cs * 10 ^ ds.length + ofDigits ds := by
  rw [ofDigits_eq, ofDigits_eq, ofDigits_eq, List.reverse_append, List.map_append, Nat.ofDigits_append, List.length_map,
    List.length_reverse]
  ring

private theorem ofDigits_singleton {d : Nat} (h : d < 10) : ofDigits [d.digitChar] = d := by
  show 10 * 0 + (d.digitChar.toNat - 48) = d
  rw [Nat.toNat_digitChar_sub_48_of_lt_ten h, Nat.mul_zero, Nat.zero_add]

private theorem ofDigits_toDigits (n : Nat) : ofDigits (Nat.toDigits 10 n) = n := by
  induction n using Nat.strongRecOn with
  | ind n ih =>
    rcases Nat.lt_or_ge n 10 with hlt | hge
    · rw [Nat.toDigits_of_lt_base hlt, ofDigits_singleton hlt]
    · rw [Nat.toDigits_of_base_le (by decide) hge, ofDigits_append, ih _ (by omega),
        ofDigits_singleton (Nat.mod_lt n (by decide)), List.length_singleton, Nat.pow_one]
      omega

private theorem isDigit_of_mem_toDigits {n : Nat} {c : Char} (h : c ∈ Nat.toDigits 10 n) : isDigit c = true :=
  Nat.isDigit_of_mem_toDigits (by decide) (by decide) h

private theorem ofDigits_lt {cs : List Char} (h : ∀ c ∈ cs, isDigit c = true) : ofDigits cs < 10 ^ cs.length := by
  rw [ofDigits_eq]
  have hdigits (d : Nat) (hd : d ∈ cs.reverse.map digitValue) : d < 10 := by
    obtain ⟨c, hc, rfl⟩ := List.mem_map.1 hd
    have hdigit := h c (List.mem_reverse.1 hc)
    rw [isDigit, Bool.and_eq_true, decide_eq_true_eq, decide_eq_true_eq] at hdigit
    have hhigh : c.toNat ≤ 57 := UInt32.le_iff_toNat_le.1 hdigit.2
    show c.toNat - 48 < 10
    omega
  have hlt := Nat.ofDigits_lt_base_pow_length (by decide) hdigits
  rwa [List.length_map, List.length_reverse] at hlt

namespace Instant

private theorem toList_padded (width n : Nat) :
    (padded width n).toList = List.replicate (width - (Nat.toDigits 10 n).length) '0' ++ Nat.toDigits 10 n := by
  unfold padded
  rw [String.toList_append, String.toList_ofList, Nat.toList_repr, ← String.length_toList, Nat.toList_repr]

private theorem isDigit_of_mem_padded {width n : Nat} {c : Char} (h : c ∈ (padded width n).toList) :
    isDigit c = true := by
  rw [toList_padded, List.mem_append] at h
  rcases h with h | h
  · rw [List.eq_of_mem_replicate h]
    rfl
  · exact isDigit_of_mem_toDigits h

private theorem ofDigits_padded (width n : Nat) : ofDigits (padded width n).toList = n := by
  have hzeros (k : Nat) : ofDigits (List.replicate k '0') = 0 := by
    induction k with
    | zero => rfl
    | succ k ih =>
      rw [List.replicate_succ', ofDigits_append, ih]
      rfl
  rw [toList_padded, ofDigits_append, hzeros, ofDigits_toDigits, Nat.zero_mul, Nat.zero_add]

private theorem length_padded {width n : Nat} (hw : 0 < width) (h : n < 10 ^ width) :
    (padded width n).toList.length = width := by
  have hle := (Nat.length_toDigits_le_iff (by decide) hw).2 h
  rw [toList_padded, List.length_append, List.length_replicate]
  omega

private theorem padded_ne_nil {width n : Nat} : (padded width n).toList ≠ [] := by
  rw [toList_padded]
  simp [Nat.toDigits_ne_nil]

/-! ### Reading what is written -/

private theorem run_bind_of {α β : Type} {p : Scan α} {next : α → Scan β} {a : α} {cs rest : List Char}
    (h : p.run cs = some (a, rest)) : (p >>= next).run cs = (next a).run rest := by
  rw [StateT.run_bind, h]
  rfl

private theorem run_char {p : Char → Bool} {c : Char} (h : p c = true) (rest : List Char) :
    (Scan.char p).run (c :: rest) = some (c, rest) := by
  simp [Scan.char, h]

private theorem run_exactly (c : Char) (rest : List Char) : (Scan.exactly c).run (c :: rest) = some ((), rest) := by
  unfold Scan.exactly
  rw [run_bind_of (run_char (p := fun x => x == c) (beq_self_eq_true c) rest)]
  rfl

private theorem run_skipBlanks {c : Char} (h : Text.isBlank c = false) (rest : List Char) :
    skipBlanks.run (c :: rest) = some ((), c :: rest) := by
  show some ((), (c :: rest).dropWhile Text.isBlank) = _
  rw [List.dropWhile_cons_of_neg (by simp [h])]

private theorem run_takeUpTo {most : Nat} {p : Char → Bool} {taken rest : List Char}
    (h : ((taken ++ rest).take most).takeWhile p = taken) :
    (Scan.takeUpTo most p).run (taken ++ rest) = some (taken, rest) := by
  simp only [Scan.takeUpTo, StateT.run_bind, StateT.run_get, StateT.run_set, StateT.run_pure, h, List.drop_left,
    Option.bind_eq_bind, Option.bind_some, Option.pure_def]

private theorem run_number {most width n : Nat} {rest : List Char}
    (h : (((padded width n).toList ++ rest).take most).takeWhile isDigit = (padded width n).toList) :
    (number most).run ((padded width n).toList ++ rest) = some (n, rest) := by
  have hempty : (padded width n).toList.isEmpty = false := by simpa using padded_ne_nil
  unfold number
  rw [run_bind_of (run_takeUpTo h), hempty, ofDigits_padded]
  rfl

/-- As many digits as there may be. -/
private theorem run_number_padded {width n : Nat} (hw : 0 < width) (h : n < 10 ^ width) (rest : List Char) :
    (number width).run ((padded width n).toList ++ rest) = some (n, rest) := by
  refine run_number ?_
  rw [List.take_left' (length_padded hw h), List.takeWhile_eq_self_iff]
  exact fun c hc => isDigit_of_mem_padded hc

/-- As many digits as there are. -/
private theorem run_number_all (width n : Nat) {c : Char} (hc : isDigit c = false) (rest : List Char) :
    (number ((padded width n).toList ++ c :: rest).length).run ((padded width n).toList ++ c :: rest) =
      some (n, c :: rest) := by
  refine run_number ?_
  rw [List.take_length, List.takeWhile_append_of_pos fun c hc => isDigit_of_mem_padded hc,
    List.takeWhile_cons_of_neg (by simp [hc]), List.append_nil]

private theorem exists_padded_eq_cons (width n : Nat) :
    ∃ c cs, (padded width n).toList = c :: cs ∧ isDigit c = true := by
  obtain ⟨c, cs, hcs⟩ := List.exists_cons_of_ne_nil (padded_ne_nil : (padded width n).toList ≠ [])
  exact ⟨c, cs, hcs, isDigit_of_mem_padded (hcs ▸ List.mem_cons_self ..)⟩

private theorem run_numberAfterBlanks {width n : Nat} (hw : 0 < width) (h : n < 10 ^ width) (rest : List Char) :
    (numberAfterBlanks width).run ((padded width n).toList ++ rest) = some (n, rest) := by
  have hrun := run_number_padded hw h rest
  obtain ⟨c, cs, hcs, hc⟩ := exists_padded_eq_cons width n
  rw [hcs, List.cons_append] at hrun ⊢
  unfold numberAfterBlanks
  rw [run_bind_of (run_skipBlanks (isBlank_of_isDigit hc) _), hrun]

private theorem run_year_sign (negative : Bool) (cs : List Char) :
    year.run ((if negative then '-' else '+') :: cs) =
      ((number cs.length).run cs).map fun read => (if negative then -(read.1 : Int) else read.1, read.2) := by
  have hsign : Text.isBlank (if negative then '-' else '+') = false := by cases negative <;> decide
  unfold year
  rw [run_bind_of (run_skipBlanks hsign cs)]
  -- each sign has a branch of its own
  cases negative
  all_goals
    simp only [Bool.false_eq_true, if_false, if_true, StateT.run_bind, StateT.run_get, StateT.run_set,
      Option.bind_eq_bind, Option.pure_def, Option.bind_some]
    cases (number cs.length).run cs <;> rfl

private theorem run_year_digit {c : Char} (hc : isDigit c = true) (cs : List Char) :
    year.run (c :: cs) = ((number 4).run (c :: cs)).map fun read => ((read.1 : Int), read.2) := by
  have hminus : c ≠ '-' := fun h => absurd hc (by rw [h]; decide)
  have hplus : c ≠ '+' := fun h => absurd hc (by rw [h]; decide)
  unfold year
  rw [run_bind_of (run_skipBlanks (isBlank_of_isDigit hc) cs)]
  simp only [StateT.run_bind, StateT.run_get, Option.bind_eq_bind, Option.pure_def, Option.bind_some]
  split
  · exact absurd (List.cons.inj ‹_›).1 hminus
  · exact absurd (List.cons.inj ‹_›).1 hplus
  · rw [StateT.run_bind]
    cases (number 4).run (c :: cs) <;> rfl

private theorem run_year (y : Int) (rest : List Char) :
    year.run ((yearText y).toList ++ '-' :: rest) = some (y, '-' :: rest) := by
  by_cases hplain : 0 ≤ y ∧ y ≤ 9999
  · have hrun := run_number_padded (n := y.toNat) (show 0 < 4 by decide) (by omega) ('-' :: rest)
    obtain ⟨c, cs, hcs, hc⟩ := exists_padded_eq_cons 4 y.toNat
    rw [hcs, List.cons_append] at hrun
    rw [yearText, if_pos hplain, hcs, List.cons_append, run_year_digit hc, hrun, Option.map_some,
      Int.toNat_of_nonneg hplain.1]
  · have htext : (yearText y).toList = (if decide (y < 0) then '-' else '+') :: (padded 4 y.natAbs).toList := by
      rw [yearText, if_neg hplain]
      by_cases hneg : y < 0 <;> simp [hneg]
    rw [htext, List.cons_append, run_year_sign, run_number_all 4 y.natAbs (by decide), Option.map_some]
    simp only [decide_eq_true_eq]
    congr 2
    split_ifs <;> omega

private theorem run_fraction_padded {places n : Nat} (hp : 0 < places) (hplaces : places ≤ 9) (h : n < 10 ^ places) :
    fraction.run ('.' :: ((padded places n).toList ++ ['Z'])) = some (n * 10 ^ (9 - places), ['Z']) := by
  have hdigits (c : Char) (hc : c ∈ (padded places n).toList) : isDigit c = true := isDigit_of_mem_padded hc
  have hlength := length_padded hp h
  have htaken : (((padded places n).toList ++ ['Z']).take 9).takeWhile isDigit = (padded places n).toList := by
    rw [List.take_append, List.take_of_length_le (by omega), List.takeWhile_append_of_pos hdigits]
    cases 9 - (padded places n).toList.length <;> simp [isDigit]
  have hdropped : ((padded places n).toList ++ ['Z']).dropWhile isDigit = ['Z'] := by
    rw [List.dropWhile_append_of_pos hdigits]
    rfl
  have hempty : (padded places n).toList.isEmpty = false := by simpa using padded_ne_nil
  simp only [fraction, StateT.run_bind, StateT.run_get, Option.bind_eq_bind, Option.bind_some, Option.pure_def, htaken,
    hempty, hdropped, ofDigits_padded, hlength]
  rfl

private theorem run_fraction {n : Nat} (h : n < 1000000000) :
    fraction.run ((fractionText n).toList ++ ['Z']) = some (n, ['Z']) := by
  -- the zeros that are left out at the end are put back
  have hread (places k : Nat) (hp : 0 < places) (hplaces : places ≤ 9) (hk : k < 10 ^ places)
      (hn : k * 10 ^ (9 - places) = n) :
      fraction.run (("." ++ padded places k).toList ++ ['Z']) = some (n, ['Z']) := by
    rw [String.toList_append, ← hn]
    exact run_fraction_padded hp hplaces hk
  unfold fractionText
  split_ifs with hzero hmilli hmicro
  · rw [hzero]
    rfl
  · exact hread 3 _ (by decide) (by decide) (by omega) (by omega)
  · exact hread 6 _ (by decide) (by decide) (by omega) (by omega)
  · exact hread 9 _ (by decide) (by decide) (by omega) (by omega)

private theorem run_offset : offset.run ['Z'] = some (0, []) := by decide

/-- A date and a time of day as they are written. -/
def layout (date : Int × Nat × Nat) (hour minute second nanoseconds : Nat) : List Char :=
  (yearText date.1).toList ++ '-' :: ((padded 2 date.2.1).toList ++ '-' :: ((padded 2 date.2.2).toList ++ 'T' ::
    ((padded 2 hour).toList ++ ':' :: ((padded 2 minute).toList ++ ':' :: ((padded 2 second).toList ++
    ((fractionText nanoseconds).toList ++ ['Z']))))))

/-- What is written for a date and a time of day is read as the instant of that date and time. -/
private theorem run_scan {date : Int × Nat × Nat} {days : Int} {hour minute second n : Nat} {t : Instant}
    (hdate : IsDateOf date days) (hyear : leastYear ≤ date.1 ∧ date.1 ≤ greatestYear) (hhour : hour ≤ 23)
    (hminute : minute ≤ 59) (hsecond : second ≤ 60) (hn : n < 1000000000)
    (ht : t = ⟨86400 * days + (3600 * hour + 60 * minute + (if second = 60 then 59 else second)),
      if second = 60 then n + 1000000000 else n⟩) (hrange : t.isInRange = true) :
    scan.run (layout date hour minute second n) = some (t, []) := by
  obtain ⟨y, month, day⟩ := date
  obtain ⟨hmonth, hday, hdays⟩ := hdate
  dsimp only at *
  have hlength : daysInMonth y month ≤ 31 := by
    unfold daysInMonth
    split_ifs <;> omega
  have hblank (c : Char) (h : Text.isBlank c = false) (rest : List Char) := run_skipBlanks h rest
  have htwo (k : Nat) (h : k < 10 ^ 2) (rest : List Char) := run_numberAfterBlanks (show 0 < 2 by decide) h rest
  have hbounds : (decide (leastYear ≤ y) && decide (y ≤ greatestYear) && decide (1 ≤ month) && decide (month ≤ 12) &&
      decide (1 ≤ day) && decide (day ≤ daysInMonth y month) && decide (hour ≤ 23) && decide (minute ≤ 59) &&
      decide (second ≤ 60) && decide (-86400 < (0 : Int)) && decide ((0 : Int) < 86400)) = true := by
    simp [hyear, hmonth, hday, hhour, hminute, hsecond]
  unfold scan layout
  rw [run_bind_of (run_year y _), run_bind_of (hblank '-' (by decide) _), run_bind_of (run_exactly ..),
    run_bind_of (htwo month (by omega) _), run_bind_of (hblank '-' (by decide) _), run_bind_of (run_exactly ..),
    run_bind_of (htwo day (by omega) _), run_bind_of (run_char (by decide) _), run_bind_of (htwo hour (by omega) _),
    run_bind_of (hblank ':' (by decide) _), run_bind_of (run_exactly ..), run_bind_of (htwo minute (by omega) _),
    run_bind_of (hblank ':' (by decide) _), run_bind_of (run_exactly ..), run_bind_of (htwo second (by omega) _),
    run_bind_of (run_fraction hn), run_bind_of (hblank 'Z' (by decide) _), run_bind_of run_offset,
    run_bind_of (show skipBlanks.run [] = some ((), []) from rfl)]
  simp only [hbounds, hdays, sub_zero, ← ht, hrange, if_true]
  rfl

/-- An instant of the years that can be written; a leap second ends a minute. -/
structure Proper (t : Instant) : Prop where
  inRange : t.isInRange = true
  leap : 1000000000 ≤ t.nanoseconds → t.nanoseconds < 2000000000 ∧ t.seconds % 60 = 59

private theorem read_text {t : Instant} (h : t.Proper) : read t.text = some t := by
  obtain ⟨seconds, nanoseconds⟩ := t
  have hrange := h.inRange
  have hleap := h.leap
  simp only [isInRange, Bool.and_eq_true, decide_eq_true_eq] at hrange
  dsimp only at hleap
  have hdate := isDateOf_dateOfDays (seconds / 86400)
  have hyear := year_dateOfDays_mem (d := seconds / 86400) (by omega) (by omega)
  have htext : (text ⟨seconds, nanoseconds⟩).toList = layout (dateOfDays (seconds / 86400))
      ((seconds % 86400).toNat / 3600) ((seconds % 86400).toNat / 60 % 60)
      ((seconds % 86400).toNat % 60 + (if 1000000000 ≤ nanoseconds then 1 else 0))
      (if 1000000000 ≤ nanoseconds then nanoseconds - 1000000000 else nanoseconds) := by
    simp [text, layout]
  have hrun : scan.run (text ⟨seconds, nanoseconds⟩).toList = some (⟨seconds, nanoseconds⟩, []) := by
    rw [htext]
    refine run_scan hdate hyear (by omega) (by omega) ?_ ?_ ?_ h.inRange
    · split_ifs <;> omega
    · split_ifs <;> omega
    · rw [Instant.mk.injEq]
      split_ifs <;> omega
  unfold read Scan.all?
  rw [run_bind_of hrun]
  rfl

end Instant

/-! ### Only what can be written is read -/

namespace Scan

/-- Whatever the scanner returns has the property. -/
def Gives {α : Type} (p : Scan α) (P : α → Prop) : Prop := ∀ cs a rest, p.run cs = some (a, rest) → P a

variable {α β : Type} {p : Scan α} {next : α → Scan β} {P : α → Prop} {Q : β → Prop}

private theorem gives_bind (hp : p.Gives P) (hnext : ∀ a, P a → (next a).Gives Q) : (p >>= next).Gives Q := by
  intro cs b rest h
  rw [StateT.run_bind] at h
  obtain ⟨⟨a, cs'⟩, ha, hb⟩ := Option.bind_eq_some_iff.1 h
  exact hnext a (hp cs a cs' ha) cs' b rest hb

private theorem gives_any : p.Gives fun _ => True := fun _ _ _ _ => trivial

private theorem gives_pure {a : α} (h : P a) : (pure a : Scan α).Gives P := by
  intro cs b rest hb
  cases hb
  exact h

private theorem gives_failure : (failure : Scan α).Gives P := by
  intro cs a rest h
  cases h

private theorem gives_ite {c : Prop} [Decidable c] {q : Scan α} (hp : c → p.Gives P) (hq : ¬c → q.Gives P) :
    (if c then p else q : Scan α).Gives P := by
  split_ifs with h
  · exact hp h
  · exact hq h

end Scan

namespace Instant

open Scan

private theorem gives_offset : offset.Gives fun east => east % 60 = 0 := by
  have hseconds (s : Char) (h m : Nat) :
      (if s = '+' then 3600 * (h : Int) + 60 * m else -(3600 * (h : Int) + 60 * m)) % 60 = 0 := by
    split_ifs <;> omega
  unfold offset
  refine gives_bind gives_any fun cs _ => ?_
  dsimp only
  -- every branch fails, or returns zero or what the digits say
  repeat' first
    | exact gives_failure
    | exact gives_pure rfl
    | exact gives_pure (hseconds ..)
    | refine gives_bind gives_any fun _ _ => ?_
    | split

private theorem gives_fraction : fraction.Gives fun n => n < 1000000000 := by
  unfold fraction
  refine gives_bind gives_any fun cs _ => ?_
  split
  · rename_i r
    refine gives_ite (fun _ => gives_bind gives_failure fun _ (h : False) => h.elim) fun _ => ?_
    refine gives_bind gives_any fun _ _ => gives_pure ?_
    have hdigits : ofDigits ((r.take 9).takeWhile isDigit) < 10 ^ ((r.take 9).takeWhile isDigit).length :=
      ofDigits_lt fun c hc => List.mem_takeWhile_imp hc
    have hlength : ((r.take 9).takeWhile isDigit).length ≤ 9 :=
      (List.takeWhile_prefix isDigit).length_le.trans (List.length_take_le 9 r)
    generalize ((r.take 9).takeWhile isDigit).length = k at *
    calc ofDigits ((r.take 9).takeWhile isDigit) * 10 ^ (9 - k)
        < 10 ^ k * 10 ^ (9 - k) := Nat.mul_lt_mul_of_pos_right hdigits (Nat.pow_pos (by decide))
      _ = 10 ^ 9 := by rw [← Nat.pow_add, Nat.add_sub_cancel' hlength]
  · exact gives_pure (by decide)

private theorem gives_scan : scan.Gives Proper := by
  unfold scan
  refine gives_bind gives_any fun y _ => gives_bind gives_any fun _ _ => gives_bind gives_any fun _ _ =>
    gives_bind gives_any fun month _ => gives_bind gives_any fun _ _ => gives_bind gives_any fun _ _ =>
    gives_bind gives_any fun day _ => gives_bind gives_any fun _ _ => gives_bind gives_any fun hour _ =>
    gives_bind gives_any fun _ _ => gives_bind gives_any fun _ _ => gives_bind gives_any fun minute _ =>
    gives_bind gives_any fun _ _ => gives_bind gives_any fun _ _ => gives_bind gives_any fun second _ =>
    gives_bind gives_fraction fun n hn => gives_bind gives_any fun _ _ => gives_bind gives_offset fun east heast =>
    gives_bind gives_any fun _ _ => ?_
  dsimp only
  refine gives_ite (fun _ => ?_) fun _ => gives_bind gives_failure fun _ (h : False) => h.elim
  refine gives_ite (fun hrange => gives_pure ⟨hrange, ?_⟩) fun _ => gives_bind gives_failure fun _ (h : False) => h.elim
  dsimp only
  split_ifs <;> omega

private theorem proper_of_read {s : String} {t : Instant} (h : read s = some t) : t.Proper := by
  obtain ⟨⟨t', rest⟩, hrun, rfl⟩ := Option.map_eq_some_iff.1 h
  refine gives_bind gives_scan (fun a ha => gives_bind gives_any fun _ _ => gives_pure ha) s.toList t' rest hrun

/-- The instants that survive being written and read are exactly those of the years that can be written. -/
theorem read_text_iff {t : Instant} : read t.text = some t ↔ t.Proper :=
  ⟨proper_of_read, read_text⟩

end Instant

end AgentLoop
