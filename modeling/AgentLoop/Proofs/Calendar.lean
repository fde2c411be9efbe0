import AgentLoop.Time.Instant
import Mathlib.Data.Int.Init
import Mathlib.Tactic.SplitIfs

/-!
# The calendar

The date of a day stands for that day, and it is a date of the calendar: a month of the year and a day of the month.
Years are taken from March on, so that what a leap year has more than another is its last day.  Then a day is known by
the number of its year and by its own number in it, and both ways between days and dates go through these two.
-/

namespace AgentLoop.Instant

/-! ### Days of an era -/

/-- Centuries, spans of four years, years and days since the beginning of an era of four centuries.  The days of a year
are those that every year has and the last one of a leap year. -/
structure EraDay where
  century : Int
  span : Int
  year : Int
  day : Int
  century_mem : 0 ≤ century ∧ century ≤ 3
  span_mem : 0 ≤ span ∧ span ≤ 24
  year_mem : 0 ≤ year ∧ year ≤ 3
  day_mem : 0 ≤ day ∧ day ≤ 365
  leap : day = 365 → year = 3 ∧ (span = 24 → century = 3)

/-- Days from the beginning of the calendar to the first of March of a year. -/
def marchDay (year : Int) : Int := 365 * year + year / 4 - year / 100 + year / 400

namespace EraDay

variable (p : EraDay)

def number : Int := 36524 * p.century + 1461 * p.span + 365 * p.year + p.day

def years : Int := 100 * p.century + 4 * p.span + p.year

private theorem exists_number_eq {d : Int} (h0 : 0 ≤ d) (h1 : d < 146097) : ∃ p : EraDay, p.number = d := by
  obtain ⟨c, hc⟩ : ∃ c, c = min (d / 36524) 3 := ⟨_, rfl⟩
  obtain ⟨s, hs⟩ : ∃ s, s = (d - 36524 * c) / 1461 := ⟨_, rfl⟩
  obtain ⟨y, hy⟩ : ∃ y, y = min ((d - 36524 * c - 1461 * s) / 365) 3 := ⟨_, rfl⟩
  have hc0 : 0 ≤ c ∧ c ≤ 3 := by omega
  have hs0 : 0 ≤ s ∧ s ≤ 24 := by omega
  have hy0 : 0 ≤ y ∧ y ≤ 3 := by omega
  refine ⟨⟨c, s, y, d - 36524 * c - 1461 * s - 365 * y, hc0, hs0, hy0, by omega, by omega⟩, ?_⟩
  unfold number
  dsimp only
  omega

/-- The days by which the spans, the centuries and the era itself are longer or shorter than their years are taken
away before the days are divided into years. -/
private theorem years_eq : (p.number - p.number / 1460 + p.number / 36524 - p.number / 146096) / 365 = p.years := by
  obtain ⟨c, s, y, u, hc, hs, hy, hu, hleap⟩ := p
  dsimp only [number, years]
  generalize hd : 36524 * c + 1461 * s + 365 * y + u = d
  have hcentury : d / 36524 - d / 146096 = c := by
    by_cases hlast : d = 146096
    · omega
    · have hrest : 1461 * s + 365 * y + u < 36524 := by omega
      omega
  have hspan : d / 1460 = 25 * c + s + (24 * c + s + 365 * y + u) / 1460 := by omega
  omega

private theorem number_sub_years : p.number - (365 * p.years + p.years / 4 - p.years / 100) = p.day := by
  obtain ⟨c, s, y, u, hc, hs, hy, hu, hleap⟩ := p
  dsimp only [number, years]
  omega

private theorem marchDay_years (era : Int) : marchDay (p.years + 400 * era) = p.number - p.day + 146097 * era := by
  obtain ⟨c, s, y, u, hc, hs, hy, hu, hleap⟩ := p
  dsimp only [number, years, marchDay]
  have hfour : (100 * c + 4 * s + y + 400 * era) / 4 = 25 * c + s + 100 * era := by omega
  have hcentury : (100 * c + 4 * s + y + 400 * era) / 100 = c + 4 * era := by omega
  have hera : (100 * c + 4 * s + y + 400 * era) / 400 = era := by omega
  rw [hfour, hcentury, hera]
  omega

private theorem isLeapYear_of_day_eq (era : Int) (h : p.day = 365) : isLeapYear (p.years + 400 * era + 1) := by
  obtain ⟨c, s, y, u, hc, hs, hy, hu, hleap⟩ := p
  dsimp only [years] at h ⊢
  obtain ⟨rfl, hcentury⟩ := hleap h
  simp only [isLeapYear, Bool.and_eq_true, Bool.or_eq_true, beq_iff_eq, bne_iff_ne]
  omega

end EraDay

/-! ### Years from March on -/

/-- The date of a day of a year that begins in March; its last two months belong to the next year. -/
def ofMarch (year : Int) (day : Nat) : Int × Nat × Nat :=
  let m := (5 * day + 2) / 153
  let month := if m < 10 then m + 3 else m - 9
  (year + (if month ≤ 2 then 1 else 0), month, day - (153 * m + 2) / 5 + 1)

/-- Every date is that of a day of a year that begins in March. -/
private theorem exists_ofMarch (d : Int) :
    ∃ (y : Int) (u : Nat), dateOfDays d = ofMarch y u ∧ d + 719468 = marchDay y + u ∧
    u ≤ 365 ∧ (u = 365 → isLeapYear (y + 1)) := by
  obtain ⟨p, hp⟩ := EraDay.exists_number_eq (d := (d + 719468) % 146097) (by omega) (by omega)
  obtain ⟨era, hera⟩ : ∃ era, (d + 719468) / 146097 = era := ⟨_, rfl⟩
  have hnumber : d + 719468 - 146097 * era = p.number := by omega
  have hday := p.day_mem
  refine ⟨p.years + 400 * era, p.day.toNat, ?_, ?_, by omega, fun hlast => p.isLeapYear_of_day_eq era (by omega)⟩
  · have hm : ((5 * p.day + 2) / 153).toNat = (5 * p.day.toNat + 2) / 153 := by omega
    unfold dateOfDays ofMarch
    dsimp only
    rw [hera, hnumber, p.years_eq, p.number_sub_years, hm]
  · rw [p.marchDay_years]
    omega

variable {y : Int} {u : Nat}

private theorem daysOfDate_ofMarch (hu : u ≤ 365) :
    daysOfDate (ofMarch y u).1 (ofMarch y u).2.1 (ofMarch y u).2.2 = marchDay y + u - 719468 := by
  have hm : (5 * u + 2) / 153 ≤ 11 := by omega
  unfold ofMarch daysOfDate marchDay
  dsimp only
  generalize hmonth : (5 * u + 2) / 153 = m at *
  split_ifs <;> omega

private theorem month_ofMarch_mem (hu : u ≤ 365) : 1 ≤ (ofMarch y u).2.1 ∧ (ofMarch y u).2.1 ≤ 12 := by
  unfold ofMarch
  dsimp only
  split_ifs <;> omega

private theorem day_ofMarch_le (hu : u ≤ 365) (hleap : u = 365 → isLeapYear (y + 1)) :
    (ofMarch y u).2.2 ≤ daysInMonth (ofMarch y u).1 (ofMarch y u).2.1 := by
  have hm : (5 * u + 2) / 153 ≤ 11 := by omega
  unfold ofMarch daysInMonth
  dsimp only
  by_cases hlast : u = 365
  · -- the twenty-ninth of February
    subst hlast
    simp [hleap rfl]
  · split_ifs <;> omega

private theorem marchDay_add_le (y : Int) : marchDay y + 365 ≤ marchDay (y + 1) := by
  obtain ⟨k, r, hk, h0, h1⟩ : ∃ k r, y = 100 * k + r ∧ 0 ≤ r ∧ r < 100 :=
    ⟨y / 100, y % 100, by omega, by omega, by omega⟩
  unfold marchDay
  omega

private theorem marchDay_le {y y' : Int} (h : y ≤ y') : marchDay y ≤ marchDay y' := by
  induction y', h using Int.leInduction with
  | base => exact Int.le_refl _
  | succ y' _ ih =>
    have hnext := marchDay_add_le y'
    omega

/-- The days from the first to the last one that can be written have years that can be written. -/
private theorem year_ofMarch_mem (hu : u ≤ 365) (hleast : daysOfDate leastYear 1 1 + 719468 ≤ marchDay y + u)
    (hgreatest : marchDay y + u ≤ daysOfDate greatestYear 12 31 + 719468) :
    leastYear ≤ (ofMarch y u).1 ∧ (ofMarch y u).1 ≤ greatestYear := by
  -- the first of January is the day 306 of the year before
  have hfirst : daysOfDate leastYear 1 1 = marchDay (leastYear - 1) + 306 - 719468 := by decide
  have hlast : daysOfDate greatestYear 12 31 = marchDay greatestYear + 305 - 719468 := by decide
  have hnext := marchDay_add_le y
  have hnextGreatest := marchDay_add_le greatestYear
  have hbefore (h : y + 1 ≤ leastYear - 1) := marchDay_le h
  have hatMost (h : y ≤ leastYear - 1) := marchDay_le h
  have hatLeast (h : greatestYear ≤ y) := marchDay_le h
  have hafter (h : greatestYear + 1 ≤ y) := marchDay_le h
  unfold ofMarch
  dsimp only
  split_ifs <;> omega

/-! ### Dates -/

/-- A date of the calendar, and the day that it stands for. -/
structure IsDateOf (date : Int × Nat × Nat) (days : Int) : Prop where
  month : 1 ≤ date.2.1 ∧ date.2.1 ≤ 12
  day : 1 ≤ date.2.2 ∧ date.2.2 ≤ daysInMonth date.1 date.2.1
  days : daysOfDate date.1 date.2.1 date.2.2 = days

theorem isDateOf_dateOfDays (d : Int) : IsDateOf (dateOfDays d) d := by
  obtain ⟨y, u, hdate, hdays, hu, hleap⟩ := exists_ofMarch d
  rw [hdate]
  refine ⟨month_ofMarch_mem hu, ⟨Nat.le_add_left .., day_ofMarch_le hu hleap⟩, ?_⟩
  rw [daysOfDate_ofMarch hu]
  omega

theorem year_dateOfDays_mem {d : Int} (hleast : daysOfDate leastYear 1 1 ≤ d)
    (hgreatest : d ≤ daysOfDate greatestYear 12 31) :
    leastYear ≤ (dateOfDays d).1 ∧ (dateOfDays d).1 ≤ greatestYear := by
  obtain ⟨y, u, hdate, hdays, hu, -⟩ := exists_ofMarch d
  rw [hdate]
  exact year_ofMarch_mem hu (by omega) (by omega)

end AgentLoop.Instant
