import TyLang.Temporal

/-!
`__week-of-year` of `lib/temporal.ty`, against the weeks of ISO 8601. The last days of December
that belong to the first week of the next year get the number of another week.
-/
namespace TyLang.Temporal

open TyLang.Calendar

/-- From 1 for a Monday to 7. -/
def dayOfWeek (year month day : Int) : Int :=
  let d := dateToEpochDays year month day
  let dow := (d.tmod 7 + 7).tmod 7
  (dow + 3).tmod 7 + 1

/-- For a month from 1 to 12. -/
def dayOfYear (year month day : Int) : Int :=
  let days : List Int := [0, 31, 59, 90, 120, 151, 181, 212, 243, 273, 304, 334]
  let d := days.getD (month - 1).toNat 0 + day
  if month > 2 ∧ isLeapYear year then d + 1 else d

def weekOfYear : Nat → Int → Int → Int → Option Int
  | 0, _, _, _ => none
  | rounds + 1, year, month, day =>
    let dow := dayOfWeek year 1 1
    let doy := dayOfYear year month day
    let week := (doy + dow - 2).tdiv 7 + 1
    let week := if dow > 4 then week - 1 else week
    if week = 0 then weekOfYear rounds (year - 1) 12 31 else some week

section Spec

def newYear (year : Int) : Int := dateToEpochDays year 1 1

/-- The Thursday in the week of a day, which begins on a Monday. Day 0 is a Thursday. -/
def thursday (n : Int) : Int := n - (n + 3) % 7 + 3

/-- The year of a week is that of its Thursday. -/
structure IsoWeek (n year week : Int) : Prop where
  newYear_le : newYear year ≤ thursday n
  lt_newYear : thursday n < newYear (year + 1)
  number : week = (thursday n - newYear year) / 7 + 1

/-- A year that has 53 Thursdays. -/
def LongYear (year : Int) : Prop :=
  newYear year % 7 = 0 ∨ Leap year ∧ newYear year % 7 = 6

end Spec

lemma newYear_eq (year : Int) : newYear year = yearStart (year - 1) - 719162 := by
  rw [newYear, dateToEpochDays_eq 1 (by decide)]
  have : marchDay 1 1 = 306 := rfl
  have : marchYear year 1 = year - 1 := if_pos (by decide)
  grind

lemma newYear_succ (year : Int) :
    newYear (year + 1) = newYear year + 365 + if Leap year then 1 else 0 := by
  have := yearStart_succ year
  rw [newYear_eq, newYear_eq, Int.add_sub_cancel]
  omega

lemma dayOfWeek_eq (year month day : Int) :
    dayOfWeek year month day = (dateToEpochDays year month day + 3) % 7 + 1 := by
  simp only [dayOfWeek]
  generalize dateToEpochDays year month day = d
  have hlow : 0 ≤ d.tmod 7 + 7 := by
    have := Int.lt_tmod_of_pos d (b := 7) (by decide)
    omega
  rw [Int.tmod_eq_emod_of_nonneg hlow, Int.tmod_eq_emod_of_nonneg (by omega), Int.tmod_eq_emod]
  split <;> omega

lemma dayNumber_dayOfYear (d : Date) :
    dayNumber d = newYear d.year + dayOfYear d.year d.month d.day - 1 := by
  obtain ⟨year, month, day, hlow, hhigh, _⟩ := d
  have hsucc := yearStart_succ year
  rw [dayNumber_eq, newYear_eq]
  simp only [dayOfYear, isLeapYear_iff]
  interval_cases month <;> simp [marchYear, marchDay, marchMonth] <;> grind

lemma dayOfYear_bounds (d : Date) : 1 ≤ dayOfYear d.year d.month d.day ∧ d.day ≤ 31 ∧
    dayOfYear d.year d.month d.day + (if d.month = 12 then 31 - d.day else 31) ≤
      365 + (if Leap d.year then 1 else 0) := by
  obtain ⟨year, month, day, hlow, hhigh, hday, hday'⟩ := d
  simp only [dayOfYear, isLeapYear_iff]
  interval_cases month <;> simp <;> grind [monthLength]

section Weeks
variable (rounds : Nat) (d : Date)

/-- What is computed, for a day of a year whose length is known. -/
lemma weekOfYear_succ : ∃ a doy, a = (newYear d.year + 3) % 7 ∧
    dayNumber d = newYear d.year + doy - 1 ∧ 1 ≤ doy ∧
    doy ≤ 365 + (if Leap d.year then 1 else 0) ∧
    thursday (dayNumber d) = newYear d.year + 7 * ((doy - 1 + a) / 7) + 3 - a ∧
    weekOfYear (rounds + 1) d.year d.month d.day =
      if 3 < a ∧ (doy - 1 + a) / 7 = 0 then weekOfYear rounds (d.year - 1) 12 31
      else some ((doy - 1 + a) / 7 + if 3 < a then 0 else 1) := by
  obtain ⟨hlow, hday, hhigh⟩ := dayOfYear_bounds d
  refine ⟨_, _, rfl, dayNumber_dayOfYear d, hlow, ?_, ?_, ?_⟩
  · split at hhigh <;> omega
  · rw [thursday, dayNumber_dayOfYear]
    omega
  simp only [weekOfYear, dayOfWeek_eq]
  rw [← newYear, Int.tdiv_eq_ediv_of_nonneg (by omega)]
  generalize dayOfYear d.year d.month d.day = doy at *
  generalize newYear d.year = j at *
  grind

lemma newYear_mono (y y' : Int) (h : y ≤ y') : newYear y ≤ newYear y' := by
  rw [newYear_eq, newYear_eq]
  unfold yearStart
  omega

/-- A day is in one year only. -/
lemma year_unique {t y y' : Int} (hlow : newYear y ≤ t) (hhigh : t < newYear (y + 1))
    (hlow' : newYear y' ≤ t) (hhigh' : t < newYear (y' + 1)) : y = y' := by
  have hmono := newYear_mono (y + 1) y'
  have hmono' := newYear_mono (y' + 1) y
  omega

lemma isoWeek_weekOfYear (hlow : newYear d.year ≤ thursday (dayNumber d))
    (hhigh : thursday (dayNumber d) < newYear (d.year + 1)) :
    ∃ week, weekOfYear (rounds + 1) d.year d.month d.day = some week ∧
      IsoWeek (dayNumber d) d.year week := by
  obtain ⟨a, doy, ha, hn, hdoy, -, hT, hweek⟩ := weekOfYear_succ rounds d
  refine ⟨_, by rw [hweek, if_neg (by omega)], hlow, hhigh, ?_⟩
  split <;> omega

lemma weekOfYear_december (h : newYear (d.year + 1) ≤ thursday (dayNumber d)) :
    ∃ week, weekOfYear (rounds + 1) d.year d.month d.day = some week ∧
      ∀ year, ¬ IsoWeek (dayNumber d) year week := by
  obtain ⟨a, doy, ha, hn, hdoy, hdoy', hT, hweek⟩ := weekOfYear_succ rounds d
  have hsucc := newYear_succ d.year
  have hge : (if Leap d.year then (1 : Int) else 0) = 0 ∨
      (if Leap d.year then (1 : Int) else 0) = 1 := by split <;> simp
  refine ⟨_, by rw [hweek, if_neg (by omega)], ?_⟩
  rintro year ⟨hlow, hhigh, hnumber⟩
  have hend : thursday (dayNumber d) < newYear (d.year + 1 + 1) := by
    have := newYear_succ (d.year + 1)
    split at this <;> omega
  obtain rfl := year_unique hlow hhigh h hend
  split at hnumber <;> omega

/-- The number is that of the week if its Thursday is not in the next year. -/
lemma weekOfYear_isoWeek :
    (∃ year week, weekOfYear (rounds + 2) d.year d.month d.day = some week ∧
      IsoWeek (dayNumber d) year week) ↔ thursday (dayNumber d) < newYear (d.year + 1) := by
  constructor
  · rintro ⟨year, week, hweek, hiso⟩
    by_contra hge
    obtain ⟨week', hweek', hno⟩ := weekOfYear_december (rounds + 1) d (by omega)
    cases hweek.symm.trans hweek'
    exact hno year hiso
  · intro hlt
    rcases le_or_gt (newYear d.year) (thursday (dayNumber d)) with hle | hgt
    · obtain ⟨week, h⟩ := isoWeek_weekOfYear (rounds + 1) d hle hlt
      exact ⟨d.year, week, h⟩
    -- the week is that of the last day of the year before
    obtain ⟨d', hd', hlast⟩ : ∃ d' : Date, d'.fields = (d.year - 1, 12, 31) ∧
        dayNumber d' = newYear d.year - 1 := by
      refine ⟨⟨d.year - 1, 12, 31, by decide, by decide, by decide, le_rfl⟩, rfl, ?_⟩
      rw [dayNumber_eq, newYear_eq]
      change yearStart (d.year - 1) + 305 - 719468 = _
      omega
    obtain ⟨a, doy, ha, hn, hdoy, -, hT, hweek⟩ := weekOfYear_succ (rounds + 1) d
    have hsame : thursday (dayNumber d') = thursday (dayNumber d) := by
      unfold thursday at *
      omega
    obtain ⟨hyear, hmonth, hday⟩ : d'.year = d.year - 1 ∧ d'.month = 12 ∧ d'.day = 31 := by
      simpa [Date.fields] using hd'
    have hsucc := newYear_succ d'.year
    have hnext : newYear (d'.year + 1) = newYear d.year := by rw [hyear, Int.sub_add_cancel]
    have hlow : newYear d'.year ≤ thursday (dayNumber d') := by
      unfold thursday
      split at hsucc <;> omega
    obtain ⟨week, hweek', hiso⟩ := isoWeek_weekOfYear rounds d' hlow (by omega)
    rw [hyear, hmonth, hday] at hweek'
    rw [hweek, if_pos (by omega)]
    exact ⟨d'.year, week, hweek', hsame ▸ hiso.newYear_le, hsame ▸ hiso.lt_newYear,
      hsame ▸ hiso.number⟩

lemma thursday_lt_iff : thursday (dayNumber d) < newYear (d.year + 1) ↔
    (d.month = 12 → d.day + 4 ≤ 31 + dayOfWeek d.year d.month d.day) := by
  obtain ⟨-, -, hhigh⟩ := dayOfYear_bounds d
  have hn := dayNumber_dayOfYear d
  have hsucc := newYear_succ d.year
  rw [dayOfWeek_eq, ← dayNumber, thursday]
  by_cases hmonth : d.month = 12
  · have hlast : dayOfYear d.year 12 d.day + (31 - d.day) = 365 + if Leap d.year then 1 else 0 := by
      simp [dayOfYear, isLeapYear_iff]
      split <;> omega
    rw [hmonth] at hn
    omega
  · rw [if_neg hmonth] at hhigh
    omega

end Weeks

/-- The weeks of one year, as long as no week of the next one is met. -/
theorem weekOfYear_iff (rounds : Nat) (d : Date) :
    ((∃ year week, weekOfYear (rounds + 2) d.year d.month d.day = some week ∧
      IsoWeek (dayNumber d) year week) ↔
        (d.month = 12 → d.day + 4 ≤ 31 + dayOfWeek d.year d.month d.day)) ∧
    (∀ d' : Date, thursday (dayNumber d) = thursday (dayNumber d') →
      (d.month = 12 → d.day + 4 ≤ 31 + dayOfWeek d.year d.month d.day) →
      (d'.month = 12 → d'.day + 4 ≤ 31 + dayOfWeek d'.year d'.month d'.day) →
      weekOfYear (rounds + 2) d.year d.month d.day =
        weekOfYear (rounds + 2) d'.year d'.month d'.day) ∧
    ∀ year, IsoWeek (dayNumber d) year 53 → LongYear year := by
  refine ⟨(weekOfYear_isoWeek rounds d).trans (thursday_lt_iff d), ?_, ?_⟩
  · intro d' hsame h h'
    rw [← thursday_lt_iff, ← weekOfYear_isoWeek rounds] at h h'
    obtain ⟨year, week, hweek, hiso⟩ := h
    obtain ⟨year', week', hweek', hiso'⟩ := h'
    obtain ⟨hlow, hhigh, rfl⟩ := hiso
    obtain ⟨hlow', hhigh', rfl⟩ := hiso'
    rw [hsame] at hlow hhigh hweek
    rw [hweek, hweek', year_unique hlow hhigh hlow' hhigh']
  · rintro year ⟨hlow, hhigh, hnumber⟩
    have hsucc := newYear_succ year
    unfold LongYear
    unfold thursday at *
    by_cases hleap : Leap year
    · rw [if_pos hleap] at hsucc
      simp only [hleap, true_and]
      omega
    · rw [if_neg hleap] at hsucc
      omega

/-- The last day of 2018 is in the first week of 2019. -/
theorem weekOfYear_2018 : weekOfYear 2 2018 12 31 = some 53 ∧
    IsoWeek (dateToEpochDays 2018 12 31) 2019 1 :=
  ⟨by decide, by decide, by decide, by decide⟩

end TyLang.Temporal
