import TyLang.Lib.Calendar

/-!
Dates and day numbers in `lib/temporal.ty`. Both functions count in years that begin in March,
so that the day behind February is the last of its year, and in eras of 400 years, which all
have the same length. Division is that of C.
-/
namespace TyLang.Temporal

open TyLang.Calendar

def isLeapYear (y : Int) : Bool := y.tmod 4 = 0 && (y.tmod 100 ≠ 0 || y.tmod 400 = 0)

/-- `none` where the month is refused. -/
def daysInMonth (year month : Int) : Option Int :=
  if month ∈ [1, 3, 5, 7, 8, 10, 12] then some 31
  else if month ∈ [4, 6, 9, 11] then some 30
  else if month = 2 then some (if isLeapYear year then 29 else 28)
  else none

/-- Whether `__validate-date` does not throw. -/
def validateDate (year month day : Int) : Bool :=
  if month < 1 ∨ month > 12 then false
  else
    match daysInMonth year month with
    | some max => !(day < 1 ∨ day > max)
    | none => false

def dateToEpochDays (year month day : Int) : Int :=
  let y := if month ≤ 2 then year - 1 else year
  let era := (if 0 ≤ y then y else y - 399).tdiv 400
  let yoe := y - era * 400
  let doy := (153 * (month + (if month > 2 then -3 else 9)) + 2).tdiv 5 + day - 1
  let doe := yoe * 365 + yoe.tdiv 4 - yoe.tdiv 100 + doy
  era * 146097 + doe - 719468

def epochDaysToDate (z : Int) : Int × Int × Int :=
  let z := z + 719468
  let era := (if 0 ≤ z then z else z - 146096).tdiv 146097
  let doe := z - era * 146097
  let yoe := (doe - doe.tdiv 1460 + doe.tdiv 36524 - doe.tdiv 146096).tdiv 365
  let y := yoe + era * 400
  let doy := doe - (365 * yoe + yoe.tdiv 4 - yoe.tdiv 100)
  let mp := (5 * doy + 2).tdiv 153
  let d := doy - (153 * mp + 2).tdiv 5 + 1
  let m := mp + (if mp < 10 then 3 else -9)
  (y + (if m ≤ 2 then 1 else 0), m, d)

section Leap

lemma isLeapYear_iff (y : Int) : isLeapYear y ↔ Leap y := by
  simp [isLeapYear, Leap, Int.dvd_iff_tmod_eq_zero]

lemma daysInMonth_eq {year month : Int} (h : 1 ≤ month) (h' : month ≤ 12) :
    daysInMonth year month = some (monthLength year month) := by
  have hleap : (if isLeapYear year then (29 : Int) else 28) = if Leap year then 29 else 28 :=
    if_congr (isLeapYear_iff year) rfl rfl
  rw [daysInMonth, monthLength, hleap]
  interval_cases month <;> rfl

lemma validateDate_iff (year month day : Int) :
    validateDate year month day ↔ ∃ d : Date, d.fields = (year, month, day) := by
  rw [validateDate]
  split
  · next hmonth =>
    refine iff_of_false (by simp) ?_
    rintro ⟨d, hd⟩
    cases hd
    exact absurd hmonth (by have := d.one_le_month; have := d.month_le; omega)
  · next hmonth =>
    rw [daysInMonth_eq (by omega) (by omega)]
    constructor
    · intro h
      have hday : ¬ (day < 1 ∨ day > monthLength year month) := by simpa using h
      exact ⟨⟨year, month, day, by omega, by omega, by omega, by omega⟩, rfl⟩
    rintro ⟨d, hd⟩
    cases hd
    have := d.one_le_day
    have := d.day_le
    simp only [Bool.not_eq_true', decide_eq_false_iff_not]
    omega

end Leap

section Eras

lemma tdiv_floor {y n : Int} (hn : 0 < n) :
    (if 0 ≤ y then y else y - (n - 1)).tdiv n = y / n := by
  split
  · next h => exact Int.tdiv_eq_ediv_of_nonneg h
  next h =>
  have hdiv := Int.mul_ediv_add_emod y n
  have hpos := Int.emod_nonneg y (by omega : n ≠ 0)
  have hlt := Int.emod_lt_of_pos y hn
  have hneg : y - (n - 1) = -((n - 1 - y % n) + n * -(y / n)) := by
    rw [Int.mul_neg]
    omega
  rw [hneg, Int.neg_tdiv, Int.tdiv_eq_ediv_of_nonneg (by rw [Int.mul_neg]; omega),
    Int.add_mul_ediv_left _ _ (by omega), Int.ediv_eq_zero_of_lt (by omega) (by omega)]
  omega

/-- The days of an era, by centuries, spans of four years, years, and the day in its year. -/
lemma era_split {doe : Int} (h : 0 ≤ doe) (h' : doe < 146097) :
    ∃ c q r doy, 0 ≤ c ∧ c ≤ 3 ∧ 0 ≤ q ∧ q ≤ 24 ∧ 0 ≤ r ∧ r ≤ 3 ∧ 0 ≤ doy ∧ doy ≤ 365 ∧
      (doy = 365 → r = 3 ∧ (q = 24 → c = 3)) ∧
      doe = 36524 * c + 1461 * q + 365 * r + doy := by
  obtain ⟨c, hc, hc', n, hn, hn', hlong, rfl⟩ : ∃ c, 0 ≤ c ∧ c ≤ 3 ∧ ∃ n, 0 ≤ n ∧ n ≤ 36524 ∧
      (n = 36524 → c = 3) ∧ doe = 36524 * c + n := by
    by_cases hlast : doe = 146096
    · exact ⟨3, by omega, by omega, 36524, by omega⟩
    · exact ⟨doe / 36524, by omega, by omega, doe % 36524, by omega⟩
  obtain ⟨q, hq, hq', k, hk, hk', hlong', rfl⟩ : ∃ q, 0 ≤ q ∧ q ≤ 24 ∧ ∃ k, 0 ≤ k ∧ k ≤ 1460 ∧
      (q = 24 → k = 1460 → c = 3) ∧ n = 1461 * q + k :=
    ⟨n / 1461, by omega, by omega, n % 1461, by omega⟩
  by_cases hlast : k = 1460
  · exact ⟨c, q, 3, 365, by omega⟩
  · exact ⟨c, q, k / 365, k % 365, by omega⟩

/-- The formula for the year of an era. Days that the divisions by 1460 count too early are at
the end of a year. -/
lemma yearOfEra {c q r doy doe : Int} (hc : 0 ≤ c) (hc' : c ≤ 3) (hq : 0 ≤ q) (hq' : q ≤ 24)
    (hr : 0 ≤ r) (hr' : r ≤ 3) (hdoy : 0 ≤ doy) (hdoy' : doy ≤ 365)
    (hlast : doy = 365 → r = 3 ∧ (q = 24 → c = 3))
    (hdoe : doe = 36524 * c + 1461 * q + 365 * r + doy) :
    (doe - doe / 1460 + doe / 36524 - doe / 146096) / 365 = 100 * c + 4 * q + r := by
  by_cases hend : 1461 * q + 365 * r + doy = 36524
  · have hc : c = 3 := by omega
    have hdoe : doe = 146096 := by omega
    omega
  have hcentury : doe / 36524 = c := by omega
  have hera : doe / 146096 = 0 := by omega
  rw [hcentury, hera]
  have hspan : doe / 1460 = 25 * c + q ∨
      doe / 1460 = 25 * c + q + 1 ∧ 1460 ≤ 24 * c + q + 365 * r + doy := by omega
  omega

end Eras

section March

def yearStart (y : Int) : Int := 365 * y + y / 4 - y / 100 + y / 400

lemma yearStart_succ (y : Int) :
    yearStart y = yearStart (y - 1) + 365 + if Leap y then 1 else 0 := by
  unfold yearStart
  split
  · next h =>
    unfold Leap at h
    omega
  · next h =>
    unfold Leap at h
    omega

lemma yearStart_split {e c q r : Int} (hc : 0 ≤ c) (hc' : c ≤ 3) (hq : 0 ≤ q) (hq' : q ≤ 24)
    (hr : 0 ≤ r) (hr' : r ≤ 3) :
    yearStart (400 * e + (100 * c + 4 * q + r)) =
      146097 * e + (36524 * c + 1461 * q + 365 * r) := by
  have h4 : (400 * e + (100 * c + 4 * q + r)) / 4 = 100 * e + 25 * c + q := by omega
  have h100 : (400 * e + (100 * c + 4 * q + r)) / 100 = 4 * e + c := by omega
  have h400 : (400 * e + (100 * c + 4 * q + r)) / 400 = e := by omega
  rw [yearStart, h4, h100, h400]
  omega

lemma exists_split (y : Int) : ∃ e c q r, 0 ≤ c ∧ c ≤ 3 ∧ 0 ≤ q ∧ q ≤ 24 ∧ 0 ≤ r ∧ r ≤ 3 ∧
    y = 400 * e + (100 * c + 4 * q + r) := by
  obtain ⟨e, n, hn, hn', rfl⟩ : ∃ e n, 0 ≤ n ∧ n ≤ 399 ∧ y = 400 * e + n :=
    ⟨y / 400, y % 400, by omega⟩
  obtain ⟨c, k, hk, hk', rfl⟩ : ∃ c k, 0 ≤ k ∧ k ≤ 99 ∧ n = 100 * c + k :=
    ⟨n / 100, n % 100, by omega⟩
  exact ⟨e, c, k / 4, k % 4, by omega⟩

def fromMarch (y doy : Int) : Int × Int × Int :=
  let mp := (5 * doy + 2) / 153
  (y + (if mp < 10 then 0 else 1), mp + (if mp < 10 then 3 else -9), doy - (153 * mp + 2) / 5 + 1)

/-- The year that begins in March, and the day in it. -/
def marchYear (year month : Int) : Int := if month ≤ 2 then year - 1 else year

def marchMonth (month : Int) : Int := if month ≤ 2 then month + 9 else month - 3

def marchDay (month day : Int) : Int := (153 * marchMonth month + 2) / 5 + day - 1

lemma dateToEpochDays_eq {year month : Int} (day : Int) (h : 1 ≤ month) :
    dateToEpochDays year month day =
      yearStart (marchYear year month) + marchDay month day - 719468 := by
  have hera (y : Int) : (if 0 ≤ y then y else y - 399).tdiv 400 = y / 400 :=
    tdiv_floor (show (0 : Int) < 400 by decide)
  have hmonth : month + (if month > 2 then -3 else 9) = marchMonth month := by
    unfold marchMonth
    split <;> split <;> omega
  have hnonneg : 0 ≤ 153 * marchMonth month + 2 := by
    unfold marchMonth
    split <;> omega
  rw [dateToEpochDays, ← marchYear]
  rw [hera, hmonth, Int.tdiv_eq_ediv_of_nonneg hnonneg, marchDay]
  generalize marchYear year month = y
  rw [Int.tdiv_eq_ediv_of_nonneg (by omega), Int.tdiv_eq_ediv_of_nonneg (by omega)]
  obtain ⟨e, c, q, r, hc, hc', hq, hq', hr, hr', rfl⟩ := exists_split y
  have he : (400 * e + (100 * c + 4 * q + r)) / 400 = e := by omega
  rw [yearStart_split hc hc' hq hq' hr hr', he]
  have hyoe : 400 * e + (100 * c + 4 * q + r) - e * 400 = 100 * c + 4 * q + r := by omega
  have h4 : (100 * c + 4 * q + r) / 4 = 25 * c + q := by omega
  have h100 : (100 * c + 4 * q + r) / 100 = c := by omega
  rw [hyoe, h4, h100]
  omega

lemma epochDaysToDate_eq {y doy : Int} (h : 0 ≤ doy) (h' : doy ≤ 365)
    (hlast : doy = 365 → Leap (y + 1)) :
    epochDaysToDate (yearStart y + doy - 719468) = fromMarch y doy := by
  have hera (z : Int) : (if 0 ≤ z then z else z - 146096).tdiv 146097 = z / 146097 :=
    tdiv_floor (show (0 : Int) < 146097 by decide)
  obtain ⟨e, c, q, r, hc, hc', hq, hq', hr, hr', rfl⟩ := exists_split y
  have hend : doy = 365 → r = 3 ∧ (q = 24 → c = 3) := by
    intro hdoy
    obtain ⟨h4, h100⟩ := hlast hdoy
    omega
  obtain ⟨doe, hdoe⟩ : ∃ doe, doe = 36524 * c + 1461 * q + 365 * r + doy := ⟨_, rfl⟩
  have hz : 146097 * e + (36524 * c + 1461 * q + 365 * r) + doy - 719468 + 719468 =
      146097 * e + doe := by omega
  have he : (146097 * e + doe) / 146097 = e := by omega
  have hsub : 146097 * e + doe - e * 146097 = doe := by omega
  have hdiv {n : Int} : doe.tdiv n = doe / n := Int.tdiv_eq_ediv_of_nonneg (by omega)
  have hnonneg : 0 ≤ doe - doe / 1460 + doe / 36524 - doe / 146096 := by omega
  have h4 : (100 * c + 4 * q + r).tdiv 4 = 25 * c + q := by
    rw [Int.tdiv_eq_ediv_of_nonneg (by omega)]
    omega
  have h100 : (100 * c + 4 * q + r).tdiv 100 = c := by
    rw [Int.tdiv_eq_ediv_of_nonneg (by omega)]
    omega
  have hdoy : doe - (365 * (100 * c + 4 * q + r) + (25 * c + q) - c) = doy := by omega
  have hyoe := yearOfEra hc hc' hq hq' hr hr' h h' hend hdoe
  rw [yearStart_split hc hc' hq hq' hr hr', epochDaysToDate]
  rw [hz, hera, he, hsub, hdiv, hdiv, hdiv, Int.tdiv_eq_ediv_of_nonneg hnonneg, hyoe, h4, h100,
    hdoy]
  clear hyoe hnonneg
  rw [Int.tdiv_eq_ediv_of_nonneg (by omega), Int.tdiv_eq_ediv_of_nonneg (by omega), fromMarch]
  refine Prod.ext ?_ rfl
  dsimp only
  split <;> split <;> omega

lemma exists_march (z : Int) : ∃ y doy, 0 ≤ doy ∧ doy ≤ 365 ∧ (doy = 365 → Leap (y + 1)) ∧
    z = yearStart y + doy - 719468 := by
  obtain ⟨c, q, r, doy, hc, hc', hq, hq', hr, hr', hdoy, hdoy', hlast, hdoe⟩ :=
    era_split (Int.emod_nonneg (z + 719468) (by decide)) (Int.emod_lt_of_pos (z + 719468)
      (by decide : (0 : Int) < 146097))
  refine ⟨400 * ((z + 719468) / 146097) + (100 * c + 4 * q + r), doy, hdoy, hdoy', ?_, ?_⟩
  · intro h
    obtain ⟨rfl, hq⟩ := hlast h
    unfold Leap
    omega
  · rw [yearStart_split hc hc' hq hq' hr hr']
    omega

/-- The length of a month is the distance to the next one, except for the last one of the
year. -/
lemma marchMonth_spec (year : Int) {month : Int} (h : 1 ≤ month) (h' : month ≤ 12) :
    0 ≤ marchMonth month ∧ marchMonth month ≤ 11 ∧ (marchMonth month = 11 ↔ month = 2) ∧
      (153 * marchMonth month + 2) / 5 + monthLength year month =
        if month = 2 then if Leap year then 366 else 365
        else (153 * (marchMonth month + 1) + 2) / 5 := by
  by_cases hfeb : month = 2
  · subst hfeb
    refine ⟨by decide, by decide, by decide, ?_⟩
    change 337 + (if Leap year then 29 else 28) = if Leap year then 366 else 365
    split <;> rfl
  · interval_cases month <;>
      first | exact absurd rfl hfeb | exact ⟨by decide, by decide, by decide, rfl⟩

lemma marchDay_month (d : Date) :
    (5 * marchDay d.month d.day + 2) / 153 = marchMonth d.month := by
  obtain ⟨hlow, hhigh, hlast, hlength⟩ := marchMonth_spec d.year d.one_le_month d.month_le
  have hday := d.one_le_day
  have hday' := d.day_le
  unfold marchDay
  split at hlength
  · have h366 : (if Leap d.year then (366 : Int) else 365) ≤ 366 := by
      split <;> decide
    omega
  · omega

lemma marchDay_bounds (d : Date) :
    0 ≤ marchDay d.month d.day ∧ marchDay d.month d.day ≤ 365 ∧
      (marchDay d.month d.day = 365 → Leap (marchYear d.year d.month + 1)) := by
  obtain ⟨hlow, hhigh, hlast, hlength⟩ := marchMonth_spec d.year d.one_le_month d.month_le
  have hday := d.one_le_day
  have hday' := d.day_le
  unfold marchDay
  split at hlength
  · next hfebruary =>
    have hyear : marchYear d.year d.month + 1 = d.year := by
      rw [marchYear, if_pos (by omega)]
      omega
    rw [hyear]
    split at hlength
    · next hleap => exact ⟨by omega, by omega, fun _ => hleap⟩
    · exact ⟨by omega, by omega, fun _ => by omega⟩
  · exact ⟨by omega, by omega, fun _ => by omega⟩

lemma fromMarch_date (d : Date) :
    fromMarch (marchYear d.year d.month) (marchDay d.month d.day) = d.fields := by
  have hmonth := d.one_le_month
  have hmonth' := d.month_le
  rw [fromMarch, marchDay_month]
  unfold Date.fields marchDay marchYear
  refine Prod.ext ?_ (Prod.ext ?_ ?_)
  · unfold marchMonth
    dsimp only
    split <;> split <;> omega
  · unfold marchMonth
    dsimp only
    split <;> split <;> omega
  · dsimp only
    omega

lemma exists_date {y doy : Int} (h : 0 ≤ doy) (h' : doy ≤ 365)
    (hlast : doy = 365 → Leap (y + 1)) :
    ∃ d : Date, fromMarch y doy = d.fields ∧ marchYear d.year d.month = y ∧
      marchDay d.month d.day = doy := by
  obtain ⟨mp, hmp⟩ : ∃ mp, mp = (5 * doy + 2) / 153 := ⟨_, rfl⟩
  obtain ⟨month, hmonth⟩ : ∃ month, month = mp + (if mp < 10 then 3 else -9) := ⟨_, rfl⟩
  obtain ⟨year, hyear⟩ : ∃ year, year = y + (if mp < 10 then 0 else 1) := ⟨_, rfl⟩
  have hbounds : 1 ≤ month ∧ month ≤ 12 ∧ marchMonth month = mp ∧ marchYear year month = y := by
    unfold marchMonth marchYear
    split at hmonth <;> split at hyear <;> omega
  obtain ⟨hlow, hhigh, hmarch, hmarchYear⟩ := hbounds
  obtain ⟨-, -, -, hlength⟩ := marchMonth_spec year hlow hhigh
  rw [hmarch] at hlength
  have hday : doy - (153 * mp + 2) / 5 + 1 ≤ monthLength year month := by
    split at hlength
    · next hfebruary =>
      have hnext : y + 1 = year := by
        rw [← hmarchYear, marchYear, if_pos (by omega)]
        omega
      rw [hnext] at hlast
      split at hlength
      · omega
      · next hleap =>
        have hne : doy ≠ 365 := fun hdoy => hleap (hlast hdoy)
        omega
    · omega
  refine ⟨⟨year, month, doy - (153 * mp + 2) / 5 + 1, hlow, hhigh, by omega, hday⟩, ?_,
    hmarchYear, ?_⟩
  · rw [fromMarch, ← hmp, ← hmonth, ← hyear]
    rfl
  · dsimp only
    rw [marchDay, hmarch]
    omega

end March

section Days

def dayNumber (d : Date) : Int := dateToEpochDays d.year d.month d.day

lemma dayNumber_eq (d : Date) :
    dayNumber d = yearStart (marchYear d.year d.month) + marchDay d.month d.day - 719468 :=
  dateToEpochDays_eq d.day d.one_le_month

lemma epochDaysToDate_dayNumber (d : Date) : epochDaysToDate (dayNumber d) = d.fields := by
  obtain ⟨hlow, hhigh, hlast⟩ := marchDay_bounds d
  rw [dayNumber_eq, epochDaysToDate_eq hlow hhigh hlast, fromMarch_date]

lemma exists_dayNumber (z : Int) : ∃ d : Date, dayNumber d = z := by
  obtain ⟨y, doy, hlow, hhigh, hlast, rfl⟩ := exists_march z
  obtain ⟨d, -, hyear, hday⟩ := exists_date hlow hhigh hlast
  exact ⟨d, by rw [dayNumber_eq, hyear, hday]⟩

lemma dayNumber_next (d : Date) : dayNumber d.next = dayNumber d + 1 := by
  obtain ⟨hlow, hhigh, hlast, hlength⟩ := marchMonth_spec d.year d.one_le_month d.month_le
  have hmonth := d.one_le_month
  have hmonth' := d.month_le
  have hday' := d.day_le
  rw [dayNumber_eq, dayNumber_eq, Date.next]
  split
  · unfold marchDay
    dsimp only
    omega
  have hday : d.day = monthLength d.year d.month := by omega
  split
  · dsimp only
    by_cases hfebruary : d.month = 2
    · rw [if_pos hfebruary] at hlength
      have hyear : marchYear d.year d.month = d.year - 1 := if_pos (by omega)
      have hyear' : marchYear d.year (d.month + 1) = d.year := if_neg (by omega)
      have hstart : marchDay (d.month + 1) 1 = 0 := by
        rw [hfebruary]
        rfl
      rw [hyear, hyear', hstart, yearStart_succ d.year, marchDay, hday]
      by_cases hleap : Leap d.year
      · rw [if_pos hleap] at hlength ⊢
        omega
      · rw [if_neg hleap] at hlength ⊢
        omega
    · rw [if_neg hfebruary] at hlength
      have hyear : marchYear d.year (d.month + 1) = marchYear d.year d.month := by
        unfold marchYear
        split <;> split <;> omega
      have hnext : marchMonth (d.month + 1) = marchMonth d.month + 1 := by
        unfold marchMonth
        split <;> split <;> omega
      rw [hyear, marchDay, marchDay, hnext, hday]
      omega
  · have hdecember : d.month = 12 := by omega
    dsimp only
    rw [if_neg (by omega), hdecember] at hlength
    rw [hday, hdecember]
    have hyear : marchYear (d.year + 1) 1 = marchYear d.year 12 := by
      unfold marchYear
      simp
    rw [hyear, marchDay, marchDay]
    have h1 : marchMonth 1 = 10 := rfl
    have h12 : marchMonth 12 = 9 := rfl
    rw [h1]
    rw [h12] at hlength ⊢
    omega

theorem epochDays_bijection :
    (∀ z, ∃ d : Date, epochDaysToDate z = d.fields ∧
      validateDate d.year d.month d.day ∧ dateToEpochDays d.year d.month d.day = z ∧
        epochDaysToDate (z + 1) = d.next.fields) ∧
    (∀ d : Date, epochDaysToDate (dateToEpochDays d.year d.month d.day) = d.fields) ∧
    epochDaysToDate 0 = (1970, 1, 1) := by
  refine ⟨fun z => ?_, epochDaysToDate_dayNumber, by decide⟩
  obtain ⟨d, rfl⟩ := exists_dayNumber z
  refine ⟨d, epochDaysToDate_dayNumber d, (validateDate_iff _ _ _).mpr ⟨d, rfl⟩, rfl, ?_⟩
  rw [← dayNumber_next, epochDaysToDate_dayNumber]

end Days

end TyLang.Temporal
