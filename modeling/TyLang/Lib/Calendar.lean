import Mathlib

/-!
The dates of the proleptic Gregorian calendar, in which the rule for leap years holds for all
years.
-/
namespace TyLang.Calendar

def Leap (year : Int) : Prop := 4 ∣ year ∧ (¬ 100 ∣ year ∨ 400 ∣ year)

instance (year : Int) : Decidable (Leap year) := inferInstanceAs (Decidable (_ ∧ _))

def monthLength (year month : Int) : Int :=
  if month = 2 then if Leap year then 29 else 28
  else if month = 4 ∨ month = 6 ∨ month = 9 ∨ month = 11 then 30
  else 31

structure Date where
  year : Int
  month : Int
  day : Int
  one_le_month : 1 ≤ month
  month_le : month ≤ 12
  one_le_day : 1 ≤ day
  day_le : day ≤ monthLength year month

def Date.fields (d : Date) : Int × Int × Int := (d.year, d.month, d.day)

lemma one_le_monthLength (year month : Int) : 1 ≤ monthLength year month := by
  rw [monthLength]
  split
  · split <;> decide
  · split <;> decide

def Date.next (d : Date) : Date :=
  if hday : d.day < monthLength d.year d.month then
    ⟨d.year, d.month, d.day + 1, d.one_le_month, d.month_le, by have := d.one_le_day; omega,
      by omega⟩
  else if hmonth : d.month < 12 then
    ⟨d.year, d.month + 1, 1, by have := d.one_le_month; omega, by omega, by decide,
      one_le_monthLength _ _⟩
  else ⟨d.year + 1, 1, 1, by decide, by decide, by decide, one_le_monthLength _ _⟩

end TyLang.Calendar
