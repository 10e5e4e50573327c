import GraphMarshal.Calendar.Date
import Mathlib.Tactic.IntervalCases

/-!
# Dates and days

Dates and days from 1970-01-01 correspond to each other. Years begin in March here, so a day of an
era of four hundred years is given by a century, a cycle of four years, a year of the cycle and a
day of the year, of which only the last can be short by one: the leap day.
-/

namespace GraphMarshal.Calendar

/-! ## Days of an era -/

/-- Century, cycle of four years, year of the cycle and day of the year. The last year of a cycle
has a leap day, unless it ends a century other than the last one. -/
structure IsEraDay (c k j d : Int) : Prop where
  century : 0 ≤ c ∧ c ≤ 3
  cycle : 0 ≤ k ∧ k ≤ 24
  year : 0 ≤ j ∧ j ≤ 3
  day : 0 ≤ d ∧ (d ≤ 364 ∨ d = 365 ∧ j = 3 ∧ (k ≤ 23 ∨ c = 3))

variable {c k j d e : Int}

/-- The number of a day of an era. -/
def eraDay (c k j d : Int) : Int := 36524 * c + 1461 * k + 365 * j + d

theorem exists_eraDay (hlo : 0 ≤ e) (hhi : e < 146097) :
    ∃ c k j d, IsEraDay c k j d ∧ e = eraDay c k j d := by
  obtain ⟨c, hc⟩ : ∃ c, c = min (e / 36524) 3 := ⟨_, rfl⟩
  obtain ⟨r, hr⟩ : ∃ r, r = e - 36524 * c := ⟨_, rfl⟩
  obtain ⟨k, hk⟩ : ∃ k, k = r / 1461 := ⟨_, rfl⟩
  obtain ⟨s, hs⟩ : ∃ s, s = r - 1461 * k := ⟨_, rfl⟩
  obtain ⟨j, hj⟩ : ∃ j, j = min (s / 365) 3 := ⟨_, rfl⟩
  refine ⟨c, k, j, s - 365 * j, ⟨by omega, by omega, by omega, by omega⟩, ?_⟩
  unfold eraDay
  omega

theorem IsEraDay.bounds (h : IsEraDay c k j d) : 0 ≤ eraDay c k j d ∧ eraDay c k j d < 146097 := by
  obtain ⟨hc, hk, hj, hd⟩ := h
  unfold eraDay
  omega

/-- The last day of an era is the only one after four full centuries. -/
theorem IsEraDay.centuries (h : IsEraDay c k j d) (he : e = eraDay c k j d) :
    e / 36524 = c + e / 146096 := by
  obtain ⟨hc, hk, hj, hd⟩ := h
  unfold eraDay at he
  rcases eq_or_ne e 146096 with hlast | hlast
  · omega
  · have hcentury : e < 36524 * (c + 1) := by omega
    omega

/-- Taking 1460 days for a cycle counts at most one cycle too many, late in its last year. -/
theorem IsEraDay.cycles (h : IsEraDay c k j d) (he : e = eraDay c k j d) :
    e / 1460 = 25 * c + k ∧ 365 * j + d < 1460 ∨
      e / 1460 = 25 * c + k + 1 ∧ j = 3 ∧ 1 ≤ d := by
  obtain ⟨hc, hk, hj, hd⟩ := h
  unfold eraDay at he
  have hsplit : e = 1460 * (25 * c + k) + (24 * c + k + 365 * j + d) := by omega
  have hdiv : e / 1460 = 25 * c + k + (24 * c + k + 365 * j + d) / 1460 := by
    rw [hsplit]
    omega
  omega

theorem IsEraDay.year_eq (h : IsEraDay c k j d) (he : e = eraDay c k j d) :
    (e - e / 1460 + e / 36524 - e / 146096) / 365 = 100 * c + 4 * k + j := by
  have hcenturies := h.centuries he
  have hcycles := h.cycles he
  obtain ⟨hc, hk, hj, hd⟩ := h
  unfold eraDay at he
  rw [hcenturies]
  generalize e / 146096 = l
  rcases hcycles with ⟨hcycle, hless⟩ | ⟨hcycle, hlast, hpos⟩
  · rw [hcycle]
    omega
  · rw [hcycle]
    omega

/-! ## Months and years from March -/

/-- The number of days before a month, counted from March as month 0. -/
def daysBefore (m : Int) : Int := (153 * m + 2) / 5

/-- The number of a month from March. -/
def fromMarch (m : Nat) : Int := m + if m ≤ 2 then 9 else -3

/-- The year that begins in the March before a month of a year. -/
def sinceMarch (y : Int) (m : Nat) : Int := if m ≤ 2 then y - 1 else y

theorem daysInMonth_eq (y : Int) {m : Nat} (hlo : 1 ≤ m) (hhi : m ≤ 12) (hm : m ≠ 2) :
    (daysInMonth y m : Int) = daysBefore (fromMarch m + 1) - daysBefore (fromMarch m) := by
  interval_cases m <;> simp [daysInMonth, daysBefore, fromMarch] at hm ⊢

theorem daysInFebruary (y : Int) :
    isLeapYear y ∧ daysInMonth y 2 = 29 ∨ ¬isLeapYear y ∧ daysInMonth y 2 = 28 := by
  by_cases h : isLeapYear y <;> simp [daysInMonth, h]

theorem daysBefore_monthIndex (d : Int) :
    daysBefore ((5 * d + 2) / 153) ≤ d ∧ d < daysBefore ((5 * d + 2) / 153 + 1) := by
  unfold daysBefore
  omega

theorem monthIndex_eq {m : Int} (hlo : daysBefore m ≤ d) (hhi : d < daysBefore (m + 1)) :
    (5 * d + 2) / 153 = m := by
  unfold daysBefore at hlo hhi
  omega

/-- The number of days before a year from March, from the start of the year 0. -/
def daysBeforeYear (y : Int) : Int := 365 * y + y / 4 - y / 100 + y / 400

theorem toDays_eq (day : Date) : day.toDays = daysBeforeYear (sinceMarch day.year day.month) +
    daysBefore (fromMarch day.month) + day.day - 719469 := by
  unfold Date.toDays daysBeforeYear daysBefore fromMarch sinceMarch
  dsimp only
  generalize (if day.month ≤ 2 then day.year - 1 else day.year) = y
  omega

theorem isLeapYear_iff (y : Int) :
    isLeapYear y ↔ y % 4 = 0 ∧ (y % 100 ≠ 0 ∨ y % 400 = 0) := by
  simp [isLeapYear]

theorem daysBeforeYear_succ (y : Int) :
    isLeapYear y ∧ daysBeforeYear y = daysBeforeYear (y - 1) + 366 ∨
      ¬isLeapYear y ∧ daysBeforeYear y = daysBeforeYear (y - 1) + 365 := by
  rw [isLeapYear_iff]
  unfold daysBeforeYear
  omega

/-! ## Dates of days -/

/-- The date of a day of the year that begins in March of `y`. -/
def ofMarch (y d : Int) : Date :=
  let monthIndex := (5 * d + 2) / 153
  let month := if monthIndex < 10 then monthIndex + 3 else monthIndex - 9
  ⟨y + if month ≤ 2 then 1 else 0, month.toNat, (d - (153 * monthIndex + 2) / 5 + 1).toNat⟩

/-- What makes a date that of a day of a year from March. -/
structure IsDayOf (y d : Int) (day : Date) : Prop where
  month : 1 ≤ day.month ∧ day.month ≤ 12
  index : fromMarch day.month = (5 * d + 2) / 153
  year : sinceMarch day.year day.month = y
  day : day.day = d - daysBefore ((5 * d + 2) / 153) + 1

theorem isDayOf_ofMarch (y : Int) (hlo : 0 ≤ d) (hhi : d ≤ 365) : IsDayOf y d (ofMarch y d) := by
  have hbefore := daysBefore_monthIndex d
  have hindex : 0 ≤ (5 * d + 2) / 153 ∧ (5 * d + 2) / 153 ≤ 11 := by omega
  unfold ofMarch
  unfold daysBefore at hbefore
  generalize hi : (5 * d + 2) / 153 = i at hbefore hindex
  constructor <;> dsimp only [fromMarch, sinceMarch, daysBefore] <;> try rw [hi]
  · split_ifs <;> omega
  · split_ifs <;> omega
  · split_ifs <;> omega
  · omega

theorem IsDayOf.unique {y : Int} {day day' : Date} (h : IsDayOf y d day) (h' : IsDayOf y d day') :
    day = day' := by
  obtain ⟨y₁, m₁, n₁⟩ := day
  obtain ⟨y₂, m₂, n₂⟩ := day'
  have hindex := h.index.trans h'.index.symm
  have hyear := h.year.trans h'.year.symm
  have hday := h.day.trans h'.day.symm
  have hmonth := h.month
  have hmonth' := h'.month
  dsimp only [fromMarch, sinceMarch] at hindex hyear hday hmonth hmonth'
  obtain rfl : m₁ = m₂ := by split_ifs at hindex <;> omega
  obtain rfl : y₁ = y₂ := by split_ifs at hyear <;> omega
  obtain rfl : n₁ = n₂ := by omega
  rfl

/-- The year of a day, counted from March. -/
def marchYear (era c k j : Int) : Int := 400 * era + 100 * c + 4 * k + j

variable {era z : Int}

theorem IsEraDay.day_bounds (h : IsEraDay c k j d) : 0 ≤ d ∧ d ≤ 365 := by
  have := h.day
  omega

theorem ofDays_eq (h : IsEraDay c k j d) (hz : z + 719468 = 146097 * era + eraDay c k j d) :
    Date.ofDays z = ofMarch (marchYear era c k j) d := by
  have hbounds := h.bounds
  have hday : (z + 719468) % 146097 = eraDay c k j d := by omega
  have hera : (z + 719468) / 146097 = era := by omega
  have hyear := h.year_eq rfl
  have hrest : eraDay c k j d - (365 * (100 * c + 4 * k + j) + (100 * c + 4 * k + j) / 4 -
      (100 * c + 4 * k + j) / 100) = d := by
    have := h.cycle
    have := h.year
    have hcycles : (100 * c + 4 * k + j) / 4 = 25 * c + k := by omega
    have hcenturies : (100 * c + 4 * k + j) / 100 = c := by omega
    rw [hcycles, hcenturies]
    unfold eraDay
    omega
  unfold Date.ofDays ofMarch marchYear
  simp only [hday, hera, hyear, hrest, Date.mk.injEq, and_true]
  omega

theorem exists_ofDays (z : Int) : ∃ era c k j d, IsEraDay c k j d ∧
    z + 719468 = 146097 * era + eraDay c k j d := by
  obtain ⟨c, k, j, d, h, he⟩ := exists_eraDay (e := (z + 719468) % 146097) (by omega) (by omega)
  exact ⟨(z + 719468) / 146097, c, k, j, d, h, by omega⟩

theorem IsEraDay.isDayOf (h : IsEraDay c k j d) (y : Int) : IsDayOf y d (ofMarch y d) :=
  isDayOf_ofMarch y h.day_bounds.1 h.day_bounds.2

theorem toDays_ofMarch (h : IsEraDay c k j d) :
    (ofMarch (marchYear era c k j) d).toDays = 146097 * era + eraDay c k j d - 719468 := by
  have hday := h.isDayOf (marchYear era c k j)
  have hyear : daysBeforeYear (marchYear era c k j) =
      146097 * era + 36524 * c + 1461 * k + 365 * j := by
    have := h.century
    have := h.cycle
    have := h.year
    unfold daysBeforeYear marchYear
    omega
  rw [toDays_eq, hday.index, hday.year, hday.day, hyear]
  unfold eraDay
  omega

/-- The leap day is the last day of a year that ends in a leap year. -/
theorem IsEraDay.leapDay (h : IsEraDay c k j d) (hd : d = 365) :
    isLeapYear (marchYear era c k j + 1) := by
  have hc := h.century
  have hk := h.cycle
  have hday := h.day
  rw [isLeapYear_iff]
  unfold marchYear
  omega

theorem isValid_ofMarch (h : IsEraDay c k j d) : (ofMarch (marchYear era c k j) d).IsValid := by
  have hday := h.isDayOf (marchYear era c k j)
  have hbefore := daysBefore_monthIndex d
  have hleap : d = 365 → isLeapYear (marchYear era c k j + 1) := h.leapDay
  have hbounds := h.day_bounds
  generalize ofMarch (marchYear era c k j) d = date at hday
  obtain ⟨y, m, n⟩ := date
  obtain ⟨hmonth, hindex, hyear, hn⟩ := hday
  dsimp only at hmonth hindex hyear hn
  rw [← hindex] at hbefore hn
  refine ⟨hmonth.1, hmonth.2, ?_, ?_⟩ <;> dsimp only
  · omega
  · rcases eq_or_ne m 2 with rfl | hfeb
    · -- February, which has the leap day.
      have hmarch : sinceMarch y 2 = y - 1 ∧ fromMarch 2 = 11 := ⟨rfl, rfl⟩
      rw [hmarch.2, daysBefore] at hn
      rw [show marchYear era c k j + 1 = y by omega] at hleap
      obtain ⟨-, hlength⟩ | ⟨hcommon, hlength⟩ := daysInFebruary y
      · omega
      · have hlast : d ≠ 365 := fun h => hcommon (hleap h)
        omega
    · have hlength := daysInMonth_eq y hmonth.1 hmonth.2 hfeb
      omega

theorem toDays_ofDays (z : Int) : (Date.ofDays z).toDays = z := by
  obtain ⟨era, c, k, j, d, h, hz⟩ := exists_ofDays z
  rw [ofDays_eq h hz, toDays_ofMarch h]
  omega

theorem isValid_ofDays (z : Int) : (Date.ofDays z).IsValid := by
  obtain ⟨era, c, k, j, d, h, hz⟩ := exists_ofDays z
  rw [ofDays_eq h hz]
  exact isValid_ofMarch h

/-! ## Days of dates -/

/-- A valid date is that of a day of the year from March. -/
theorem exists_ofMarch {day : Date} (h : day.IsValid) :
    ∃ era c k j d, IsEraDay c k j d ∧ day = ofMarch (marchYear era c k j) d := by
  obtain ⟨y, m, n⟩ := day
  obtain ⟨hm1, hm12, hn1, hn⟩ := h
  dsimp only at hm1 hm12 hn1 hn
  obtain ⟨Y, hY⟩ : ∃ Y, Y = sinceMarch y m := ⟨_, rfl⟩
  obtain ⟨d, hd⟩ : ∃ d, d = daysBefore (fromMarch m) + n - 1 := ⟨_, rfl⟩
  have hera : IsEraDay (Y % 400 / 100) (Y % 100 / 4) (Y % 4) d ∧
      d < daysBefore (fromMarch m + 1) := by
    unfold sinceMarch at hY
    rcases eq_or_ne m 2 with rfl | hfeb
    · have hlength := daysInFebruary y
      rw [isLeapYear_iff] at hlength
      simp only [fromMarch, daysBefore] at hd ⊢
      refine ⟨⟨by omega, by omega, by omega, ?_⟩, ?_⟩ <;> omega
    · have hlength := daysInMonth_eq y hm1 hm12 hfeb
      have hmonth : 0 ≤ fromMarch m ∧ fromMarch m ≤ 10 := by
        unfold fromMarch
        split_ifs <;> omega
      generalize fromMarch m = f at hd hlength hmonth ⊢
      unfold daysBefore at hd hlength ⊢
      refine ⟨⟨by omega, by omega, by omega, ?_⟩, ?_⟩ <;> omega
  have hyear : marchYear (Y / 400) (Y % 400 / 100) (Y % 100 / 4) (Y % 4) = Y := by
    unfold marchYear
    omega
  have hindex : (5 * d + 2) / 153 = fromMarch m := monthIndex_eq (by omega) hera.2
  have hday : IsDayOf Y d ⟨y, m, n⟩ := by
    refine ⟨⟨hm1, hm12⟩, hindex.symm, hY.symm, ?_⟩
    rw [hindex]
    dsimp only
    omega
  refine ⟨Y / 400, Y % 400 / 100, Y % 100 / 4, Y % 4, d, hera.1, ?_⟩
  rw [hyear]
  exact hday.unique (hera.1.isDayOf Y)

theorem ofDays_toDays {day : Date} (h : day.IsValid) : Date.ofDays day.toDays = day := by
  obtain ⟨era, c, k, j, d, hday, rfl⟩ := exists_ofMarch h
  exact ofDays_eq hday (by rw [toDays_ofMarch hday]; omega)

/-- The date after a date. -/
def Date.next (day : Date) : Date :=
  if day.day < daysInMonth day.year day.month then { day with day := day.day + 1 }
  else if day.month < 12 then ⟨day.year, day.month + 1, 1⟩
  else ⟨day.year + 1, 1, 1⟩

theorem one_le_daysInMonth (y : Int) (m : Nat) : 1 ≤ daysInMonth y m := by
  unfold daysInMonth
  split_ifs <;> omega

theorem Date.IsValid.next {day : Date} (h : day.IsValid) : day.next.IsValid := by
  obtain ⟨y, m, n⟩ := day
  obtain ⟨hm1, hm12, hn1, hn⟩ := h
  dsimp only at hm1 hm12
  unfold Date.next
  split
  · next hlt => exact ⟨hm1, hm12, Nat.le_add_left 1 n, hlt⟩
  · split
    · next hlt => exact ⟨Nat.le_add_left 1 m, hlt, le_refl 1, one_le_daysInMonth _ _⟩
    · exact ⟨le_refl 1, Nat.le_of_ble_eq_true rfl, le_refl 1, one_le_daysInMonth _ _⟩

theorem Date.IsValid.toDays_next {day : Date} (h : day.IsValid) :
    day.next.toDays = day.toDays + 1 := by
  obtain ⟨y, m, n⟩ := day
  obtain ⟨hm1, hm12, hn1, hn⟩ := h
  dsimp only at hm1 hm12 hn1 hn
  unfold Date.next
  dsimp only
  rw [toDays_eq ⟨y, m, n⟩]
  split
  · rw [toDays_eq]
    dsimp only
    omega
  · next hlast =>
    obtain rfl : n = daysInMonth y m := by omega
    rcases eq_or_ne m 2 with rfl | hfeb
    · -- A year from March ends, which is one day longer in a leap year.
      have hyear := daysBeforeYear_succ y
      have hlength := daysInFebruary y
      rw [isLeapYear_iff] at hyear hlength
      have hmarch : sinceMarch y 2 = y - 1 ∧ sinceMarch y (2 + 1) = y := ⟨rfl, rfl⟩
      have hfrom : fromMarch 2 = 11 ∧ fromMarch (2 + 1) = 0 := ⟨rfl, rfl⟩
      rw [if_pos (by decide), toDays_eq]
      simp only [hmarch, hfrom, daysBefore]
      omega
    · have hlength := daysInMonth_eq y hm1 hm12 hfeb
      split
      · next hlt =>
        have hmonth : fromMarch (m + 1) = fromMarch m + 1 ∧ sinceMarch y (m + 1) = sinceMarch y m := by
          unfold fromMarch sinceMarch
          split_ifs <;> omega
        rw [toDays_eq]
        simp only [hmonth]
        omega
      · next hdec =>
        obtain rfl : m = 12 := by omega
        have hyear : sinceMarch (y + 1) 1 = sinceMarch y 12 := by simp [sinceMarch]
        have hmonth : fromMarch 1 = fromMarch 12 + 1 := by decide
        rw [toDays_eq]
        simp only [hyear, hmonth]
        omega

/-- **The calendar goes on by one date each day.** -/
theorem ofDays_succ (z : Int) : Date.ofDays (z + 1) = (Date.ofDays z).next := by
  have hvalid := isValid_ofDays z
  rw [← ofDays_toDays hvalid.next, hvalid.toDays_next, toDays_ofDays]

example : Date.ofDays 0 = ⟨1970, 1, 1⟩ := by decide

end GraphMarshal.Calendar
