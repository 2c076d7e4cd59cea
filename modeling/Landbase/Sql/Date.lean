import Landbase.Common.Basic

/-! # `convert_string_to_date`

How `sql/parser/value.cpp` makes a date of a string. The numbers are read by `sscanf`, whose result is not looked at: those
that it does not reach keep what the memory held. A number that does not fit into an `int` leaves what the library makes of
it, a parameter here.

A `Day` is an existing day of the calendar, in the years for which there are dates.
-/

namespace Landbase.Sql
set_option autoImplicit false

/-! ## `sscanf` -/

/-- `isspace`. -/
def isSpace (c : UInt8) : Bool := c == 32 || (9 ≤ c && c ≤ 13)

/-- `isdigit`. -/
def isDigit (c : UInt8) : Bool := 48 ≤ c && c ≤ 57

/-- The number that decimal digits stand for. -/
def decimal (digits : Bytes) : ℕ := digits.foldl (fun n c => 10 * n + (c.toNat - 48)) 0

section
variable (overflow : ℤ → ℤ)

/-- What an `int` holds of a number that was read. -/
def storeInt (n : ℤ) : ℤ := if -2 ^ 31 ≤ n ∧ n < 2 ^ 31 then n else overflow n

/-- The digits of `%d`, behind the sign. -/
def scanDigits (sign : ℤ) (s : Bytes) : Option (ℤ × Bytes) :=
  if (s.takeWhile isDigit).isEmpty then none
  else some (storeInt overflow (sign * decimal (s.takeWhile isDigit)), s.dropWhile isDigit)

/-- The conversion `%d`, and what is left behind it. -/
def scanInt (s : Bytes) : Option (ℤ × Bytes) :=
  match s.dropWhile isSpace with
  | [] => none
  | c :: rest =>
    if c = 45 then scanDigits overflow (-1) rest
    else if c = 43 then scanDigits overflow 1 rest
    else scanDigits overflow 1 (c :: rest)

/-- The numbers that are assigned by `n` conversions `%d` with hyphens between them. -/
def scanInts : ℕ → Bytes → List ℤ
  | 0, _ => []
  | n + 1, s =>
    match scanInt overflow s with
    | none => []
    | some (x, []) => [x]
    | some (x, c :: rest) => x :: if c = 45 then scanInts n rest else []

/-! ## The conversion -/

/-- `m_days`. -/
def mDays : List ℤ := [31, 28, 31, 30, 31, 30, 31, 31, 30, 31, 30, 31]

/-- `check_date`. -/
def checkDate (year month day : ℤ) : Bool :=
  if year > 3999 ∨ year < 0 ∨ month > 12 ∨ month < 1 ∨ day < 0 ∨ day > 31 then false
  else if year % 400 = 0 ∨ (year % 4 = 0 ∧ year % 100 ≠ 0) then
    decide (day ≤ mDays.getD (month - 1).toNat 0 ∨ (month = 2 ∧ day = 29))
  else decide (day ≤ mDays.getD (month - 1).toNat 0)

/-- What the memory of the three variables holds. -/
structure DateMemory where
  year : ℤ
  month : ℤ
  day : ℤ

/-- `convert_string_to_date`, on a string with these bytes in front of its NUL. -/
def convertStringToDate (memory : DateMemory) (s : Bytes) : ℤ :=
  let read := scanInts overflow 3 s
  let year := read.getD 0 memory.year
  let month := read.getD 1 memory.month
  let day := read.getD 2 memory.day
  if checkDate year month day then year * 10000 + month * 100 + day else -1

end

/-! ## Days -/

def isLeap (year : ℕ) : Prop := (4 ∣ year ∧ ¬100 ∣ year) ∨ 400 ∣ year

instance (year : ℕ) : Decidable (isLeap year) :=
  inferInstanceAs (Decidable ((4 ∣ year ∧ ¬100 ∣ year) ∨ 400 ∣ year))

def daysInMonth (year month : ℕ) : ℕ :=
  if month = 2 then if isLeap year then 29 else 28
  else if month ∈ [4, 6, 9, 11] then 30
  else 31

/-- A day of the calendar, in a year up to 3999. -/
structure Day where
  year : ℕ
  month : ℕ
  day : ℕ
  year_le : year ≤ 3999
  month_pos : 1 ≤ month
  month_le : month ≤ 12
  day_pos : 1 ≤ day
  day_le : day ≤ daysInMonth year month

namespace Day

def number (d : Day) : ℤ := d.year * 10000 + d.month * 100 + d.day

/-- The order of the calendar. -/
def Before (d e : Day) : Prop :=
  d.year < e.year ∨ (d.year = e.year ∧ (d.month < e.month ∨ (d.month = e.month ∧ d.day < e.day)))

/-- The string is the day's year, month and day in decimal digits, with hyphens between them. -/
def Written (d : Day) (s : Bytes) : Prop :=
  ∃ year month day : Bytes, s = year ++ 45 :: (month ++ 45 :: day) ∧
    (∀ part ∈ [year, month, day], part ≠ [] ∧ ∀ c ∈ part, isDigit c) ∧
    decimal year = d.year ∧ decimal month = d.month ∧ decimal day = d.day

theorem day_le_31 (d : Day) : d.day ≤ 31 := by
  have h := d.day_le
  unfold daysInMonth at h
  split_ifs at h <;> omega

/-- Later days have greater numbers. -/
theorem number_lt_number {d e : Day} (h : d.Before e) : d.number < e.number := by
  have hd := d.day_le_31
  have he := e.day_le_31
  have hdm := d.month_le
  have hdp := d.day_pos
  have hep := e.day_pos
  have hem := e.month_pos
  unfold number
  rcases h with hyear | ⟨hyear, hmonth | ⟨hmonth, hday⟩⟩ <;> omega

end Day

/-! ## What is read of a string -/

section
variable {overflow : ℤ → ℤ}

theorem storeInt_of_range {n : ℤ} (hlo : -2 ^ 31 ≤ n) (hhi : n < 2 ^ 31) : storeInt overflow n = n :=
  if_pos ⟨hlo, hhi⟩

theorem isSpace_of_isDigit {c : UInt8} (h : isDigit c) : isSpace c = false := by
  have hlo : (48 : UInt8) ≤ c := by
    simp only [isDigit, Bool.and_eq_true, decide_eq_true_eq] at h
    exact h.1
  have h32 : c ≠ 32 := by
    rintro rfl
    exact absurd hlo (by decide)
  have h13 : ¬c ≤ 13 := fun h13 => absurd (UInt8.le_trans hlo h13) (by decide)
  simp [isSpace, h32, h13]

/-- Digits are read up to the first byte that is none. -/
theorem scanInt_digits {digits rest : Bytes} (hne : digits ≠ []) (hdigits : ∀ c ∈ digits, isDigit c)
    (hrest : ∀ c ∈ rest.head?, isDigit c = false) :
    scanInt overflow (digits ++ rest) = some (storeInt overflow (decimal digits), rest) := by
  have htake : (digits ++ rest).takeWhile isDigit = digits := by
    rw [List.takeWhile_append_of_pos hdigits]
    cases rest with
    | nil => simp
    | cons c rest => simp [hrest c rfl]
  have hdrop : (digits ++ rest).dropWhile isDigit = rest := by
    rw [List.dropWhile_append_of_pos hdigits]
    cases rest with
    | nil => rfl
    | cons c rest => simp [hrest c rfl]
  cases digits with
  | nil => exact absurd rfl hne
  | cons c digits =>
    have hc := hdigits c (by simp)
    have hminus : c ≠ 45 := by
      rintro rfl
      exact absurd hc (by decide)
    have hplus : c ≠ 43 := by
      rintro rfl
      exact absurd hc (by decide)
    have hspace : ((c :: digits) ++ rest).dropWhile isSpace = c :: (digits ++ rest) := by
      simp [isSpace_of_isDigit hc]
    rw [List.cons_append] at htake hdrop
    rw [scanInt, hspace]
    simp only
    rw [if_neg hminus, if_neg hplus, scanDigits, htake, hdrop, one_mul]
    rfl

/-- Of a string that is a day everything is read. -/
theorem scanInts_of_written {d : Day} {s : Bytes} (h : d.Written s) :
    scanInts overflow 3 s = [(d.year : ℤ), (d.month : ℤ), (d.day : ℤ)] := by
  obtain ⟨year, month, day, rfl, hparts, hyear, hmonth, hday⟩ := h
  have hy := hparts year (by simp)
  have hm := hparts month (by simp)
  have hd := hparts day (by simp)
  have h31 := d.day_le_31
  have hyle := d.year_le
  have hmle := d.month_le
  have hhyphen : ∀ rest : Bytes, ∀ c ∈ (45 :: rest).head?, isDigit c = false := by
    intro rest c hc
    obtain rfl := Option.some.inj hc
    rfl
  have hscanday : scanInt overflow day = some (storeInt overflow (decimal day), []) := by
    have h := @scanInt_digits overflow day [] hd.1 hd.2 (by simp)
    rwa [List.append_nil] at h
  rw [scanInts, scanInt_digits hy.1 hy.2 (hhyphen _)]
  simp only [if_true]
  rw [scanInts, scanInt_digits hm.1 hm.2 (hhyphen _)]
  simp only [if_true]
  rw [scanInts, hscanday, hyear, hmonth, hday, storeInt_of_range (by omega) (by omega),
    storeInt_of_range (by omega) (by omega), storeInt_of_range (by omega) (by omega)]

end

/-! ## What is accepted -/

/-- `check_date` lets a day of number zero pass. -/
theorem checkDate_nat {year month : ℕ} (hyear : year ≤ 3999) (hlo : 1 ≤ month) (hhi : month ≤ 12) (day : ℤ) :
    checkDate year month day ↔ 0 ≤ day ∧ day ≤ daysInMonth year month := by
  have hleap : ((year : ℤ) % 400 = 0 ∨ ((year : ℤ) % 4 = 0 ∧ (year : ℤ) % 100 ≠ 0)) ↔ isLeap year := by
    unfold isLeap
    omega
  unfold checkDate daysInMonth
  simp only [hleap]
  interval_cases month <;> by_cases h : isLeap year <;> simp [h, mDays] <;> omega

/-- The numbers are those of a day, or of the day zero of a month, or the first ones of such. -/
def BeginsDay : List ℤ → Prop
  | [] => True
  | [year] => 0 ≤ year ∧ year ≤ 3999
  | [year, month] => (0 ≤ year ∧ year ≤ 3999) ∧ (1 ≤ month ∧ month ≤ 12)
  | year :: month :: day :: _ =>
    (0 ≤ year ∧ year ≤ 3999) ∧ (1 ≤ month ∧ month ≤ 12) ∧ (0 ≤ day ∧ day ≤ daysInMonth year.toNat month.toNat)

theorem checkDate_iff (year month day : ℤ) : checkDate year month day ↔ BeginsDay [year, month, day] := by
  by_cases hyear : 0 ≤ year ∧ year ≤ 3999
  · by_cases hmonth : 1 ≤ month ∧ month ≤ 12
    · have h := @checkDate_nat year.toNat month.toNat (by omega) (by omega) (by omega) day
      rw [Int.toNat_of_nonneg hyear.1, Int.toNat_of_nonneg (by omega)] at h
      simpa [BeginsDay, hyear, hmonth] using h
    · have hno : checkDate year month day = false := if_pos (by omega)
      simp [hno, BeginsDay, hmonth]
  · have hno : checkDate year month day = false := if_pos (by omega)
    simp [hno, BeginsDay, hyear]

theorem daysInMonth_ge (year month : ℕ) : 28 ≤ daysInMonth year month := by
  unfold daysInMonth
  split_ifs <;> norm_num

/-- What is read begins a day exactly when the memory can hold the rest of one. -/
theorem beginsDay_iff {read : List ℤ} (hlen : read.length ≤ 3) :
    BeginsDay read ↔ ∃ memory : DateMemory,
      checkDate (read.getD 0 memory.year) (read.getD 1 memory.month) (read.getD 2 memory.day) := by
  have hone : ∀ year month : ℕ, (1 : ℤ) ≤ daysInMonth year month := by
    intro year month
    have := daysInMonth_ge year month
    omega
  rcases read with _ | ⟨year, _ | ⟨month, _ | ⟨day, _ | ⟨extra, rest⟩⟩⟩⟩
  · exact iff_of_true trivial ⟨⟨2000, 1, 1⟩, by decide⟩
  · constructor
    · intro h
      exact ⟨⟨0, 1, 1⟩, (checkDate_iff year 1 1).mpr ⟨h, by omega, by omega, hone _ _⟩⟩
    · rintro ⟨memory, h⟩
      exact ((checkDate_iff _ _ _).mp h).1
  · constructor
    · intro h
      exact ⟨⟨0, 0, 1⟩, (checkDate_iff year month 1).mpr ⟨h.1, h.2, by omega, hone _ _⟩⟩
    · rintro ⟨memory, h⟩
      obtain ⟨hyear, hmonth, -⟩ := (checkDate_iff _ _ _).mp h
      exact ⟨hyear, hmonth⟩
  · constructor
    · intro h
      exact ⟨⟨0, 0, 0⟩, (checkDate_iff year month day).mpr h⟩
    · rintro ⟨memory, h⟩
      exact (checkDate_iff _ _ _).mp h
  · simp only [List.length_cons] at hlen
    omega

variable (overflow : ℤ → ℤ)

theorem scanInts_length (n : ℕ) (s : Bytes) : (scanInts overflow n s).length ≤ n := by
  induction n generalizing s with
  | zero => exact le_rfl
  | succ n ih =>
    rw [scanInts]
    split
    · exact Nat.zero_le _
    · exact Nat.succ_le_succ (Nat.zero_le n)
    · split
      · exact Nat.succ_le_succ (ih _)
      · exact Nat.succ_le_succ (Nat.zero_le n)

/-- Whatever the memory holds, the string is turned into the number of its day, or is refused as none. -/
def DateRight (s : Bytes) : Prop :=
  ∀ memory, (∀ d : Day, d.Written s → convertStringToDate overflow memory s = d.number) ∧
    ((¬∃ d : Day, d.Written s) → convertStringToDate overflow memory s = -1)

theorem convert_of_written {d : Day} {s : Bytes} (h : d.Written s) (memory : DateMemory) :
    convertStringToDate overflow memory s = d.number := by
  have hread : scanInts overflow 3 s = [(d.year : ℤ), (d.month : ℤ), (d.day : ℤ)] := scanInts_of_written h
  have hcheck : checkDate d.year d.month d.day :=
    (checkDate_nat d.year_le d.month_pos d.month_le d.day).mpr ⟨by omega, by exact_mod_cast d.day_le⟩
  simp [convertStringToDate, hread, hcheck, Day.number]

theorem convert_ne_neg_one_iff (memory : DateMemory) (s : Bytes) :
    convertStringToDate overflow memory s ≠ -1 ↔ checkDate ((scanInts overflow 3 s).getD 0 memory.year)
      ((scanInts overflow 3 s).getD 1 memory.month) ((scanInts overflow 3 s).getD 2 memory.day) := by
  unfold convertStringToDate
  simp only
  split_ifs with h
  · obtain ⟨hyear, hmonth, hday, -⟩ := (checkDate_iff _ _ _).mp h
    refine iff_of_true ?_ h
    omega
  · exact iff_of_false (not_not.mpr rfl) h

theorem convert_range {memory : DateMemory} {s : Bytes} (h : convertStringToDate overflow memory s ≠ -1) :
    100 ≤ convertStringToDate overflow memory s ∧ convertStringToDate overflow memory s < 2 ^ 30 := by
  have hcheck := (convert_ne_neg_one_iff overflow memory s).mp h
  obtain ⟨hyear, hmonth, hday, hlast⟩ := (checkDate_iff _ _ _).mp hcheck
  have h31 : ∀ year month : ℕ, daysInMonth year month ≤ 31 := by
    intro year month
    unfold daysInMonth
    split_ifs <;> norm_num
  have hlast' := h31 ((scanInts overflow 3 s).getD 0 memory.year).toNat ((scanInts overflow 3 s).getD 1 memory.month).toNat
  unfold convertStringToDate
  simp only [hcheck, if_true]
  omega

theorem dateRight_iff (s : Bytes) :
    DateRight overflow s ↔ (∃ d : Day, d.Written s) ∨ ¬BeginsDay (scanInts overflow 3 s) := by
  rw [beginsDay_iff (scanInts_length overflow 3 s)]
  constructor
  · intro h
    by_contra hno
    obtain ⟨hday, hbegins⟩ := not_or.mp hno
    obtain ⟨memory, hcheck⟩ := not_not.mp hbegins
    exact (convert_ne_neg_one_iff overflow memory s).mpr hcheck ((h memory).2 hday)
  · intro h memory
    refine ⟨fun d hd => convert_of_written overflow hd memory, fun hno => ?_⟩
    have hbegins := h.resolve_left hno
    by_contra hne
    exact hbegins ⟨memory, (convert_ne_neg_one_iff overflow memory s).mp hne⟩

/-- Dates are right for the strings that are days, and for those whose numbers, as far as they are read, begin no day; and
later days have greater dates. -/
theorem convertStringToDate_right_iff :
    (∀ s : Bytes, DateRight overflow s ↔ (∃ d : Day, d.Written s) ∨ ¬BeginsDay (scanInts overflow 3 s)) ∧
      ∀ (d e : Day) (s t : Bytes) (memory memory' : DateMemory), d.Written s → e.Written t → d.Before e →
        convertStringToDate overflow memory s < convertStringToDate overflow memory' t := by
  refine ⟨dateRight_iff overflow, ?_⟩
  intro d e s t memory memory' hs ht hbefore
  rw [convert_of_written overflow hs, convert_of_written overflow ht]
  exact Day.number_lt_number hbefore

/-- Both parts on `2000-02-29` and `2000-3-1`. -/
theorem convertStringToDate_right_iff_february :
    DateRight id [50, 48, 48, 48, 45, 48, 50, 45, 50, 57] ∧
      convertStringToDate id ⟨0, 0, 0⟩ [50, 48, 48, 48, 45, 48, 50, 45, 50, 57] <
        convertStringToDate id ⟨0, 0, 0⟩ [50, 48, 48, 48, 45, 51, 45, 49] := by
  have hfebruary : Day.Written ⟨2000, 2, 29, by decide, by decide, by decide, by decide, by decide⟩
      [50, 48, 48, 48, 45, 48, 50, 45, 50, 57] :=
    ⟨[50, 48, 48, 48], [48, 50], [50, 57], rfl, by simp [isDigit], by decide, by decide, by decide⟩
  have hmarch : Day.Written ⟨2000, 3, 1, by decide, by decide, by decide, by decide, by decide⟩
      [50, 48, 48, 48, 45, 51, 45, 49] :=
    ⟨[50, 48, 48, 48], [51], [49], rfl, by simp [isDigit], by decide, by decide, by decide⟩
  refine ⟨((convertStringToDate_right_iff id).1 _).mpr (Or.inl ⟨_, hfebruary⟩), ?_⟩
  exact (convertStringToDate_right_iff id).2 _ _ _ _ _ _ hfebruary hmarch (Or.inr ⟨rfl, Or.inl (by decide)⟩)

/-- The string `2000-01-00` is made a date, and the empty string is when the memory holds one. -/
theorem not_dateRight_zero :
    convertStringToDate id ⟨0, 0, 0⟩ [50, 48, 48, 48, 45, 48, 49, 45, 48, 48] = 20000100 ∧
      ¬DateRight id [50, 48, 48, 48, 45, 48, 49, 45, 48, 48] ∧
      convertStringToDate id ⟨2000, 1, 1⟩ [] = 20000101 ∧ ¬DateRight id [] := by
  have hzero : scanInts id 3 [50, 48, 48, 48, 45, 48, 49, 45, 48, 48] = [2000, 1, 0] := by decide +kernel
  have hempty : scanInts id 3 [] = [] := by decide
  refine ⟨by decide +kernel, ?_, by decide +kernel, ?_⟩
  · rw [dateRight_iff, hzero]
    rintro (⟨d, hd⟩ | hbegins)
    · have hday' : scanInts id 3 _ = _ := scanInts_of_written hd
      have hread := hday'.symm.trans hzero
      have hday := d.day_pos
      simp only [List.cons.injEq] at hread
      omega
    · exact hbegins ((checkDate_iff _ _ _).mp (by decide))
  · rw [dateRight_iff, hempty]
    rintro (⟨d, hd⟩ | hbegins)
    · have hday : scanInts id 3 _ = _ := scanInts_of_written hd
      exact absurd (hday.symm.trans hempty) (by simp)
    · exact hbegins trivial

end Landbase.Sql
