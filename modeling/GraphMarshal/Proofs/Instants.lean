import GraphMarshal.Proofs.Codec
import GraphMarshal.Proofs.Dates

/-!
# Texts of instants

The text of an instant is read back by one of three readers at most. RFC 3339 wants four digits for
a year and gives the instant; a year outside of 0 to 9999 has a sign and is refused. The local forms
take every year, but neither the `Z` after the clock time nor the clock time after the date, so that
no text is read as another instant. Numbers are padded on writing, and where digits end on reading
is known from what comes after them (`Ends`).
-/

namespace GraphMarshal

namespace Number

/-! ## Padded numbers -/

theorem length_toDigits_le {w n : Nat} (hw : 0 < w) (h : n < 10 ^ w) :
    (toDigits 10 n).length ≤ w := by
  induction w generalizing n with
  | zero => omega
  | succ w ih =>
    rw [toDigits]
    split
    · next hn =>
      rw [Nat.pow_succ] at h
      have hw : 0 < w := by
        rcases Nat.eq_zero_or_pos w with rfl | hpos
        · omega
        · exact hpos
      have := ih hw (n := n / 10) (by omega)
      simpa using this
    · simp

/-- Digits that denote a number. -/
structure Denotation (n : Nat) (cs : List Char) : Prop where
  digits : Digits cs
  value : digitsValue cs = n

variable {w n : Nat} {cs rest : List Char}

theorem digits_paddedText (w n : Nat) : Digits (paddedText w n) := by
  constructor
  · exact List.append_ne_nil_of_right_ne_nil _ (digits_natText n).1
  · intro c hc
    rcases List.mem_append.1 hc with hc | hc
    · rw [List.eq_of_mem_replicate hc]
      decide
    · exact isDigit_natText hc

theorem denotation_paddedText (w n : Nat) : Denotation n (paddedText w n) := by
  refine ⟨digits_paddedText w n, ?_⟩
  show ofDigits 10 (digitValues (List.replicate _ '0' ++ natText n)) = n
  unfold digitValues
  rw [List.map_append, List.map_replicate]
  exact (ofDigits_replicate_zero 10 _ _).trans (digitsValue_natText n)

theorem length_paddedText (hw : 0 < w) (h : n < 10 ^ w) : (paddedText w n).length = w := by
  have hle := length_toDigits_le hw h
  unfold paddedText natText
  simp only [List.length_append, List.length_replicate, List.length_map]
  omega

end Number

namespace Calendar

open Number Text

variable {n w : Nat} {ds rest : List Char}

/-! ## Reading digits -/

/-- A text that goes on with something else than a digit. -/
def Ends (rest : List Char) : Prop := rest.takeWhile Char.isDigit = []

theorem ends_cons (c : Char) (hc : c.isDigit = false) (rest : List Char) : Ends (c :: rest) :=
  List.takeWhile_cons_of_neg (by simp [hc])

theorem takeWhile_digits (h : Denotation n ds) (hrest : Ends rest) :
    (ds ++ rest).takeWhile Char.isDigit = ds := by
  rw [List.takeWhile_append_of_pos h.digits.2, hrest, List.append_nil]

theorem fixedNumber_digits (h : Denotation n ds) (hlength : ds.length = w) (rest : List Char) :
    fixedNumber w (ds ++ rest) = some (n, rest) := by
  unfold fixedNumber
  rw [List.take_left' hlength, List.drop_left' hlength]
  simp only [hlength, true_and]
  rw [if_pos (List.all_eq_true.2 h.digits.2), h.value]

theorem trimLeft_digits (h : Denotation n ds) (rest : List Char) :
    trimLeft (ds ++ rest) = ds ++ rest := by
  cases ds with
  | nil => exact absurd rfl h.digits.1
  | cons c ds =>
    unfold trimLeft
    rw [List.cons_append, List.dropWhile_cons, isBlank_of_isDigit (h.digits.2 c List.mem_cons_self)]
    rfl

theorem looseNumber_digits {limit : Nat} (h : Denotation n ds) (hlength : ds.length ≤ limit)
    (hrest : Ends rest) : looseNumber limit (ds ++ rest) = some (n, rest) := by
  unfold looseNumber
  rw [trimLeft_digits h]
  dsimp only
  rw [takeWhile_digits h hrest, List.take_of_length_le hlength, List.drop_left,
    if_neg (by simpa using h.digits.1), h.value]

theorem fraction_digits (h : Denotation n ds) (hlength : ds.length = w) (hw : w ≤ 9)
    (hrest : Ends rest) : fraction (ds ++ rest) = some (n * 10 ^ (9 - w), rest) := by
  unfold fraction
  rw [takeWhile_digits h hrest]
  dsimp only
  rw [if_neg (by simpa using h.digits.1), List.take_of_length_le (by omega), List.drop_left, h.value,
    hlength]
  rfl

theorem fixedNumber_paddedText (hw : 0 < w) (h : n < 10 ^ w) (rest : List Char) :
    fixedNumber w (paddedText w n ++ rest) = some (n, rest) :=
  fixedNumber_digits (denotation_paddedText w n) (length_paddedText hw h) rest

theorem looseNumber_paddedText (hw : 0 < w) (h : n < 10 ^ w) (hrest : Ends rest) :
    looseNumber w (paddedText w n ++ rest) = some (n, rest) :=
  looseNumber_digits (denotation_paddedText w n) (length_paddedText hw h).le hrest

/-! ## Reading in sequence -/

section

variable {α β : Type} {o : Option α} {a : α} {f : α → Option β} {g : List Char → Option β}

theorem bind_read (h : o = some a) : (o >>= f) = f a := by
  rw [h]
  rfl

theorem bind_expect (c : Char) : (expect c (c :: rest) >>= g) = g rest := bind_read (if_pos rfl)

end

/-! ## Clock times -/

theorem optionalFraction_fractionText (h : n < 1000000000) :
    optionalFraction (Instant.fractionText n ++ ['Z']) = some (n, ['Z']) := by
  have places : ∀ w m, 0 < w → w ≤ 9 → m < 10 ^ w → n = m * 10 ^ (9 - w) →
      optionalFraction ('.' :: paddedText w m ++ ['Z']) = some (n, ['Z']) := by
    intro w m hpos hw hm hn
    rw [hn]
    exact fraction_digits (denotation_paddedText w m) (length_paddedText hpos hm) hw rfl
  unfold Instant.fractionText
  split
  · next hzero => rw [hzero]; rfl
  · split
    · exact places 3 _ (by omega) (by omega) (by omega) (by omega)
    · split
      · exact places 6 _ (by omega) (by omega) (by omega) (by omega)
      · exact places 9 _ (by omega) (by omega) (by omega) (by omega)

/-- Second 60 is the last second of its minute with the nanoseconds of a leap second. -/
theorem clockOf_split {s n : Nat} (hs : s < 86400) (hn : n < 2000000000)
    (hleap : 1000000000 ≤ n → s % 60 = 59) :
    clockOf? (s / 3600) (s / 60 % 60) (s % 60 + n / 1000000000) (n % 1000000000) = some (s, n) := by
  unfold clockOf?
  rw [if_pos (by omega)]
  congr 1
  by_cases h : 1000000000 ≤ n
  · have := hleap h
    rw [if_pos (by omega), Nat.min_eq_right (by omega)]
    ext <;> simp only <;> omega
  · rw [if_neg (by omega), Nat.min_eq_left (by omega)]
    ext <;> simp only <;> omega

theorem Date.IsValid.fields_lt {d : Date} (h : d.IsValid) : d.month < 100 ∧ d.day < 100 := by
  have hlength : daysInMonth d.year d.month ≤ 31 := by
    unfold daysInMonth
    split_ifs <;> omega
  have hmonth := h.2.1
  have hday := h.2.2.2
  omega

namespace Instant

variable (t : Instant)

theorem secondOfDay_lt : t.secondOfDay < 86400 := by
  unfold secondOfDay
  omega

theorem isValid_date : t.date.IsValid := isValid_ofDays _

theorem instantOf_date : instantOf? t.date (t.secondOfDay, t.nanos) 0 = some t := by
  have hseconds : t.date.toDays * 86400 + (t.secondOfDay : Int) - 0 = t.seconds := by
    unfold date secondOfDay
    rw [toDays_ofDays]
    omega
  unfold instantOf?
  rw [if_pos t.isValid_date]
  dsimp only
  rw [hseconds]
  exact dif_pos t.isInstant

theorem fields_lt : t.secondOfDay / 3600 < 100 ∧ t.secondOfDay / 60 % 60 < 100 ∧
    t.secondOfDay % 60 + t.nanos / 1000000000 < 100 := by
  have hday := t.secondOfDay_lt
  have hnanos := t.isInstant.2.2.1
  omega

theorem optionalFraction_nanos : optionalFraction (fractionText (t.nanos % 1000000000) ++ ['Z']) =
    some (t.nanos % 1000000000, ['Z']) :=
  optionalFraction_fractionText (Nat.mod_lt _ (by omega))

theorem clockOf_clock : clockOf? (t.secondOfDay / 3600) (t.secondOfDay / 60 % 60)
    (t.secondOfDay % 60 + t.nanos / 1000000000) (t.nanos % 1000000000) =
      some (t.secondOfDay, t.nanos) := by
  refine clockOf_split t.secondOfDay_lt t.isInstant.2.2.1 fun hleap => ?_
  have := t.isInstant.2.2.2 hleap
  unfold secondOfDay
  omega

/-! ## The RFC 3339 form -/

theorem readRfc3339_text (h : 0 ≤ t.date.year ∧ t.date.year ≤ 9999) :
    readRfc3339 t.text = some t := by
  have hdate : (⟨t.date.year.toNat, t.date.month, t.date.day⟩ : Date) = t.date := by
    rw [Int.toNat_of_nonneg h.1]
  obtain ⟨hmonth, hday⟩ := t.isValid_date.fields_lt
  obtain ⟨hhour, hminute, hsecond⟩ := t.fields_lt
  have two {n : Nat} (hn : n < 100) (rest : List Char) :=
    fixedNumber_paddedText (w := 2) (by omega) hn rest
  unfold text dateText clockText
  rw [show yearText t.date.year = paddedText 4 t.date.year.toNat from if_pos h]
  simp only [List.append_assoc, List.cons_append]
  unfold readRfc3339
  -- The readers are taken in their order, each on what the one before it left.
  refine (bind_read (fixedNumber_paddedText (by omega) (by omega) _)).trans ?_
  refine (bind_expect '-').trans ((bind_read (two hmonth _)).trans ?_)
  refine (bind_expect '-').trans ((bind_read (two hday _)).trans ?_)
  refine (bind_read (two hhour _)).trans ?_
  refine (bind_expect ':').trans ((bind_read (two hminute _)).trans ?_)
  refine (bind_expect ':').trans ((bind_read (two hsecond _)).trans ?_)
  refine (bind_read t.optionalFraction_nanos).trans ?_
  refine (bind_read (show readOffset ['Z'] = some 0 from rfl)).trans ?_
  refine (bind_read t.clockOf_clock).trans ?_
  rw [hdate]
  exact t.instantOf_date

/-- A sign before the year is not of RFC 3339. -/
theorem readRfc3339_text_eq_none (h : ¬(0 ≤ t.date.year ∧ t.date.year ≤ 9999)) :
    readRfc3339 t.text = none := by
  have hsign {c : Char} (hc : c.isDigit = false) (cs : List Char) :
      fixedNumber 4 (c :: cs) = none := by
    simp [fixedNumber, hc]
  unfold text dateText
  rw [show yearText t.date.year = _ from if_neg h]
  simp only [List.cons_append]
  unfold readRfc3339
  rw [hsign (by split <;> rfl)]
  rfl

end Instant

/-! ## The local forms -/

/-- A year is its sign and digits, or four digits and no sign. -/
theorem yearText_cases (y : Int) :
    (∃ n : Nat, n < 10 ^ 4 ∧ y = n ∧ Instant.yearText y = paddedText 4 n) ∨
    (∃ n : Nat, y = n ∧ Instant.yearText y = '+' :: paddedText 4 n) ∨
    ∃ n : Nat, y = -n ∧ Instant.yearText y = '-' :: paddedText 4 n := by
  unfold Instant.yearText
  split
  · next h => exact .inl ⟨y.toNat, by omega, by omega, rfl⟩
  · split
    · exact .inr (.inr ⟨y.natAbs, by omega, rfl⟩)
    · exact .inr (.inl ⟨y.natAbs, by omega, rfl⟩)

theorem trimLeft_yearText (y : Int) (rest : List Char) :
    trimLeft (Instant.yearText y ++ rest) = Instant.yearText y ++ rest := by
  obtain ⟨n, -, -, htext⟩ | ⟨n, -, htext⟩ | ⟨n, -, htext⟩ := yearText_cases y <;> rw [htext]
  · exact trimLeft_digits (denotation_paddedText 4 n) rest
  · rfl
  · rfl

theorem digits_ne_cons (h : Denotation n ds) {c : Char} (hc : c.isDigit = false) (r : List Char) :
    ds ++ rest ≠ c :: r := by
  cases ds with
  | nil => exact absurd rfl h.digits.1
  | cons d ds =>
    intro heq
    obtain rfl : d = c := (List.cons.inj heq).1
    rw [h.digits.2 d List.mem_cons_self] at hc
    cases hc

theorem looseYear_yearText (y : Int) (hrest : Ends rest) :
    looseYear (Instant.yearText y ++ rest) = some (y, rest) := by
  have hden (n : Nat) : Denotation n (paddedText 4 n) := denotation_paddedText 4 n
  have hdigits (n : Nat) : (paddedText 4 n ++ rest).takeWhile Char.isDigit = paddedText 4 n :=
    takeWhile_digits (hden n) hrest
  have hempty (n : Nat) : (paddedText 4 n).isEmpty = false := by
    simpa using (hden n).digits.1
  unfold looseYear
  rw [trimLeft_yearText]
  obtain ⟨n, hn, hy, htext⟩ | ⟨n, hy, htext⟩ | ⟨n, hy, htext⟩ := yearText_cases y <;>
    rw [htext, hy]
  · split
    · next heq => exact absurd heq (digits_ne_cons (hden n) rfl _)
    · next heq => exact absurd heq (digits_ne_cons (hden n) rfl _)
    · rw [looseNumber_paddedText (by omega) hn hrest]
      rfl
  · simp [hdigits, hempty, (hden n).value]
  · simp [hdigits, hempty, (hden n).value]

/-- The local form of dates takes the date of every instant. -/
theorem looseDate_dateText {d : Date} (h : d.IsValid) (hrest : Ends rest) :
    looseDate (Instant.dateText d ++ rest) = some (d, rest) := by
  obtain ⟨hmonth, hday⟩ := h.fields_lt
  unfold Instant.dateText looseDate
  simp only [List.append_assoc, List.cons_append]
  refine (bind_read (looseYear_yearText d.year (ends_cons '-' rfl _))).trans ?_
  refine (bind_expect '-').trans ((bind_read (looseNumber_paddedText (by omega) hmonth (ends_cons '-' rfl _))).trans ?_)
  refine (bind_expect '-').trans ((bind_read (looseNumber_paddedText (by omega) hday hrest)).trans ?_)
  rfl

namespace Instant

variable (t : Instant)

/-- The final `Z` is not of the local form. -/
theorem looseClock_clockText : looseClock (clockText t.secondOfDay t.nanos ++ ['Z']) = none := by
  obtain ⟨hhour, hminute, hsecond⟩ := t.fields_lt
  have hfraction : Ends (fractionText (t.nanos % 1000000000) ++ ['Z']) := by
    unfold fractionText
    split_ifs <;> rfl
  unfold clockText looseClock
  simp only [List.append_assoc, List.cons_append]
  refine (bind_read (looseNumber_paddedText (by omega) hhour (ends_cons ':' rfl _))).trans ?_
  refine (bind_expect ':').trans ((bind_read (looseNumber_paddedText (by omega) hminute (ends_cons ':' rfl _))).trans ?_)
  refine (bind_expect ':').trans ((bind_read (looseNumber_paddedText (by omega) hsecond hfraction)).trans ?_)
  exact bind_read t.optionalFraction_nanos

theorem readLocal_text : readLocal t.text = none := by
  unfold text readLocal
  rw [List.append_assoc, List.cons_append]
  refine (bind_read (looseDate_dateText t.isValid_date (ends_cons 'T' rfl _))).trans ?_
  refine (bind_expect 'T').trans ?_
  rw [t.looseClock_clockText]
  rfl

/-- What comes after the date is not of the date form. -/
theorem readDate_text : readDate t.text = none := by
  have hdrop : dropZulu t.text = dateText t.date ++ 'T' :: clockText t.secondOfDay t.nanos := by
    unfold dropZulu text
    rw [List.getLast?_concat, if_pos rfl, List.dropLast_concat]
  unfold readDate
  rw [hdrop, looseDate_dateText t.isValid_date (ends_cons 'T' rfl _)]
  rfl

theorem trim_text : trim t.text = t.text := by
  have hleft : trimLeft t.text = t.text := by
    unfold text dateText
    simp only [List.append_assoc]
    exact trimLeft_yearText _ _
  have hright (cs : List Char) : trimRight (cs ++ ['Z']) = cs ++ ['Z'] := by
    simp [trimRight, isBlank, blankRanges]
  unfold trim
  rw [hleft]
  exact hright _

theorem readDateTime_text : readDateTime t.text =
    if 0 ≤ t.date.year ∧ t.date.year ≤ 9999 then some t else none := by
  unfold readDateTime
  dsimp only
  rw [t.trim_text, t.readLocal_text, t.readDate_text]
  split
  · next h => rw [t.readRfc3339_text h]; rfl
  · next h => rw [t.readRfc3339_text_eq_none h]; rfl

end Instant

end Calendar

namespace Literal

open Calendar Vocabulary

theorem decodeTyped_dateTime (lexical : String) (k : Kind) : decodeTyped lexical Xsd.dateTime k =
    orFault ((readDateTime lexical.toList).map .dateTime) .notDate := by
  unfold decodeTyped
  dsimp only
  rw [if_neg (by decide +kernel), if_neg (by decide +kernel), if_neg (by decide +kernel),
    if_neg (by decide +kernel), if_neg (by decide +kernel), if_neg (by decide +kernel),
    if_neg (by decide +kernel), if_neg (by decide +kernel), if_pos (.inr rfl)]

/-- **Instants of four-digit years come back from their literals, and none comes back as another
instant.** The literal of an instant of another year is an error, for a member of any kind, and its
text without a datatype stays text. -/
theorem decode_dateTime (t : Instant) (language : Option String) (k : Kind) :
    encode (.dateTime t) language = .ok (.typed (Value.dateTime t).lexical .dateTime) ∧
      if 0 ≤ t.date.year ∧ t.date.year ≤ 9999 then
        decode (.typed (Value.dateTime t).lexical .dateTime) k = .ok (some (.dateTime t)) ∧
          decode (.string (Value.dateTime t).lexical) .dateTime = .ok (some (.dateTime t))
      else
        decode (.typed (Value.dateTime t).lexical .dateTime) k =
            .error (.unsupportedLiteral Xsd.dateTime (Value.dateTime t).lexical .notDate) ∧
          decode (.string (Value.dateTime t).lexical) .dateTime =
            .ok (some (.string (Value.dateTime t).lexical)) := by
  have hread : readDateTime (Value.dateTime t).lexical.toList =
      if 0 ≤ t.date.year ∧ t.date.year ≤ 9999 then some t else none := by
    rw [show (Value.dateTime t).lexical = String.ofList t.text from rfl, String.toList_ofList,
      t.readDateTime_text]
  have hplain (text : String) :
      conform text .dateTime = ((readDateTime text.toList).map .dateTime).getD (.string text) := rfl
  have hiri : Datatype.dateTime.iri = Xsd.dateTime := rfl
  refine ⟨rfl, ?_⟩
  unfold Term.typed
  rw [decode_of_not_isPlain (by decide +kernel), hiri, decodeTyped_dateTime]
  split
  · next h =>
    rw [if_pos h] at hread
    rw [hread]
    exact ⟨rfl, decode_text (by decide +kernel) (by rw [hplain, hread]; rfl)⟩
  · next h =>
    rw [if_neg h] at hread
    rw [hread]
    exact ⟨rfl, decode_text (by decide +kernel) (by rw [hplain, hread]; rfl)⟩

example : (Value.dateTime ⟨253402300800, 0, by decide⟩).lexical = "+10000-01-01T00:00:00Z" := by
  decide +kernel

end Literal

end GraphMarshal
