import GraphMarshal.Literal
import Mathlib.Data.List.Basic

/-!
# Integer literals

A numeral is an optional sign and at least one decimal digit. Texts are read digit by digit, and
whatever leading digits denote is never larger than the whole, so a number is refused for its size
only if it is out of range (`readInteger_eq_ok_iff`). Hence the literals of the integer datatypes
have a value just for the numerals of their range, and no number is ever taken for another one.
-/

namespace GraphMarshal

namespace Number

/-! ## Numerals -/

/-- The number that decimal digits continue. -/
def continued (acc : Nat) (ds : List Nat) : Nat := ds.foldl (fun acc d => acc * 10 + d) acc

theorem le_continued (ds : List Nat) : ∀ acc : Nat, acc ≤ continued acc ds := by
  induction ds with
  | nil => intro acc; exact Nat.le_refl acc
  | cons d ds ih =>
    intro acc
    have : acc * 10 + d ≤ continued acc (d :: ds) := ih (acc * 10 + d)
    omega

/-- The values of digits; other characters count as zero. -/
def digitValues (cs : List Char) : List Nat := cs.map fun c => (digitValue? c).getD 0

/-- A run of decimal digits, at least one. -/
def Digits (cs : List Char) : Prop := cs ≠ [] ∧ ∀ c ∈ cs, c.isDigit

/-- An optional sign and at least one decimal digit, and the number that they denote. -/
inductive Numeral : List Char → Int → Prop
  | unsigned {ds : List Char} : Digits ds → Numeral ds (digitsValue ds)
  | plus {ds : List Char} : Digits ds → Numeral ('+' :: ds) (digitsValue ds)
  | minus {ds : List Char} : Digits ds → Numeral ('-' :: ds) (-(digitsValue ds : Int))

variable {cs ds : List Char} {c : Char} {m n lo hi : Int}

theorem Digits.ne_sign (h : Digits (c :: ds)) : c ≠ '+' ∧ c ≠ '-' := by
  have hc : c.isDigit := h.2 c List.mem_cons_self
  constructor <;> rintro rfl <;> exact absurd hc (by decide)

theorem not_numeral_nil : ¬Numeral [] n := by
  rintro ⟨h, -⟩
  exact h rfl

theorem numeral_plus_iff : Numeral ('+' :: ds) n ↔ Digits ds ∧ n = digitsValue ds := by
  constructor
  · intro h
    cases h with
    | unsigned h => exact absurd rfl h.ne_sign.1
    | plus h => exact ⟨h, rfl⟩
  · rintro ⟨h, rfl⟩
    exact .plus h

theorem numeral_minus_iff : Numeral ('-' :: ds) n ↔ Digits ds ∧ n = -(digitsValue ds : Int) := by
  constructor
  · intro h
    cases h with
    | unsigned h => exact absurd rfl h.ne_sign.2
    | minus h => exact ⟨h, rfl⟩
  · rintro ⟨h, rfl⟩
    exact .minus h

theorem numeral_iff_of_ne_sign (hplus : c ≠ '+') (hminus : c ≠ '-') :
    Numeral (c :: ds) n ↔ Digits (c :: ds) ∧ n = digitsValue (c :: ds) := by
  constructor
  · intro h
    cases h with
    | unsigned h => exact ⟨h, rfl⟩
    | plus => exact absurd rfl hplus
    | minus => exact absurd rfl hminus
  · rintro ⟨h, rfl⟩
    exact .unsigned h

theorem Numeral.unique (hm : Numeral cs m) (hn : Numeral cs n) : m = n := by
  cases hm with
  | unsigned h =>
    cases hn with
    | unsigned => rfl
    | plus => exact absurd rfl h.ne_sign.1
    | minus => exact absurd rfl h.ne_sign.2
  | plus => exact (numeral_plus_iff.1 hn).2.symm
  | minus => exact (numeral_minus_iff.1 hn).2.symm

/-! ## Decimal text -/

theorem isDigit_digitChar {d : Nat} (h : d < 10) : (Nat.digitChar d).isDigit := by
  have : ∀ d : Fin 10, (Nat.digitChar d.val).isDigit := by decide
  exact this ⟨d, h⟩

theorem isDigit_natText {m : Nat} {c : Char} (h : c ∈ natText m) : c.isDigit := by
  obtain ⟨d, hd, rfl⟩ := List.mem_map.1 h
  exact isDigit_digitChar (lt_of_mem_toDigits (by omega) hd)

theorem digits_natText (m : Nat) : Digits (natText m) :=
  ⟨fun h => toDigits_ne_nil 10 m (List.map_eq_nil_iff.1 h), fun _ => isDigit_natText⟩

theorem digitValues_natText (m : Nat) : digitValues (natText m) = toDigits 10 m := by
  unfold digitValues natText
  rw [List.map_map]
  refine (List.map_congr_left fun d hd => ?_).trans (List.map_id _)
  show (digitValue? (Nat.digitChar d)).getD 0 = d
  rw [digitValue?_digitChar (lt_of_mem_toDigits (by omega) hd)]
  rfl

theorem digitsValue_natText (m : Nat) : digitsValue (natText m) = m := by
  show ofDigits 10 (digitValues (natText m)) = m
  rw [digitValues_natText, ofDigits_toDigits]

/-- The text of an integer denotes it. -/
theorem numeral_intText (n : Int) : Numeral (intText n) n := by
  unfold intText
  split
  · rw [numeral_minus_iff, digitsValue_natText]
    exact ⟨digits_natText _, by omega⟩
  · have htext := Numeral.unsigned (digits_natText n.natAbs)
    rw [digitsValue_natText] at htext
    rwa [show ((n.natAbs : Nat) : Int) = n by omega] at htext

/-! ## Reading -/

/-- Digits are read onto a number as long as they continue it within the bound. -/
theorem scanUp_eq_ok_iff (acc : Nat) (hacc : (acc : Int) ≤ hi) :
    scanUp hi acc cs = .ok n ↔
      (∀ c ∈ cs, c.isDigit) ∧ n = continued acc (digitValues cs) ∧ n ≤ hi := by
  induction cs generalizing acc with
  | nil =>
    constructor
    · intro h
      cases h
      exact ⟨nofun, rfl, hacc⟩
    · rintro ⟨-, rfl, -⟩
      rfl
  | cons c cs ih =>
    rw [scanUp]
    by_cases hc : c.isDigit
    · have hvalue : digitValue? c = some (c.toNat - 48) := if_pos hc
      have hcontinued : continued acc (digitValues (c :: cs)) =
          continued (acc * 10 + (c.toNat - 48)) (digitValues cs) := by
        simp [continued, digitValues, hvalue]
      rw [hvalue, hcontinued]
      dsimp only
      have hstep : (acc : Int) * 10 + (c.toNat - 48 : Nat) =
          ((acc * 10 + (c.toNat - 48) : Nat) : Int) := by omega
      rw [hstep]
      split
      · next hle =>
        rw [ih _ hle]
        simp [hc]
      · next hlt =>
        have hmono := le_continued (digitValues cs) (acc * 10 + (c.toNat - 48))
        constructor
        · nofun
        · rintro ⟨-, rfl, hle⟩
          omega
    · have hvalue : digitValue? c = none := if_neg hc
      rw [hvalue]
      simp [hc]

theorem scanDown_eq_ok_iff (acc : Int) :
    scanDown lo (-acc) cs = .ok n ↔ scanUp (-lo) acc cs = .ok (-n) := by
  induction cs generalizing acc with
  | nil =>
    show Except.ok (-acc) = Except.ok n ↔ Except.ok acc = Except.ok (-n)
    simp only [Except.ok.injEq]
    omega
  | cons c cs ih =>
    rw [scanDown, scanUp]
    cases digitValue? c with
    | none => simp
    | some d =>
      dsimp only
      have hstep : -acc * 10 - (d : Int) = -(acc * 10 + d) := by omega
      rw [hstep]
      by_cases hle : lo ≤ -(acc * 10 + d)
      · rw [if_pos hle, if_pos (by omega)]
        exact ih _
      · rw [if_neg hle, if_neg (by omega)]
        simp

/-- A number is read from its digits if it lies within the bounds, which the digits before the last
do then too. -/
theorem scanUp_zero_eq_ok_iff (hds : ds ≠ []) (hhi : 0 ≤ hi) :
    scanUp hi 0 ds = .ok n ↔ (Digits ds ∧ n = digitsValue ds) ∧ n ≤ hi := by
  have hscan : scanUp hi 0 ds = .ok n ↔ (∀ c ∈ ds, c.isDigit) ∧ n = digitsValue ds ∧ n ≤ hi :=
    scanUp_eq_ok_iff 0 hhi
  exact hscan.trans ⟨fun ⟨hall, hn, hle⟩ => ⟨⟨⟨hds, hall⟩, hn⟩, hle⟩,
    fun ⟨⟨h, hn⟩, hle⟩ => ⟨h.2, hn, hle⟩⟩

/-- **A text is read as a number** just if it denotes it and the number lies within the bounds. -/
theorem readInteger_eq_ok_iff (hlo : lo ≤ 0) (hhi : 0 ≤ hi) :
    readInteger lo hi cs = .ok n ↔ Numeral cs n ∧ lo ≤ n ∧ n ≤ hi := by
  have up : ∀ ds, ds ≠ [] → (scanUp hi 0 ds = .ok n ↔
      (Digits ds ∧ n = digitsValue ds) ∧ lo ≤ n ∧ n ≤ hi) := fun ds hds => by
    rw [scanUp_zero_eq_ok_iff hds hhi]
    refine and_congr_right fun ⟨_, hn⟩ => ?_
    omega
  have down : ∀ ds, ds ≠ [] → (scanDown lo 0 ds = .ok n ↔
      (Digits ds ∧ n = -(digitsValue ds : Int)) ∧ lo ≤ n ∧ n ≤ hi) := fun ds hds => by
    have hscan : scanDown lo 0 ds = .ok n ↔ scanUp (-lo) 0 ds = .ok (-n) := scanDown_eq_ok_iff 0
    rw [hscan, scanUp_zero_eq_ok_iff hds (by omega), and_assoc, and_assoc]
    refine and_congr_right fun _ => ?_
    omega
  unfold readInteger
  -- The cases are those of the reader: a lone sign, a sign before digits, no sign.
  split
  · simp [not_numeral_nil]
  · simp [numeral_plus_iff, Digits]
  · simp [numeral_minus_iff, Digits]
  · next ds hne => rw [numeral_plus_iff, up ds (by simpa using hne)]
  · next ds hne => rw [numeral_minus_iff, down ds (by simpa using hne)]
  · next hnil _ _ hplus hminus =>
    cases cs with
    | nil => exact absurd rfl hnil
    | cons c ds =>
      have hc : c ≠ '+' ∧ c ≠ '-' := by
        constructor <;> rintro rfl
        · exact hplus ds rfl
        · exact hminus ds rfl
      rw [numeral_iff_of_ne_sign hc.1 hc.2, up _ (List.cons_ne_nil c ds)]

end Number

namespace Literal

open Number Text Vocabulary

/-! ## Integer literals -/

/-- The datatypes of integers. -/
def IsIntegerType (iri : String) : Prop :=
  Xsd.isIntFamily iri ∨ Xsd.isLongFamily iri ∨ Xsd.isShortFamily iri ∨ Xsd.isByteFamily iri

/-- The numbers that literals of an integer datatype can have. -/
def InRange (iri : String) (n : Int) : Prop :=
  if Xsd.isByteFamily iri then -128 ≤ n ∧ n ≤ 127
  else if Xsd.isShortFamily iri then -32768 ≤ n ∧ n ≤ 32767
  else -9223372036854775808 ≤ n ∧ n ≤ 9223372036854775807

/-- Whether a value is the one for a number under an integer datatype: it is the number, at the
width of the datatype. The widths for the int family are 32 bits where the number fits and 64 bits
where it does not. -/
def IsIntegerFor (iri : String) (n : Int) : Value → Prop
  | .byte v => Xsd.isByteFamily iri ∧ v.toInt = n
  | .short v => Xsd.isShortFamily iri ∧ v.toInt = n
  | .int v => Xsd.isIntFamily iri ∧ v.toInt = n
  | .long v => (Xsd.isLongFamily iri ∨
      Xsd.isIntFamily iri ∧ ¬(-2147483648 ≤ n ∧ n ≤ 2147483647)) ∧ v.toInt = n
  | _ => False

/-- What reading a text as an integer of a datatype comes to: the value for the number that the text
denotes if it is in range, and an error if the text denotes none that is. -/
structure ReadsIntegers (iri : String) (cs : List Char) (read : Except IntegerError Value) :
    Prop where
  value : ∀ n, Numeral cs n → InRange iri n → ∃ v, read = .ok v ∧ IsIntegerFor iri n v
  error : (¬∃ n, Numeral cs n ∧ InRange iri n) → ∃ e, read = .error e

variable {iri lexical : String} {cs : List Char} {k : Kind}

theorem readsIntegers_of_bounds {lo hi : Int} {f : Int → Value} (hlo : lo ≤ 0) (hhi : 0 ≤ hi)
    (hrange : ∀ n, InRange iri n ↔ lo ≤ n ∧ n ≤ hi)
    (hvalue : ∀ n, lo ≤ n → n ≤ hi → IsIntegerFor iri n (f n)) :
    ReadsIntegers iri cs ((readInteger lo hi cs).map f) := by
  constructor
  · intro n hn hin
    obtain ⟨hle, hge⟩ := (hrange n).1 hin
    rw [(readInteger_eq_ok_iff hlo hhi).2 ⟨hn, hle, hge⟩]
    exact ⟨f n, rfl, hvalue n hle hge⟩
  · intro hnone
    cases hread : readInteger lo hi cs with
    | error e => exact ⟨e, rfl⟩
    | ok n =>
      obtain ⟨hn, hin⟩ := (readInteger_eq_ok_iff hlo hhi).1 hread
      exact absurd ⟨n, hn, (hrange n).2 hin⟩ hnone

/-! ### The families -/

theorem intFamily_apart : ∀ iri ∈ Xsd.intFamily, iri ≠ Xsd.boolean ∧ Xsd.isShortFamily iri = false ∧
    Xsd.isByteFamily iri = false := by
  decide +kernel

theorem longFamily_apart : ∀ iri ∈ Xsd.longFamily, iri ≠ Xsd.boolean ∧
    Xsd.isIntFamily iri = false ∧ Xsd.isShortFamily iri = false ∧ Xsd.isByteFamily iri = false := by
  decide +kernel

theorem shortFamily_apart : ∀ iri ∈ Xsd.shortFamily, iri ≠ Xsd.boolean ∧
    Xsd.isIntFamily iri = false ∧ Xsd.isLongFamily iri = false ∧ iri ≠ Xsd.double ∧
      Xsd.isFloatFamily iri = false ∧ Xsd.isByteFamily iri = false := by
  decide +kernel

theorem byteFamily_apart : ∀ iri ∈ Xsd.byteFamily, iri ≠ Xsd.boolean ∧
    Xsd.isIntFamily iri = false ∧ Xsd.isLongFamily iri = false ∧ iri ≠ Xsd.double ∧
      Xsd.isFloatFamily iri = false ∧ Xsd.isShortFamily iri = false := by
  decide +kernel

theorem decodeTyped_int (h : Xsd.isIntFamily iri) : decodeTyped lexical iri k =
    ofInteger ((readInt64 (trim lexical.toList)).map ofInt64) := by
  obtain ⟨hboolean, -⟩ := intFamily_apart iri (of_decide_eq_true h)
  unfold decodeTyped
  dsimp only
  rw [if_neg hboolean, if_pos h]

theorem decodeTyped_long (h : Xsd.isLongFamily iri) : decodeTyped lexical iri k =
    ofInteger ((readInt64 (trim lexical.toList)).map .long) := by
  obtain ⟨hboolean, hint, -⟩ := longFamily_apart iri (of_decide_eq_true h)
  unfold decodeTyped
  dsimp only
  rw [if_neg hboolean, hint, if_neg Bool.false_ne_true, if_pos h]

theorem decodeTyped_short (h : Xsd.isShortFamily iri) : decodeTyped lexical iri k =
    ofInteger ((readInt16 (trim lexical.toList)).map .short) := by
  obtain ⟨hboolean, hint, hlong, hdouble, hfloat, -⟩ := shortFamily_apart iri (of_decide_eq_true h)
  unfold decodeTyped
  dsimp only
  rw [if_neg hboolean, hint, if_neg Bool.false_ne_true, hlong, if_neg Bool.false_ne_true,
    if_neg hdouble, hfloat, if_neg Bool.false_ne_true, if_pos h]

theorem decodeTyped_byte (h : Xsd.isByteFamily iri) : decodeTyped lexical iri k =
    ofInteger ((readInt8 (trim lexical.toList)).map .byte) := by
  obtain ⟨hboolean, hint, hlong, hdouble, hfloat, hshort⟩ :=
    byteFamily_apart iri (of_decide_eq_true h)
  unfold decodeTyped
  dsimp only
  rw [if_neg hboolean, hint, if_neg Bool.false_ne_true, hlong, if_neg Bool.false_ne_true,
    if_neg hdouble, hfloat, if_neg Bool.false_ne_true, hshort, if_neg Bool.false_ne_true, if_pos h]

theorem isIntegerFor_ofInt64 (h : Xsd.isIntFamily iri) {v : Int64} {n : Int} (hn : v.toInt = n) :
    IsIntegerFor iri n (ofInt64 v) := by
  unfold ofInt64
  rw [hn]
  split
  · next hfits =>
    refine ⟨h, ?_⟩
    rw [Int64.toInt_toInt32, hn]
    exact Int.bmod_eq_of_le (by omega) (by omega)
  · next hwide => exact ⟨.inr ⟨h, hwide⟩, hn⟩

theorem map_map {ε α β γ : Type} (f : α → β) (g : β → γ) (x : Except ε α) :
    (x.map f).map g = x.map fun a => g (f a) := by
  cases x <;> rfl

theorem decodeTyped_integer (h : IsIntegerType iri) (lexical : String) (k : Kind) :
    ∃ read, decodeTyped lexical iri k = ofInteger read ∧
      ReadsIntegers iri (trim lexical.toList) read := by
  rcases h with h | h | h | h
  · obtain ⟨-, hshort, hbyte⟩ := intFamily_apart iri (of_decide_eq_true h)
    refine ⟨_, decodeTyped_int h, ?_⟩
    rw [readInt64, map_map]
    refine readsIntegers_of_bounds (by omega) (by omega) (fun n => ?_) fun n hle hge => ?_
    · simp [InRange, hshort, hbyte]
    · exact isIntegerFor_ofInt64 h (Int64.toInt_ofInt_of_le hle (by omega))
  · obtain ⟨-, -, hshort, hbyte⟩ := longFamily_apart iri (of_decide_eq_true h)
    refine ⟨_, decodeTyped_long h, ?_⟩
    rw [readInt64, map_map]
    refine readsIntegers_of_bounds (by omega) (by omega) (fun n => ?_) fun n hle hge => ?_
    · simp [InRange, hshort, hbyte]
    · exact ⟨.inl h, Int64.toInt_ofInt_of_le hle (by omega)⟩
  · obtain ⟨-, -, -, -, -, hbyte⟩ := shortFamily_apart iri (of_decide_eq_true h)
    refine ⟨_, decodeTyped_short h, ?_⟩
    rw [readInt16, map_map]
    refine readsIntegers_of_bounds (by omega) (by omega) (fun n => ?_) fun n hle hge => ?_
    · simp [InRange, h, hbyte]
    · exact ⟨h, Int16.toInt_ofInt_of_le hle (by omega)⟩
  · refine ⟨_, decodeTyped_byte h, ?_⟩
    rw [readInt8, map_map]
    refine readsIntegers_of_bounds (by omega) (by omega) (fun n => ?_) fun n hle hge => ?_
    · simp [InRange, h]
    · exact ⟨h, Int8.toInt_ofInt_of_le hle (by omega)⟩

theorem decode_of_not_isPlain {d : Datatype} {tag : Option String} (h : d.isPlain = false) :
    decode (.literal lexical d tag) k =
      (decodeTyped lexical d.iri k).mapError (.unsupportedLiteral d.iri lexical) := by
  unfold decode
  dsimp only
  rw [h, if_neg Bool.false_ne_true]
  cases decodeTyped lexical d.iri k <;> rfl

theorem not_isPlain_of_integer {d : Datatype} (h : IsIntegerType d.iri) : d.isPlain = false := by
  have hall : ∀ iri ∈ Xsd.intFamily ++ Xsd.longFamily ++ Xsd.shortFamily ++ Xsd.byteFamily,
      Datatype.isPlain ⟨iri⟩ = false := by decide +kernel
  refine hall d.iri ?_
  simp only [IsIntegerType, Xsd.isIntFamily, Xsd.isLongFamily, Xsd.isShortFamily, Xsd.isByteFamily,
    decide_eq_true_eq] at h
  simp only [List.mem_append]
  tauto

/-- **Integer literals are never read as another number.** A literal of an integer datatype, in any
language and for any kind, has a value just if its text without the white space around it is a
numeral for a number in the range of the datatype, and the value is this number. Otherwise the error
names the datatype and the text as it stands. -/
theorem decode_integer (lexical : String) (d : Datatype) (tag : Option String) (k : Kind)
    (hd : IsIntegerType d.iri) :
    (∀ n, Numeral (trim lexical.toList) n → InRange d.iri n →
      ∃ v, decode (.literal lexical d tag) k = .ok (some v) ∧ IsIntegerFor d.iri n v) ∧
    ((¬∃ n, Numeral (trim lexical.toList) n ∧ InRange d.iri n) →
      ∃ e, decode (.literal lexical d tag) k =
        .error (.unsupportedLiteral d.iri lexical (.notInteger e))) := by
  obtain ⟨read, htyped, hread⟩ := decodeTyped_integer hd lexical k
  rw [decode_of_not_isPlain (not_isPlain_of_integer hd), htyped]
  constructor
  · intro n hn hin
    obtain ⟨v, rfl, hv⟩ := hread.value n hn hin
    exact ⟨v, rfl, hv⟩
  · intro hnone
    obtain ⟨e, rfl⟩ := hread.error hnone
    exact ⟨e, rfl⟩

/-- The first number below 32 bits, with a sign, zeros and white space. -/
theorem decode_integer_wide : IsIntegerType Xsd.nonPositiveInteger ∧
    Numeral (trim "\t-002147483649 ".toList) (-2147483649) ∧
    InRange Xsd.nonPositiveInteger (-2147483649) ∧
    ∃ v, decode (.literal "\t-002147483649 " ⟨Xsd.nonPositiveInteger⟩ none) .short = .ok (some v) ∧
      IsIntegerFor Xsd.nonPositiveInteger (-2147483649) v := by
  have htype : IsIntegerType Xsd.nonPositiveInteger := .inl (by decide +kernel)
  have hnumeral : Numeral (trim "\t-002147483649 ".toList) (-2147483649) := by
    have htrim : trim "\t-002147483649 ".toList = '-' :: "002147483649".toList := by decide +kernel
    rw [htrim, numeral_minus_iff]
    exact ⟨⟨by decide +kernel, List.all_eq_true.1 (by decide +kernel)⟩, by decide +kernel⟩
  have hrange : InRange Xsd.nonPositiveInteger (-2147483649) := by
    unfold InRange
    decide +kernel
  exact ⟨htype, hnumeral, hrange, (decode_integer _ ⟨_⟩ _ _ htype).1 _ hnumeral hrange⟩

end Literal

end GraphMarshal
