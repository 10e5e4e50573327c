import GraphMarshal.Proofs.Numerals

/-!
# The literal codec reads what it writes

Integers of every width, booleans, characters, texts and absolute URIs come back from their
literals, whether these are typed or plain. The text of an integer holds no white space and its
digits overflow nowhere on the way, since what the leading digits denote is never larger than the
whole.
-/

namespace GraphMarshal

namespace Text

theorem isBlank_of_isAlphanum {c : Char} (h : c.isAlphanum) : isBlank c = false := by
  have hc : 65 ≤ c.toNat ∧ c.toNat ≤ 90 ∨ 97 ≤ c.toNat ∧ c.toNat ≤ 122 ∨
      48 ≤ c.toNat ∧ c.toNat ≤ 57 := by
    delta Char.isAlphanum Char.isAlpha Char.isUpper Char.isLower Char.isDigit at h
    simpa [UInt32.le_iff_toNat_le, or_assoc] using h
  simp only [isBlank, blankRanges, List.any_cons, List.any_nil, Bool.or_false,
    Bool.or_eq_false_iff, Bool.and_eq_false_iff, decide_eq_false_iff_not]
  omega

theorem trim_eq_self {cs : List Char} (h : ∀ c ∈ cs, isBlank c = false) : trim cs = cs := by
  have drop : ∀ l : List Char, (∀ c ∈ l, isBlank c = false) → l.dropWhile isBlank = l := by
    intro l hl
    cases l with
    | nil => rfl
    | cons c l => rw [List.dropWhile_cons, hl c List.mem_cons_self]; rfl
  unfold trim trimLeft trimRight
  rw [drop cs h, drop cs.reverse fun c hc => h c (List.mem_reverse.1 hc), List.reverse_reverse]

end Text

namespace Number

/-! ## Decimal text -/

theorem isBlank_of_isDigit {c : Char} (h : c.isDigit) : Text.isBlank c = false :=
  Text.isBlank_of_isAlphanum (by simp [Char.isAlphanum, h])

theorem intText_not_blank {n : Int} : ∀ c ∈ intText n, Text.isBlank c = false := by
  intro c hc
  unfold intText at hc
  split at hc
  · rcases List.mem_cons.1 hc with rfl | hc
    · decide
    · exact isBlank_of_isDigit (isDigit_natText hc)
  · exact isBlank_of_isDigit (isDigit_natText hc)

theorem readInteger_intText {lo hi n : Int} (hzero : lo ≤ 0 ∧ 0 ≤ hi) (hlo : lo ≤ n)
    (hhi : n ≤ hi) : readInteger lo hi (intText n) = .ok n :=
  (readInteger_eq_ok_iff hzero.1 hzero.2).2 ⟨numeral_intText n, hlo, hhi⟩

theorem trim_intText (n : Int) : Text.trim (intText n) = intText n :=
  Text.trim_eq_self intText_not_blank

theorem readInt8_intText (n : Int8) : readInt8 (intText n.toInt) = .ok n := by
  have := n.le_toInt
  have := n.toInt_lt
  unfold readInt8
  rw [readInteger_intText (by omega) (by omega) (by omega)]
  exact congrArg _ (Int8.ofInt_toInt n)

theorem readInt16_intText (n : Int16) : readInt16 (intText n.toInt) = .ok n := by
  have := n.le_toInt
  have := n.toInt_lt
  unfold readInt16
  rw [readInteger_intText (by omega) (by omega) (by omega)]
  exact congrArg _ (Int16.ofInt_toInt n)

theorem readInt32_intText (n : Int32) : readInt32 (intText n.toInt) = .ok n := by
  have := n.le_toInt
  have := n.toInt_lt
  unfold readInt32
  rw [readInteger_intText (by omega) (by omega) (by omega)]
  exact congrArg _ (Int32.ofInt_toInt n)

theorem readInt64_intText {n : Int} (hlo : -9223372036854775808 ≤ n)
    (hhi : n ≤ 9223372036854775807) :
    readInt64 (intText n) = .ok (Int64.ofInt n) := by
  unfold readInt64
  rw [readInteger_intText (by omega) hlo hhi]
  rfl

end Number

/-! ## Scalars -/

/-- The scalars of a kind whose texts and literals denote nothing else. -/
inductive Value.Scalar : Kind → Value → Prop
  | bool (b : Bool) : Scalar .bool (.bool b)
  | byte (n : Int8) : Scalar .byte (.byte n)
  | short (n : Int16) : Scalar .short (.short n)
  | int (n : Int32) : Scalar .int (.int n)
  | long (n : Int64) : Scalar .long (.long n)
  | char (c : Char) : Scalar .char (.char c)
  | string (s : String) : Scalar .string (.string s)
  | uri (u : String) : Text.isAbsoluteUri u.toList → Scalar .uri (.uri u)

namespace Literal

open Number Text Vocabulary

theorem readBool_lexical (b : Bool) : readBool (if b then "true" else "false").toList = some b := by
  cases b <;> decide +kernel

theorem conform_lexical {k : Kind} {v : Value} (h : v.Scalar k) :
    conform v.lexical k = v := by
  unfold conform
  cases h with
  | bool b => simp [parsePlain, Value.lexical, Value.lexical?, readBool_lexical b]
  | byte n =>
    simp [parsePlain, Value.lexical, Value.lexical?, trim_intText, readInt8_intText,
      Except.toOption]
  | short n =>
    simp [parsePlain, Value.lexical, Value.lexical?, trim_intText, readInt16_intText,
      Except.toOption]
  | int n =>
    simp [parsePlain, Value.lexical, Value.lexical?, trim_intText, readInt32_intText,
      Except.toOption]
  | long n =>
    have := n.le_toInt
    have := n.toInt_lt
    simp [parsePlain, Value.lexical, Value.lexical?, trim_intText,
      readInt64_intText (n := n.toInt) (by omega) (by omega), Except.toOption]
  | char c => simp [parsePlain, Value.lexical, Value.lexical?]
  | string s => simp [parsePlain, Value.lexical, Value.lexical?]
  | uri u hu => simp [parsePlain, Value.lexical, Value.lexical?, hu]

theorem not_isPlain_datatype {v : Value} {d : Datatype} (h : datatype? v = some d) :
    d.isPlain = false := by
  cases v <;> cases h <;> decide +kernel

theorem decodeTyped_boolean (lexical : String) (k : Kind) : decodeTyped lexical Xsd.boolean k =
    orFault ((readBool lexical.toList).map .bool) .notBoolean := by
  unfold decodeTyped
  dsimp only
  rw [if_pos rfl]

-- The families that come before a datatype are asked about first.
theorem decodeTyped_anyUri (lexical : String) (k : Kind) : decodeTyped lexical Xsd.anyUri k =
    .ok (if isAbsoluteUri lexical.toList then some (.uri lexical) else none) := by
  unfold decodeTyped
  dsimp only
  rw [if_neg (by decide +kernel), if_neg (by decide +kernel), if_neg (by decide +kernel),
    if_neg (by decide +kernel), if_neg (by decide +kernel), if_neg (by decide +kernel),
    if_neg (by decide +kernel), if_pos rfl]

theorem decodeTyped_lexical {k : Kind} {v : Value} {d : Datatype} (h : v.Scalar k)
    (hd : datatype? v = some d) : decodeTyped v.lexical d.iri k = .ok (some v) := by
  cases h with
  | bool b =>
    cases hd
    show decodeTyped _ Xsd.boolean _ = _
    rw [decodeTyped_boolean]
    simp [Value.lexical, Value.lexical?, readBool_lexical b, orFault]
  | byte n =>
    cases hd
    rw [decodeTyped_byte (by decide +kernel)]
    simp [Value.lexical, Value.lexical?, trim_intText, readInt8_intText, ofInteger, Except.map]
  | short n =>
    cases hd
    rw [decodeTyped_short (by decide +kernel)]
    simp [Value.lexical, Value.lexical?, trim_intText, readInt16_intText, ofInteger, Except.map]
  | int n =>
    cases hd
    have hlo := n.le_toInt
    have hhi := n.toInt_lt
    rw [decodeTyped_int (by decide +kernel)]
    have hread := readInt64_intText (n := n.toInt) (by omega) (by omega)
    have hof : ofInt64 n.toInt64 = .int n := by
      unfold ofInt64
      rw [Int32.toInt_toInt64, if_pos (by omega), Int32.toInt32_toInt64]
    simp [Value.lexical, Value.lexical?, trim_intText, hread, ofInteger, Except.map, hof]
  | long n =>
    cases hd
    have hlo := n.le_toInt
    have hhi := n.toInt_lt
    rw [decodeTyped_long (by decide +kernel)]
    have hread := readInt64_intText (n := n.toInt) (by omega) (by omega)
    rw [Int64.ofInt_toInt] at hread
    simp [Value.lexical, Value.lexical?, trim_intText, hread, ofInteger, Except.map]
  | char c => cases hd
  | string s => cases hd
  | uri u hu =>
    cases hd
    show decodeTyped _ Xsd.anyUri _ = _
    rw [decodeTyped_anyUri]
    simp [Value.lexical, Value.lexical?, hu]

theorem decode_text {s : String} {d : Datatype} {tag : Option String} {k : Kind} {v : Value}
    (hd : d.isPlain) (hv : conform s k = v) : decode (.literal s d tag) k = .ok (some v) := by
  unfold decode
  dsimp only
  rw [if_pos hd, hv]

/-- **Plain text reads back**: the text of a scalar, written without its datatype. -/
theorem decode_lexical {k : Kind} {v : Value} (h : v.Scalar k) :
    decode (.string v.lexical) k = .ok (some v) :=
  decode_text (by decide +kernel) (conform_lexical h)

theorem decode_typed {v : Value} {d : Datatype} {k : Kind} (h : v.Scalar k)
    (hd : datatype? v = some d) :
    decode (.typed v.lexical d) k = .ok (some v) := by
  unfold Term.typed
  rw [decode_of_not_isPlain (not_isPlain_datatype hd), decodeTyped_lexical h hd]
  rfl

/-- **Literals read back**: a scalar has a literal, and it denotes the scalar. -/
theorem decode_encode {k : Kind} {v : Value} (h : v.Scalar k) (language : Option String) :
    ∃ t, encode v language = .ok t ∧ t.isLiteral ∧ decode t k = .ok (some v) := by
  have htext := conform_lexical h
  cases h with
  | char c => exact ⟨_, rfl, rfl, decode_text (by decide +kernel) htext⟩
  | string s =>
    cases language with
    | none => exact ⟨_, rfl, rfl, decode_text (by decide +kernel) htext⟩
    | some tag => exact ⟨_, rfl, rfl, decode_text (by decide +kernel) htext⟩
  | bool b => exact ⟨_, rfl, rfl, decode_typed (.bool b) rfl⟩
  | byte n => exact ⟨_, rfl, rfl, decode_typed (.byte n) rfl⟩
  | short n => exact ⟨_, rfl, rfl, decode_typed (.short n) rfl⟩
  | int n => exact ⟨_, rfl, rfl, decode_typed (.int n) rfl⟩
  | long n => exact ⟨_, rfl, rfl, decode_typed (.long n) rfl⟩
  | uri u hu => exact ⟨_, rfl, rfl, decode_typed (.uri u hu) rfl⟩

end Literal

end GraphMarshal
