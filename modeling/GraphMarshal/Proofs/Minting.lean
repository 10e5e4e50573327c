import GraphMarshal.Proofs.Scalars

/-!
# Minting identifiers from texts

Percent-encoding loses nothing: a decoder gives back the UTF-8 form of the text
(`percentDecode_percentEncode`), so two texts of one encoding are equal. What it writes holds no
white space, so an identifier in a namespace that is itself an absolute URI is one too and stays as
it is when it is minted again. The one way for two texts to get one identifier is that one of them
spells out the identifier of the other.
-/

namespace GraphMarshal

namespace Text

/-! ## Percent-decoding -/

/-- The value of a hexadecimal digit in either case. -/
def hexDigit? (c : Char) : Option Nat := (List.range 16).find? fun d => Nat.digitChar d = c.toLower

/-- The bytes of a text in UTF-8, where `%` and two hexadecimal digits stand for the byte that they
number. -/
def percentDecode : List Char → List UInt8
  | [] => []
  | '%' :: hi :: lo :: rest =>
    match hexDigit? hi, hexDigit? lo with
    | some a, some b => UInt8.ofNat (a * 16 + b) :: percentDecode rest
    | _, _ => String.utf8EncodeChar '%' ++ percentDecode (hi :: lo :: rest)
  | c :: rest => String.utf8EncodeChar c ++ percentDecode rest

/-- Text of ASCII letters, ASCII digits and escapes with upper-case digits. -/
inductive Escaped : List Char → Prop
  | nil : Escaped []
  | plain {c : Char} {cs : List Char} : c.isAlphanum → Escaped cs → Escaped (c :: cs)
  | byte {a b : Nat} {cs : List Char} : a < 16 → b < 16 → Escaped cs →
      Escaped ('%' :: upperHexDigit a :: upperHexDigit b :: cs)

theorem hexDigit?_upperHexDigit {d : Nat} (h : d < 16) : hexDigit? (upperHexDigit d) = some d := by
  have : ∀ d : Fin 16, hexDigit? (upperHexDigit d.val) = some d.val := by decide
  exact this ⟨d, h⟩

theorem percentDecode_percentByte (b : UInt8) (rest : List Char) :
    percentDecode (percentByte b ++ rest) = b :: percentDecode rest := by
  have hb : b.toNat < 256 := b.toNat_lt
  have hhi : hexDigit? (upperHexDigit (b.toNat / 16)) = some (b.toNat / 16) :=
    hexDigit?_upperHexDigit (by omega)
  have hlo : hexDigit? (upperHexDigit (b.toNat % 16)) = some (b.toNat % 16) :=
    hexDigit?_upperHexDigit (by omega)
  have hbyte : UInt8.ofNat (b.toNat / 16 * 16 + b.toNat % 16) = b := by
    rw [Nat.div_add_mod']
    exact UInt8.ofNat_toNat
  show percentDecode ('%' :: _ :: _ :: rest) = _
  rw [percentDecode, hhi, hlo]
  dsimp only
  rw [hbyte]

theorem percentDecode_flatMap_percentByte (bs : List UInt8) (rest : List Char) :
    percentDecode (bs.flatMap percentByte ++ rest) = bs ++ percentDecode rest := by
  induction bs with
  | nil => rfl
  | cons b bs ih =>
    rw [List.flatMap_cons, List.append_assoc, percentDecode_percentByte, ih, List.cons_append]

theorem percentDecode_cons {c : Char} (hc : c ≠ '%') (rest : List Char) :
    percentDecode (c :: rest) = String.utf8EncodeChar c ++ percentDecode rest := by
  rw [percentDecode]
  intro hi lo tail h
  exact absurd h hc

theorem percentDecode_percentChar (c : Char) (rest : List Char) :
    percentDecode (percentChar c ++ rest) = String.utf8EncodeChar c ++ percentDecode rest := by
  unfold percentChar
  split
  · next hc =>
    have hne : c ≠ '%' := by
      rintro rfl
      exact absurd hc (by decide)
    exact percentDecode_cons hne rest
  · exact percentDecode_flatMap_percentByte _ rest

theorem percentDecode_percentEncode (cs : List Char) :
    percentDecode (percentEncode cs) = cs.flatMap String.utf8EncodeChar := by
  induction cs with
  | nil => rfl
  | cons c cs ih => rw [percentEncode_cons, percentDecode_percentChar, ih, List.flatMap_cons]

/-- Decoding gives back the UTF-8 form. -/
theorem toByteArray_percentDecode (s : String) :
    (percentDecode (percentEncode s.toList)).toByteArray = s.toUTF8 := by
  rw [percentDecode_percentEncode, String.toUTF8_eq_toByteArray]
  calc (s.toList.flatMap String.utf8EncodeChar).toByteArray
    _ = (String.ofList s.toList).toByteArray := String.toByteArray_ofList.symm
    _ = s.toByteArray := by rw [String.ofList_toList]

theorem percentEncode_injective {s t : String}
    (h : percentEncode s.toList = percentEncode t.toList) : s = t := by
  apply String.toByteArray_inj.1
  rw [← String.toUTF8_eq_toByteArray, ← toByteArray_percentDecode, h, toByteArray_percentDecode,
    String.toUTF8_eq_toByteArray]

/-! ## What the encoder writes -/

theorem Escaped.percentByte_append (b : UInt8) {cs : List Char} (h : Escaped cs) :
    Escaped (percentByte b ++ cs) := by
  have hb : b.toNat < 256 := b.toNat_lt
  exact .byte (by omega) (by omega) h

theorem Escaped.flatMap_append (bs : List UInt8) {cs : List Char} (h : Escaped cs) :
    Escaped (bs.flatMap percentByte ++ cs) := by
  induction bs with
  | nil => exact h
  | cons b bs ih =>
    rw [List.flatMap_cons, List.append_assoc]
    exact ih.percentByte_append b

theorem escaped_percentEncode (cs : List Char) : Escaped (percentEncode cs) := by
  induction cs with
  | nil => exact .nil
  | cons c cs ih =>
    rw [percentEncode_cons]
    unfold percentChar
    split
    · next hc => exact .plain hc ih
    · exact ih.flatMap_append _

theorem isBlank_upperHexDigit {d : Nat} (h : d < 16) : isBlank (upperHexDigit d) = false := by
  have : ∀ d : Fin 16, isBlank (upperHexDigit d.val) = false := by decide
  exact this ⟨d, h⟩

theorem Escaped.isBlank {cs : List Char} (h : Escaped cs) : ∀ c ∈ cs, isBlank c = false := by
  induction h with
  | nil => nofun
  | plain hc _ ih => exact List.forall_mem_cons.2 ⟨isBlank_of_isAlphanum hc, ih⟩
  | byte ha hb _ ih =>
    refine List.forall_mem_cons.2 ⟨by decide, List.forall_mem_cons.2 ⟨?_, List.forall_mem_cons.2 ⟨?_, ih⟩⟩⟩
    · exact isBlank_upperHexDigit ha
    · exact isBlank_upperHexDigit hb

theorem AbsoluteUri.append {cs tail : List Char} (h : AbsoluteUri cs)
    (htail : ∀ c ∈ tail, isBlank c = false) : AbsoluteUri (cs ++ tail) := by
  obtain ⟨scheme, rest, rfl, hscheme, hrest, hblank⟩ := h
  refine ⟨scheme, rest ++ tail, by simp, hscheme, by simp [hrest], fun c hc => ?_⟩
  rcases List.mem_append.1 hc with hc | hc
  · exact hblank c hc
  · exact htail c hc

end Text

/-- Whether a value is of a kind that is written as a literal. -/
def Value.isScalar (v : Value) : Bool := (Kind.ofName? none v.kindName).any Kind.isScalar

namespace Engine

open Text

/-! ## Minted identifiers -/

/-- The namespace of minted identifiers, followed by the text in percent-encoding. -/
def spelledOut (ns : Option String) (text : String) : String :=
  ns.getD Resource.defaultNamespace ++ String.ofList (percentEncode text.toList)

/-- A text spells out the identifier that is minted from another one. -/
def SpellsOut (ns : Option String) (a b : String) : Prop :=
  AbsoluteUri a.toList ∧ ¬AbsoluteUri b.toList ∧ a = spelledOut ns b

variable {ns : Option String} {a b : String}

theorem mint_of_absolute (h : AbsoluteUri a.toList) : mint ns a = .iri a :=
  if_pos (isAbsoluteUri_iff.2 h)

theorem mint_of_not_absolute (h : ¬AbsoluteUri a.toList) : mint ns a = .iri (spelledOut ns a) :=
  if_neg fun habs => h (isAbsoluteUri_iff.1 habs)

theorem spelledOut_injective (h : spelledOut ns a = spelledOut ns b) : a = b := by
  have htail : String.ofList (percentEncode a.toList) = String.ofList (percentEncode b.toList) :=
    String.append_right_inj _ |>.1 h
  exact percentEncode_injective (String.ofList_injective htail)

/-- An absolute text is met by the texts whose identifiers it spells out. -/
theorem mint_eq_mint_iff (ha : AbsoluteUri a.toList) (hb : ¬AbsoluteUri b.toList) :
    mint ns a = mint ns b ↔ a = spelledOut ns b := by
  rw [mint_of_absolute ha, mint_of_not_absolute hb]
  exact Resource.iri.injEq _ _ ▸ Iff.rfl

theorem mint_eq_iff (hne : a ≠ b) :
    mint ns a = mint ns b ↔ SpellsOut ns a b ∨ SpellsOut ns b a := by
  unfold SpellsOut
  by_cases ha : AbsoluteUri a.toList <;> by_cases hb : AbsoluteUri b.toList
  · simp [mint_of_absolute ha, mint_of_absolute hb, ha, hb, hne]
  · simp [mint_eq_mint_iff ha hb, ha, hb]
  · simp [eq_comm (a := mint ns a), mint_eq_mint_iff hb ha, ha, hb]
  · have hdiffer : spelledOut ns a ≠ spelledOut ns b := fun h => hne (spelledOut_injective h)
    simp [mint_of_not_absolute ha, mint_of_not_absolute hb, ha, hb, hdiffer]

theorem absoluteUri_spelledOut (text : String) : AbsoluteUri (spelledOut none text).toList := by
  have hns : AbsoluteUri Resource.defaultNamespace.toList := isAbsoluteUri_iff.1 (by decide +kernel)
  show AbsoluteUri (_ ++ _ : String).toList
  rw [String.toList_append, String.toList_ofList]
  exact hns.append (escaped_percentEncode _).isBlank

theorem idOfValue_of_isScalar (assign : RecordRef → Run Resource) {v : Value} (h : v.isScalar) :
    idOfValue assign ns v = pure (mint ns v.lexical) := by
  cases v with
  | uri | resource | ref | list =>
    simp [Value.isScalar, Value.kindName, Kind.ofName?, Kind.isScalar] at h
  | _ => rfl

/-- **Minted identifiers meet in one way.** The identifier of a scalar is minted from its text. Two
texts have one identifier only if one of them is an absolute URI that spells out the identifier of
the other, which is none. A text that is no absolute URI stands escaped after the namespace, where
it can be decoded. In the default namespace an identifier is minted again from its own text. -/
theorem mint_separates (assign : RecordRef → Run Resource) (ns : Option String) :
    (∀ v : Value, v.isScalar → idOfValue assign ns v = pure (mint ns v.lexical)) ∧
    (∀ a b, a ≠ b → (mint ns a = mint ns b ↔ SpellsOut ns a b ∨ SpellsOut ns b a)) ∧
    (∀ text : String, ¬AbsoluteUri text.toList →
      ∃ tail, mint ns text = .iri (ns.getD Resource.defaultNamespace ++ String.ofList tail) ∧
        Escaped tail ∧ (percentDecode tail).toByteArray = text.toUTF8) ∧
    ∀ text, ∃ i, mint none text = .iri i ∧ mint none i = .iri i := by
  refine ⟨fun v h => idOfValue_of_isScalar assign h, fun a b h => mint_eq_iff h, fun text h => ?_,
    fun text => ?_⟩
  · exact ⟨percentEncode text.toList, mint_of_not_absolute h, escaped_percentEncode _,
      toByteArray_percentDecode text⟩
  · by_cases h : AbsoluteUri text.toList
    · exact ⟨text, mint_of_absolute h, mint_of_absolute h⟩
    · exact ⟨spelledOut none text, mint_of_not_absolute h,
        mint_of_absolute (absoluteUri_spelledOut text)⟩

/-- The text of the identifier of `é` gets that identifier, and `%C3%A9` gets another one. -/
theorem mint_separates_accented (assign : RecordRef → Run Resource) :
    (Value.string "é").isScalar ∧
      idOfValue assign none (.string "é") = pure (mint none "é") ∧
      "urn:rdfmap:%C3%A9" ≠ "é" ∧ SpellsOut none "urn:rdfmap:%C3%A9" "é" ∧
      mint none "urn:rdfmap:%C3%A9" = mint none "é" ∧
      "é" ≠ "%C3%A9" ∧ mint none "é" ≠ mint none "%C3%A9" ∧
      ¬AbsoluteUri "é".toList ∧
      ∃ tail, mint none "é" = .iri (Resource.defaultNamespace ++ String.ofList tail) ∧
        Escaped tail ∧ (percentDecode tail).toByteArray = "é".toUTF8 := by
  have hspelled : AbsoluteUri "urn:rdfmap:%C3%A9".toList := isAbsoluteUri_iff.1 (by decide +kernel)
  have hplain : ¬AbsoluteUri "é".toList := fun h => absurd (isAbsoluteUri_iff.2 h) (by decide +kernel)
  have hescape : ¬AbsoluteUri "%C3%A9".toList := fun h =>
    absurd (isAbsoluteUri_iff.2 h) (by decide +kernel)
  have hmeet : SpellsOut none "urn:rdfmap:%C3%A9" "é" := ⟨hspelled, hplain, by decide +kernel⟩
  have happart : ¬(SpellsOut none "é" "%C3%A9" ∨ SpellsOut none "%C3%A9" "é") := by
    rintro (h | h)
    · exact hplain h.1
    · exact hescape h.1
  obtain ⟨hscalar, hmint, hdecode, -⟩ := mint_separates assign none
  exact ⟨by decide +kernel, hscalar _ (by decide +kernel), by decide, hmeet,
    (hmint _ _ (by decide)).2 (.inl hmeet), by decide,
    fun h => happart ((hmint _ _ (by decide)).1 h), hplain, hdecode _ hplain⟩

end Engine

end GraphMarshal
