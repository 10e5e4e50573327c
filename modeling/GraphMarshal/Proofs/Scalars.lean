import GraphMarshal.Engine.Write
import GraphMarshal.Proofs.Codec

/-!
# Scalars as literals

A scalar comes back from its literal, and from its text written without a datatype. Of URIs this is
so for absolute ones only: the literal of another text has no value, and as plain text it stays
text. What makes a URI absolute is a matter of grammar (`isAbsoluteUri_iff`).
-/

namespace GraphMarshal

namespace Text

/-! ## Absolute URIs -/

/-- An ASCII letter, then ASCII letters, digits, plus and minus signs and points. -/
def Scheme (cs : List Char) : Prop :=
  ∃ c tail, cs = c :: tail ∧ c.isAlpha ∧
    ∀ d ∈ tail, d.isAlphanum ∨ d = '+' ∨ d = '-' ∨ d = '.'

/-- A scheme, a colon and something more, without white space. -/
def AbsoluteUri (cs : List Char) : Prop :=
  ∃ scheme rest, cs = scheme ++ ':' :: rest ∧ Scheme scheme ∧ rest ≠ [] ∧
    ∀ c ∈ cs, isBlank c = false

variable {cs : List Char}

theorem isScheme_iff : isScheme cs ↔ Scheme cs := by
  unfold Scheme
  cases cs with
  | nil => simp [isScheme]
  | cons c tail => simp [isScheme, isSchemeChar, or_assoc]

theorem Scheme.not_mem_colon (h : Scheme cs) : ':' ∉ cs := by
  obtain ⟨c, tail, rfl, hc, htail⟩ := h
  intro hmem
  rcases List.mem_cons.1 hmem with rfl | hmem
  · exact absurd hc (by decide)
  · exact absurd (htail ':' hmem) (by decide)

theorem isAbsoluteUri_iff : isAbsoluteUri cs ↔ AbsoluteUri cs := by
  have hblank : (!cs.any isBlank) = true ↔ ∀ c ∈ cs, isBlank c = false := by simp
  constructor
  · intro h
    unfold isAbsoluteUri at h
    split at h
    · cases h
    · next scheme rest hsplit =>
      simp only [Bool.and_eq_true, Bool.not_eq_true', List.isEmpty_eq_false_iff] at h
      obtain ⟨⟨hscheme, hrest⟩, hany⟩ := h
      exact ⟨scheme, rest, (splitFirst_eq_some hsplit).1, isScheme_iff.1 hscheme, hrest,
        hblank.1 (by rw [hany]; rfl)⟩
  · rintro ⟨scheme, rest, rfl, hscheme, hrest, hnone⟩
    unfold isAbsoluteUri
    rw [splitFirst_append rest hscheme.not_mem_colon]
    simp only [Bool.and_eq_true, hblank.2 hnone, isScheme_iff.2 hscheme, and_true, true_and]
    simpa using hrest

end Text

namespace Literal

open Text

theorem termOf_of_weak {cx : Setting} {k : Kind} {v : Value} (h : v.Scalar k) (hk : k ≠ .uri)
    (hweak : cx.config.strongTyping = false) (m : MemberBinding) :
    Engine.termOf cx m v = pure (.string v.lexical) := by
  unfold Engine.termOf
  cases h with
  | uri => exact absurd rfl hk
  | _ => simp [hweak]

theorem conform_uri (u : String) :
    conform u .uri = if isAbsoluteUri u.toList then .uri u else .string u := by
  unfold conform parsePlain
  dsimp only
  split <;> rfl

/-- **Scalars read back.** A scalar that is no URI comes back from its literal in any language, and
from its text with any datatype of plain text, which is what it is written as where typing is weak.
The literal of a URI text has the URI for its value if the text is an absolute URI, and none
otherwise; with a datatype of plain text the value is then the text. -/
theorem decode_scalar (language : Option String) :
    (∀ k v, v.Scalar k → k ≠ .uri →
      (∃ t, encode v language = .ok t ∧ decode t k = .ok (some v)) ∧
      (∀ d tag, d.isPlain → decode (.literal v.lexical d tag) k = .ok (some v)) ∧
      ∀ cx m, cx.config.strongTyping = false →
        Engine.termOf cx m v = pure (.string v.lexical)) ∧
    ∀ u, encode (.uri u) language = .ok (.typed u .anyUri) ∧
      (AbsoluteUri u.toList → decode (.typed u .anyUri) .uri = .ok (some (.uri u)) ∧
        ∀ d tag, d.isPlain → decode (.literal u d tag) .uri = .ok (some (.uri u))) ∧
      (¬AbsoluteUri u.toList → decode (.typed u .anyUri) .uri = .ok none ∧
        ∀ d tag, d.isPlain → decode (.literal u d tag) .uri = .ok (some (.string u))) := by
  have hany : ∀ u, decode (.typed u .anyUri) .uri =
      .ok (if isAbsoluteUri u.toList then some (.uri u) else none) := fun u => by
    unfold Term.typed
    rw [decode_of_not_isPlain (by decide +kernel)]
    exact congrArg _ (decodeTyped_anyUri u .uri)
  refine ⟨fun k v h hk => ⟨?_, fun d tag hd => decode_text hd (conform_lexical h),
    fun cx m hweak => termOf_of_weak h hk hweak m⟩, fun u => ⟨rfl, fun habs => ?_, fun hrel => ?_⟩⟩
  · obtain ⟨t, ht, -, hdecode⟩ := decode_encode h language
    exact ⟨t, ht, hdecode⟩
  · have hu := isAbsoluteUri_iff.2 habs
    rw [hany, if_pos hu]
    exact ⟨rfl, fun d tag hd => decode_text hd (by rw [conform_uri, if_pos hu])⟩
  · have hu : ¬isAbsoluteUri u.toList := fun hu => hrel (isAbsoluteUri_iff.1 hu)
    rw [hany, if_neg hu]
    exact ⟨rfl, fun d tag hd => decode_text hd (by rw [conform_uri, if_neg hu])⟩

/-- The least 16-bit number comes back, and so does a URI unless there is white space in it. -/
theorem decode_scalar_least :
    (Value.short (-32768)).Scalar .short ∧ Kind.short ≠ .uri ∧
      (∃ t, encode (.short (-32768)) none = .ok t ∧
        decode t .short = .ok (some (.short (-32768)))) ∧
      AbsoluteUri "urn:a".toList ∧
      decode (.typed "urn:a" .anyUri) .uri = .ok (some (.uri "urn:a")) ∧
      ¬AbsoluteUri "urn: a".toList ∧
      decode (.typed "urn: a" .anyUri) .uri = .ok none := by
  have habs : AbsoluteUri "urn:a".toList := isAbsoluteUri_iff.1 (by decide +kernel)
  have hrel : ¬AbsoluteUri "urn: a".toList := fun h =>
    absurd (isAbsoluteUri_iff.2 h) (by decide +kernel)
  obtain ⟨hscalars, huris⟩ := decode_scalar none
  obtain ⟨hliteral, -⟩ := hscalars .short (.short (-32768)) (.short _) nofun
  exact ⟨.short _, nofun, hliteral, habs, ((huris "urn:a").2.1 habs).1, hrel,
    ((huris "urn: a").2.2 hrel).1⟩

end Literal

end GraphMarshal
