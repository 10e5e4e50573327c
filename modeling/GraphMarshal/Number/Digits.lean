/-!
# Positional digits

Digits of a natural number, most significant first, and the number that digits denote. `ofDigits_toDigits`: writing
and reading back is the identity in every base of two and more.
-/

namespace GraphMarshal.Number

/-- The digits of `n` in base `b`, most significant first; zero has one digit. -/
def toDigits (b n : Nat) : List Nat :=
  if _h : 2 ≤ b ∧ b ≤ n then toDigits b (n / b) ++ [n % b] else [n]
termination_by n
decreasing_by exact Nat.div_lt_self (by omega) (by omega)

def ofDigits (b : Nat) (ds : List Nat) : Nat := ds.foldl (fun acc d => acc * b + d) 0

theorem ofDigits_append_singleton (b : Nat) (ds : List Nat) (d : Nat) :
    ofDigits b (ds ++ [d]) = ofDigits b ds * b + d := by
  simp [ofDigits]

theorem ofDigits_toDigits (b n : Nat) : ofDigits b (toDigits b n) = n := by
  induction n using Nat.strongRecOn with
  | ind n ih =>
    rw [toDigits]
    split
    · next h =>
      rw [ofDigits_append_singleton, ih (n / b) (Nat.div_lt_self (by omega) (by omega)),
        Nat.mul_comm]
      exact Nat.div_add_mod n b
    · simp [ofDigits]

theorem lt_of_mem_toDigits {b n d : Nat} (hb : 2 ≤ b) (h : d ∈ toDigits b n) : d < b := by
  induction n using Nat.strongRecOn with
  | ind n ih =>
    rw [toDigits] at h
    split at h
    · next hn =>
      rcases List.mem_append.1 h with h | h
      · exact ih (n / b) (Nat.div_lt_self (by omega) (by omega)) h
      · rw [List.mem_singleton.1 h]; exact Nat.mod_lt _ (by omega)
    · rw [List.mem_singleton.1 h]; omega

theorem toDigits_ne_nil (b n : Nat) : toDigits b n ≠ [] := by
  rw [toDigits]; split <;> simp

/-! ## Characters -/

/-- The value of an ASCII decimal digit. -/
def digitValue? (c : Char) : Option Nat := if c.isDigit then some (c.toNat - 48) else none

/-- Decimal text of a natural number. -/
def natText (n : Nat) : List Char := (toDigits 10 n).map Nat.digitChar

/-- Decimal text of an integer, with a sign if it is negative. -/
def intText (n : Int) : List Char :=
  if n < 0 then '-' :: natText n.natAbs else natText n.natAbs

/-- Lower-case hexadecimal text, at least `width` digits long. -/
def hexText (width n : Nat) : List Char :=
  let ds := (toDigits 16 n).map Nat.digitChar
  List.replicate (width - ds.length) '0' ++ ds

/-- Decimal text, at least `width` digits long. -/
def paddedText (width n : Nat) : List Char :=
  let ds := natText n
  List.replicate (width - ds.length) '0' ++ ds

/-- The number that a run of ASCII digits denotes; other characters count as zero. -/
def digitsValue (cs : List Char) : Nat := ofDigits 10 (cs.map fun c => (digitValue? c).getD 0)

theorem digitValue?_digitChar {d : Nat} (h : d < 10) : digitValue? (Nat.digitChar d) = some d := by
  have : ∀ d : Fin 10, digitValue? (Nat.digitChar d.val) = some d.val := by decide
  exact this ⟨d, h⟩

/-! ## Hexadecimal text reads back -/

theorem ofDigits_replicate_zero (b k : Nat) (ds : List Nat) :
    ofDigits b (List.replicate k 0 ++ ds) = ofDigits b ds := by
  induction k with
  | zero => rfl
  | succ k ih =>
    rw [List.replicate_succ, List.cons_append, ← ih]
    simp [ofDigits]

/-- The value of a lower-case hexadecimal digit; other characters count as zero. -/
def hexValue (c : Char) : Nat := ((List.range 16).find? fun d => Nat.digitChar d = c).getD 0

theorem hexValue_digitChar {d : Nat} (h : d < 16) : hexValue (Nat.digitChar d) = d := by
  have : ∀ d : Fin 16, hexValue (Nat.digitChar d.val) = d.val := by decide
  exact this ⟨d, h⟩

theorem ofDigits_hexText (width n : Nat) : ofDigits 16 ((hexText width n).map hexValue) = n := by
  have hdigits : ((toDigits 16 n).map Nat.digitChar).map hexValue = toDigits 16 n := by
    rw [List.map_map]
    refine (List.map_congr_left fun d hd => ?_).trans (List.map_id _)
    exact hexValue_digitChar (lt_of_mem_toDigits (by omega) hd)
  have hzero : hexValue '0' = 0 := by decide
  unfold hexText
  dsimp only
  rw [List.map_append, List.map_replicate, hzero, hdigits, ofDigits_replicate_zero, ofDigits_toDigits]

/-- Two numbers of one text are equal. -/
theorem hexText_injective {width m n : Nat} (h : hexText width m = hexText width n) : m = n := by
  rw [← ofDigits_hexText width m, h, ofDigits_hexText]

end GraphMarshal.Number
