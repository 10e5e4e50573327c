/-!
# Splitting text at a character

`splitFirst` cuts at the first occurrence of a separator, `splitOn` at every one, and `upToLast` keeps what
stands up to and with the last character of a class.
-/

namespace GraphMarshal.Text

/-- What stands before and after the first `sep`; nothing if there is none. -/
def splitFirst (sep : Char) : List Char → Option (List Char × List Char)
  | [] => none
  | c :: rest =>
    if c = sep then some ([], rest) else (splitFirst sep rest).map fun p => (c :: p.1, p.2)

/-- The pieces between the separators, empty ones included. -/
def splitOn (isSep : Char → Bool) : List Char → List (List Char)
  | [] => [[]]
  | c :: rest =>
    if isSep c then [] :: splitOn isSep rest
    else match splitOn isSep rest with
      | [] => [[c]]
      | piece :: pieces => (c :: piece) :: pieces

/-- The text up to its last character of the class, that character included. -/
def upToLast (p : Char → Bool) (cs : List Char) : Option (List Char) :=
  match cs.reverse.dropWhile (fun c => !p c) with
  | [] => none
  | kept => some kept.reverse

theorem splitFirst_eq_some {sep : Char} {cs a b : List Char} (h : splitFirst sep cs = some (a, b)) :
    cs = a ++ sep :: b ∧ sep ∉ a := by
  induction cs generalizing a b with
  | nil => simp [splitFirst] at h
  | cons c rest ih =>
    by_cases hc : c = sep
    · subst hc
      simp only [splitFirst, if_pos, Option.some.injEq, Prod.mk.injEq] at h
      obtain ⟨rfl, rfl⟩ := h
      simp
    · simp only [splitFirst, hc, if_false, Option.map_eq_some_iff, Prod.mk.injEq, Prod.exists] at h
      obtain ⟨a', b', h', rfl, rfl⟩ := h
      obtain ⟨rfl, hn⟩ := ih h'
      simp [hn, Ne.symm hc]

theorem splitFirst_append {sep : Char} {a : List Char} (b : List Char) (h : sep ∉ a) :
    splitFirst sep (a ++ sep :: b) = some (a, b) := by
  induction a with
  | nil => simp [splitFirst]
  | cons c rest ih =>
    simp only [List.mem_cons, not_or] at h
    simp [splitFirst, Ne.symm h.1, ih h.2]

end GraphMarshal.Text
