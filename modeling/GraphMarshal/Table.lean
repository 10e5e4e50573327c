/-!
# Finite tables

A finite map as a list of pairs. `insert` replaces the value of a key that is present and appends a new key at the
end, so the entries stay in the order in which their keys arrived. The laws `get?_insert` and `get?_erase`
describe a table through its look-up.
-/

namespace GraphMarshal

structure Table (κ : Type) (α : Type) where
  entries : List (κ × α) := []

namespace Table

variable {κ α : Type}

def empty : Table κ α := ⟨[]⟩

instance : EmptyCollection (Table κ α) := ⟨empty⟩

def size (t : Table κ α) : Nat := t.entries.length

def isEmpty (t : Table κ α) : Bool := t.entries.isEmpty

def keys (t : Table κ α) : List κ := t.entries.map (·.1)

variable [DecidableEq κ]

/-- The value of `k` in a list of pairs: that of its first pair. -/
def lookup (k : κ) : List (κ × α) → Option α
  | [] => none
  | (k', a) :: rest => if k' = k then some a else lookup k rest

def get? (t : Table κ α) (k : κ) : Option α := lookup k t.entries

def contains (t : Table κ α) (k : κ) : Bool := (t.get? k).isSome

def put (k : κ) (a : α) : List (κ × α) → List (κ × α)
  | [] => [(k, a)]
  | (k', b) :: rest => if k' = k then (k, a) :: rest else (k', b) :: put k a rest

def insert (t : Table κ α) (k : κ) (a : α) : Table κ α := ⟨put k a t.entries⟩

def erase (t : Table κ α) (k : κ) : Table κ α := ⟨t.entries.filter (fun e => e.1 ≠ k)⟩

def insertAll (t : Table κ α) (pairs : List (κ × α)) : Table κ α :=
  pairs.foldl (fun t e => t.insert e.1 e.2) t

/-- The later of two pairs for one key counts. -/
def ofList (pairs : List (κ × α)) : Table κ α := empty.insertAll pairs

@[simp] theorem get?_empty (k : κ) : (empty : Table κ α).get? k = none := rfl

theorem mem_of_get? {t : Table κ α} {k : κ} {a : α} (h : t.get? k = some a) : (k, a) ∈ t.entries := by
  unfold get? at h
  generalize t.entries = l at h ⊢
  induction l with
  | nil => cases h
  | cons e rest ih =>
    unfold lookup at h
    split at h
    · next heq =>
      cases h
      rw [← heq]
      exact List.mem_cons_self
    · exact List.mem_cons_of_mem _ (ih h)

theorem lookup_put (k k' : κ) (a : α) (l : List (κ × α)) :
    lookup k' (put k a l) = if k = k' then some a else lookup k' l := by
  induction l with
  | nil => by_cases h : k = k' <;> simp [put, lookup, h]
  | cons e rest ih =>
    obtain ⟨x, b⟩ := e
    by_cases hx : x = k
    · subst hx; by_cases h : x = k' <;> simp [put, lookup, h]
    · by_cases h : k = k'
      · subst h; simp [put, lookup, hx, ih]
      · simp [put, lookup, hx, ih, h]

@[simp] theorem get?_insert (t : Table κ α) (k k' : κ) (a : α) :
    (t.insert k a).get? k' = if k = k' then some a else t.get? k' :=
  lookup_put k k' a t.entries

theorem get?_insert_self (t : Table κ α) (k : κ) (a : α) : (t.insert k a).get? k = some a := by
  simp

theorem length_put_le (k : κ) (a : α) (l : List (κ × α)) : (put k a l).length ≤ l.length + 1 := by
  induction l with
  | nil => simp [put]
  | cons e rest ih =>
    unfold put
    split
    · simp
    · simpa using ih

theorem size_insert_le (t : Table κ α) (k : κ) (a : α) : (t.insert k a).size ≤ t.size + 1 :=
  length_put_le k a t.entries

theorem lookup_filter_ne (k k' : κ) (l : List (κ × α)) :
    lookup k' (l.filter (fun e => e.1 ≠ k)) = if k = k' then none else lookup k' l := by
  induction l with
  | nil => by_cases h : k = k' <;> simp [lookup, h]
  | cons e rest ih =>
    obtain ⟨x, b⟩ := e
    by_cases hx : x = k
    · subst hx
      by_cases h : x = k'
      · subst h; simpa using ih
      · simpa [lookup, h] using ih
    · by_cases h : k = k'
      · subst h; simpa [lookup, hx] using ih
      · simp only [h, if_false] at ih ⊢
        by_cases hk : x = k' <;> simp_all [lookup]

@[simp] theorem get?_erase (t : Table κ α) (k k' : κ) :
    (t.erase k).get? k' = if k = k' then none else t.get? k' :=
  lookup_filter_ne k k' t.entries

theorem filter_put_of_lookup_none {k : κ} {a : α} {l : List (κ × α)} (h : lookup k l = none) :
    (put k a l).filter (fun e => e.1 ≠ k) = l := by
  induction l with
  | nil => simp [put]
  | cons e rest ih =>
    obtain ⟨x, b⟩ := e
    by_cases hx : x = k
    · simp [lookup, hx] at h
    · simp only [lookup, hx, if_false] at h
      have ih := ih h
      simp only [ne_eq, decide_not] at ih ⊢
      simp [put, hx, ih]

/-- An entry that is new when it is made leaves no trace once it is erased. -/
theorem erase_insert {t : Table κ α} {k : κ} (a : α) (h : t.get? k = none) :
    (t.insert k a).erase k = t := by
  cases t with
  | mk l => simp only [insert, erase, mk.injEq]; exact filter_put_of_lookup_none h

/-! ## Several insertions -/

variable {t : Table κ α} {k : κ} {a : α} {l l' : List (κ × α)}

/-- What a table says after insertions was inserted or said before. -/
theorem get?_insertAll_cases (h : (t.insertAll l).get? k = some a) :
    (k, a) ∈ l ∨ t.get? k = some a := by
  induction l generalizing t with
  | nil => exact .inr h
  | cons e l ih =>
    rcases ih h with hl | ht
    · exact .inl (List.mem_cons_of_mem e hl)
    · rw [get?_insert] at ht
      split at ht
      · next heq =>
        cases ht
        exact .inl (by rw [← heq]; exact List.mem_cons_self)
      · exact .inr ht

/-- A key stays known. -/
theorem isSome_get?_insertAll (l : List (κ × α)) (h : (t.get? k).isSome) :
    ((t.insertAll l).get? k).isSome := by
  induction l generalizing t with
  | nil => exact h
  | cons e l ih =>
    refine ih ?_
    rw [get?_insert]
    split
    · rfl
    · exact h

/-- Inserted keys are known. -/
theorem isSome_get?_of_mem (h : (k, a) ∈ l) : ((t.insertAll l).get? k).isSome := by
  induction l generalizing t with
  | nil => cases h
  | cons e l ih =>
    rcases List.mem_cons.1 h with rfl | h
    · exact isSome_get?_insertAll l (by rw [get?_insert_self]; rfl)
    · exact ih h

theorem get?_insertAll_of_not_mem (h : ∀ e ∈ l, e.1 ≠ k) : (t.insertAll l).get? k = t.get? k := by
  induction l generalizing t with
  | nil => rfl
  | cons e l ih =>
    obtain ⟨hne, hl⟩ := List.forall_mem_cons.1 h
    have hrest : ((t.insert e.1 e.2).insertAll l).get? k = (t.insert e.1 e.2).get? k := ih hl
    exact hrest.trans ((get?_insert t e.1 k e.2).trans (if_neg hne))

/-- The latest entry of a key counts. -/
theorem get?_ofList_latest (h : ∀ e ∈ l', e.1 ≠ k) :
    (ofList (l ++ (k, a) :: l')).get? k = some a := by
  have hsplit : ofList (l ++ (k, a) :: l') = ((ofList l).insert k a).insertAll l' :=
    List.foldl_append
  rw [hsplit, get?_insertAll_of_not_mem h, get?_insert_self]

end Table

end GraphMarshal
