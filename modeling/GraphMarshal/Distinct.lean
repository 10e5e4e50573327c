/-!
# Distinct elements

`distinct` keeps the first occurrence of every element, in order.
-/

namespace GraphMarshal

variable {α : Type} [DecidableEq α]

def distinct : List α → List α
  | [] => []
  | a :: l => a :: (distinct l).filter (fun b => b ≠ a)

@[simp] theorem mem_distinct {a : α} {l : List α} : a ∈ distinct l ↔ a ∈ l := by
  induction l with
  | nil => simp [distinct]
  | cons b l ih => by_cases h : a = b <;> simp [distinct, ih, h]

theorem nodup_distinct (l : List α) : (distinct l).Nodup := by
  induction l with
  | nil => simp [distinct]
  | cons b l ih => simpa [distinct] using ih.sublist List.filter_sublist

end GraphMarshal
