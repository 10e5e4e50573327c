import GraphMarshal.Number.Digits
import GraphMarshal.Term

/-!
# Resources

A record is keyed in a graph by a resource, which is an IRI or a blank node. A record carries its identifier in a slot
that is filled once. Generated names are numbered, so that no two of them are equal.
-/

namespace GraphMarshal

inductive Resource where
  | iri (iri : String)
  | blank (label : String)
deriving DecidableEq, Repr

namespace Resource

/-- The namespace of identifiers when none is declared. -/
def defaultNamespace : String := "urn:rdfmap:"

def ofTerm? : Term → Option Resource
  | .iri i => some (.iri i)
  | .blank label => some (.blank label)
  | .literal .. => none

def toTerm : Resource → Term
  | .iri i => .iri i
  | .blank label => .blank label

def iri? : Resource → Option String
  | .iri i => some i
  | .blank _ => none

def isBlank : Resource → Bool
  | .iri _ => false
  | .blank _ => true

def text (r : Resource) : String := r.toTerm.text

/-- The `n`-th generated identifier. -/
def generated (n : Nat) : Resource :=
  .iri (defaultNamespace ++ String.ofList (Number.hexText 64 n))

@[simp] theorem ofTerm?_toTerm (r : Resource) : ofTerm? r.toTerm = some r := by cases r <;> rfl

theorem toTerm_of_ofTerm? {t : Term} {r : Resource} (h : ofTerm? t = some r) : r.toTerm = t := by
  cases t <;> simp_all [ofTerm?, toTerm] <;> subst h <;> rfl

theorem toTerm_injective {r s : Resource} (h : r.toTerm = s.toTerm) : r = s := by
  simpa using congrArg ofTerm? h

@[simp] theorem isResource_toTerm (r : Resource) : r.toTerm.isResource = true := by
  cases r <;> rfl

end Resource

/-- The `n`-th generated blank node. -/
def Term.generated (n : Nat) : Term := .blank (String.ofList ('b' :: Number.hexText 32 n))

theorem Term.generated_injective {m n : Nat} (h : generated m = generated n) : m = n := by
  have hlabel := String.ofList_injective (Term.blank.inj h)
  exact Number.hexText_injective (List.cons.inj hlabel).2

/-- A write-once place for an identifier. -/
structure IdSlot where
  held : Option Resource := none
deriving DecidableEq, Repr

namespace IdSlot

def isAssigned (s : IdSlot) : Bool := s.held.isSome

/-- Fills the slot. A slot that holds another identifier keeps it and gives it as the error. -/
def set (s : IdSlot) (id : Resource) : Except Resource IdSlot :=
  match s.held with
  | none => .ok ⟨some id⟩
  | some held => if held = id then .ok s else .error held

/-- The identifier held, which is `id` if none was held before. -/
def getOrInit (s : IdSlot) (id : Resource) : Resource := s.held.getD id

/-- The slot after `getOrInit`. -/
def filled (s : IdSlot) (id : Resource) : IdSlot := ⟨some (s.getOrInit id)⟩

end IdSlot

end GraphMarshal
