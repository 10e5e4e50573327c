import GraphMarshal.Proofs.Codec
import GraphMarshal.Proofs.Description
import GraphMarshal.Proofs.Fields
import GraphMarshal.Proofs.Termination
import Mathlib.Data.List.Forall2

/-!
# Copies of records

A graph that records were written to is read back. What the objects of a predicate show is told by
`Shown`, in terms of the description that they are read from; reading them gives a copy of the
value, in which references name the same resources. Every record made on the way is a copy of the
original with its identifier once it is complete, so a record graph is copied by copying each of its
records.
-/

namespace GraphMarshal

open Vocabulary

/-- The value of a member that is written: what is empty is not. -/
def Record.written (s : Schema) (rec : Record) (member : String) : Option Value :=
  (rec.get? s member).filter fun v => !v.isEmpty

theorem Record.written_eq_some {s : Schema} {rec : Record} {member : String} {v : Value} :
    rec.written s member = some v ↔ rec.get? s member = some v ∧ v.isEmpty = false := by
  unfold Record.written
  rw [Option.filter_eq_some_iff]
  simp

/-! ## What objects show -/

section

variable (name : Reference → Option Resource) (readable : TypeName → Resource → Prop)
    (m : MemberBinding)

/-- A term stands for a value of a member. `name` gives the resources of references. -/
inductive Denotes : Term → Value → Prop
  | literal {t v} : t.isLiteral → m.kind.admits t →
      Literal.decode t m.kind = .ok (some v) → v.IsAtom →
      Denotes t v
  | uri (u) : m.kind = .uri → Denotes (.iri u) (.uri u)
  | resource (k : Resource) : m.kind = .resource → Denotes k.toTerm (.resource k)
  | ref {target r} (k : Resource) : m.kind = .ref (some target) → name r = some k →
    readable target k →
      Denotes k.toTerm (.ref r)

/-- The objects of a member's predicate show its value: one object, all elements, or the head of a
list. -/
inductive Shown (g : Graph) : List Term → Value → Prop
  | single {t v} : m.collection = false → Denotes name readable m t v → Shown g [t] v
  | bag {ts vs} : m.collection → ts.Nodup → (∀ t ∈ ts, t.isNil = false ∧ g.isList t = false) →
      List.Forall₂ (Denotes name readable m) ts vs → Shown g ts (.list vs)
  | chain {head ts vs} : m.collection → head.isNil = false → head.isResource →
    g.listItems head = some ts →
      List.Forall₂ (Denotes name readable m) ts vs → Shown g [head] (.list vs)

theorem Denotes.mono {name name' : Reference → Option Resource}
    {readable readable' : TypeName → Resource → Prop} {m : MemberBinding} {t : Term} {v : Value}
    (h : Denotes name readable m t v) (hn : ∀ r k, v = .ref r → name r = some k → name' r = some k)
    (hr : ∀ target r k, m.kind = .ref (some target) → v = .ref r → name r = some k →
      readable' target k) :
    Denotes name' readable' m t v := by
  cases h with
  | literal hlit ha hd hat => exact .literal hlit ha hd hat
  | uri u hk => exact .uri u hk
  | resource k hk => exact .resource k hk
  | ref k hk hname _ => exact .ref k hk (hn _ k rfl hname) (hr _ _ k hk rfl hname)

end

/-! ## Copies of values -/

/-- A reference that names a resource: to a record from `base` on, or a deferred one to what is read
from a source as a record of a type. -/
inductive Heap.Names (h : Heap) (base : Nat) (source : SourceRef) (target : TypeName)
    (k : Resource) :
    Reference → Prop
  | eager {a : RecordRef} : base ≤ a.index → h.id? a = some k →
    Names h base source target k (.eager a)
  | lazy {c : LazyRef} {cell : LazyCell} : h.cell? c = some cell → cell.target = target →
    cell.source = source →
      cell.id = k → (∀ a, cell.resolved = some a → base ≤ a.index ∧ h.id? a = some k) →
      Names h base source target k (.lazy c)

section

variable {h : Heap} {base : Nat} {source : SourceRef} {target : TypeName}
    {k : Resource} {x : Reference}

theorem Heap.Names.resource? (hn : h.Names base source target k x) : h.resource? x = some k := by
  cases hn with
  | eager _ ha => exact ha
  | @lazy c cell hc _ _ hk hr =>
    have hcell : h.cellResource cell = k := by
      unfold Heap.cellResource
      cases hres : cell.resolved with
      | none => exact hk
      | some a =>
        rw [Option.bind_some, (hr a hres).2]
        rfl
    show (h.cell? c).map h.cellResource = some k
    rw [hc, Option.map_some, hcell]

theorem Heap.Names.fills {w w' : World} {r : RecordRef} (hn : w.heap.Names base source target k x)
    (h : w.Fills r w') : w'.heap.Names base source target k x := by
  cases hn with
  | eager hb ha => exact .eager hb (h.id? ha)
  | lazy hc ht hs hk hr =>
    exact .lazy (h.cell hc) ht hs hk fun a ha => ⟨(hr a ha).1, h.id? (hr a ha).2⟩

end

section

variable (name : Reference → Option Resource) (base : Nat) (source : SourceRef) (m : MemberBinding)

/-- A copy of a value that is no list: the same value, or a reference that names the same
resource. -/
inductive CopyOne (h : Heap) : Value → Value → Prop
  | atom {v : Value} : v.IsAtom → CopyOne h v v
  | ref {target : TypeName} {r r' : Reference} {k : Resource} : m.kind = .ref (some target) →
    name r = some k →
      h.Names base source target k r' → (m.lazy = false → ∃ a, r' = .eager a) →
        CopyOne h (.ref r) (.ref r')

/-- A copy of a value, element by element. -/
inductive Copy (h : Heap) : Value → Value → Prop
  | one {v v' : Value} : CopyOne name base source m h v v' → Copy h v v'
  | list {vs vs' : List Value} : List.Forall₂ (CopyOne name base source m h) vs vs' →
    Copy h (.list vs) (.list vs')

end

section

variable {name : Reference → Option Resource} {base : Nat} {source : SourceRef}
    {m : MemberBinding} {w w' : World}
  {r : RecordRef} {v v' : Value}

theorem CopyOne.imp {h h' : Heap} (hc : CopyOne name base source m h v v')
    (hn : ∀ {target k x}, h.Names base source target k x → h'.Names base source target k x) :
    CopyOne name base source m h' v v' := by
  cases hc with
  | atom hv => exact .atom hv
  | ref ht hk hx hl => exact .ref ht hk (hn hx) hl

theorem Copy.imp {h h' : Heap} (hc : Copy name base source m h v v')
    (hn : ∀ {target k x}, h.Names base source target k x → h'.Names base source target k x) :
    Copy name base source m h' v v' := by
  cases hc with
  | one hc => exact .one (hc.imp hn)
  | list hcs => exact .list (List.Forall₂.imp (fun _ _ hc => hc.imp hn) hcs)

theorem CopyOne.fills (hc : CopyOne name base source m w.heap v v') (h : w.Fills r w') :
    CopyOne name base source m w'.heap v v' :=
  hc.imp fun hn => hn.fills h

theorem forall_of_forall₂ {α β : Type} {R : α → β → Prop} {P : α → Prop} {Q : β → Prop}
    {as : List α} {bs : List β} (h : List.Forall₂ R as bs) (hR : ∀ a b, R a b → P a → Q b)
    (ha : ∀ a ∈ as, P a) :
    ∀ b ∈ bs, Q b := by
  induction h with
  | nil => exact fun _ hb => by cases hb
  | cons hab _ ih =>
    rw [List.forall_mem_cons] at ha ⊢
    exact ⟨hR _ _ hab ha.1, ih ha.2⟩

theorem CopyOne.native {h : Heap} {k : Kind} (hc : CopyOne name base source m h v v')
    (hv : Value.Native k v) :
    Value.Native k v' := by
  cases hc with
  | atom _ => exact hv
  | ref _ _ _ _ => exact Value.native_ref hv

theorem Copy.keeps {h : Heap} {f : Member} (hc : Copy name base source m h v v') (hv : f.Keeps v) :
    f.Keeps v' := by
  unfold Member.Keeps at hv ⊢
  split at hv
  · exact hv.elim
  · exact hv.elim
  · trivial
  · next k hk hf =>
    split at hv
    · next hcol =>
      rw [if_pos hcol]
      obtain ⟨items, rfl, hitems⟩ := hv
      cases hc with
      | one hc => cases hc with
        | atom hat => exact hat.elim
      | list hcs => exact ⟨_, rfl, forall_of_forall₂ hcs (fun _ _ hc => hc.native) hitems⟩
    · next hcol =>
      rw [if_neg hcol]
      cases hc with
      | one hc => exact hc.native hv
      | list _ => exact absurd hv (by unfold Value.Native; cases k <;> simp_all [Value.fit?])

end

end GraphMarshal
