import GraphMarshal.Proofs.Fields
import GraphMarshal.Proofs.Growth

/-!
# References between records

The records that a value, a record or a place in the heap refers to eagerly, with repetitions.
Storing a value into a record adds at most the references of the value, so it is enough to count
them.
-/

namespace GraphMarshal

/-! ## Values -/

namespace Value

mutual

/-- The records that a value refers to eagerly, in lists too. -/
def eagerRefs : Value → List RecordRef
  | .ref (.eager r) => [r]
  | .list items => allEagerRefs items
  | _ => []

def allEagerRefs : List Value → List RecordRef
  | [] => []
  | v :: vs => v.eagerRefs ++ allEagerRefs vs

end

theorem eagerRefs_of_isAtom {v : Value} (h : v.IsAtom) : v.eagerRefs = [] := by
  cases v <;> first | rfl | exact h.elim

@[simp] theorem allEagerRefs_append (us vs : List Value) :
    allEagerRefs (us ++ vs) = allEagerRefs us ++ allEagerRefs vs := by
  induction us with
  | nil => rfl
  | cons u us ih =>
    rw [List.cons_append, allEagerRefs, allEagerRefs, ih, List.append_assoc]

@[simp] theorem allEagerRefs_singleton (v : Value) : allEagerRefs [v] = v.eagerRefs :=
  List.append_nil _

/-- A value that is converted stays as it is or becomes one without references. -/
theorem eq_or_isAtom_of_convert {h : Heap} {l : Option RecordRef} {k : Kind} {v v' : Value}
    (hv : v.convert h l k = .ok v') : v' = v ∨ v'.IsAtom := by
  have hfit : ∀ {u}, v.fit? k = some u → u = v ∨ u.IsAtom := fun {u} hu => by
    unfold fit? at hu
    split at hu <;> first
      | (cases hu <;> exact .inl rfl)
      | (cases hu <;> exact .inr trivial)
      | (obtain ⟨_, _, rfl⟩ := Option.map_eq_some_iff.1 hu; exact .inr trivial)
  unfold convert at hv
  split at hv
  · split_ifs at hv
    split at hv <;> cases hv
    exact .inr trivial
  · split at hv
    · next u hu => cases hv; exact hfit hu
    · cases hv

theorem eagerRefs_convert {h : Heap} {l : Option RecordRef} {k : Kind} {v v' : Value}
    (hv : v.convert h l k = .ok v') : v'.eagerRefs.Sublist v.eagerRefs := by
  rcases eq_or_isAtom_of_convert hv with rfl | hatom
  · exact List.Sublist.refl _
  · rw [eagerRefs_of_isAtom hatom]
    exact List.nil_sublist _

theorem allEagerRefs_sublist {R : Value → Value → Prop} {vs vs' : List Value}
    (hR : ∀ v v', R v v' → v'.eagerRefs.Sublist v.eagerRefs) (h : List.Forall₂ R vs vs') :
    (allEagerRefs vs').Sublist (allEagerRefs vs) := by
  induction h with
  | nil => exact List.Sublist.refl _
  | cons hv _ ih => exact (hR _ _ hv).append ih

theorem eagerRefs_convertList {h : Heap} {l : Option RecordRef} {k : Kind} {v v' : Value}
    (hv : v.convertList h l k = .ok v') : v'.eagerRefs.Sublist v.eagerRefs := by
  obtain ⟨items, items', rfl, rfl, hitems⟩ := exists_items_of_convertList hv
  exact allEagerRefs_sublist (fun _ _ => eagerRefs_convert) hitems

end Value

/-! ## Records -/

namespace Record

/-- The records that a record refers to eagerly. -/
def eagerRefs (rec : Record) : List RecordRef := rec.values.entries.flatMap fun e => e.2.eagerRefs

theorem eagerRefs_accepted {h : Heap} {l : Option RecordRef} {m : Member} {v v' : Value}
    (ha : accepted h l m v = .ok v') : v'.eagerRefs.Sublist v.eagerRefs := by
  unfold accepted at ha
  split at ha
  · cases ha
  · cases ha
  · cases ha; exact List.Sublist.refl _
  · split at ha
    · exact Value.eagerRefs_convertList ha
    · exact Value.eagerRefs_convert ha

theorem count_put_le (name : String) (v : Value) (y : RecordRef) (l : List (String × Value)) :
    ((Table.put name v l).flatMap fun e => e.2.eagerRefs).count y ≤
      (l.flatMap fun e => e.2.eagerRefs).count y + v.eagerRefs.count y := by
  induction l with
  | nil => simp [Table.put]
  | cons e l ih =>
    unfold Table.put
    split
    · simp only [List.flatMap_cons, List.count_append]; omega
    · simp only [List.flatMap_cons, List.count_append]; omega

theorem count_eagerRefs_set {s : Schema} {h : Heap} {r : RecordRef} {rec next : Record}
    {name : String} {v : Value} (hn : rec.set s h r name v = .ok next) (y : RecordRef) :
    next.eagerRefs.count y ≤ rec.eagerRefs.count y + v.eagerRefs.count y := by
  obtain ⟨v', rfl, hv⟩ := set_eq_ok hn
  have hle : v'.eagerRefs.count y ≤ v.eagerRefs.count y := by
    rcases hv with rfl | ⟨m, ha⟩
    · exact Nat.le_refl _
    · exact (eagerRefs_accepted ha).count_le y
  have hput := count_put_le name v' y rec.values.entries
  show ((Table.put name v' rec.values.entries).flatMap fun e => e.2.eagerRefs).count y ≤ _
  unfold eagerRefs
  omega

end Record

/-! ## Heaps -/

namespace Heap

variable {h : Heap} {root : RecordRef}

/-- The records that the record at a place refers to eagerly. -/
def eagerRefs (h : Heap) (x : RecordRef) : List RecordRef :=
  match h.record? x with
  | some rec => rec.eagerRefs
  | none => []

theorem eagerRefs_of_record? {x : RecordRef} {rec : Record} (hx : h.record? x = some rec) :
    h.eagerRefs x = rec.eagerRefs := by
  unfold eagerRefs
  rw [hx]

/-- A simple path of eager references from a root, the latest record first. -/
inductive Path (h : Heap) (root : RecordRef) : List RecordRef → Prop
  | root : Path h root [root]
  | step {x y : RecordRef} {p : List RecordRef} : Path h root (x :: p) →
    y ∈ h.eagerRefs x → y ∉ x :: p →
      Path h root (y :: x :: p)

/-- Every record of a list has an identifier, and no two have the same. -/
structure Distinguishes (h : Heap) (p : List RecordRef) : Prop where
  identified : ∀ a ∈ p, ∃ n, h.id? a = some n
  nodup : (p.map h.id?).Nodup

theorem Distinguishes.congr {h' : Heap} {p : List RecordRef} (hp : h.Distinguishes p)
    (hid : ∀ a ∈ p, h'.id? a = h.id? a) : h'.Distinguishes p where
  identified a ha := by rw [hid a ha]; exact hp.identified a ha
  nodup := by rw [List.map_congr_left hid]; exact hp.nodup

theorem Distinguishes.not_mem {x : RecordRef} {p : List RecordRef} (hp : h.Distinguishes (x :: p)) :
    x ∉ p := by
  have := hp.nodup
  rw [List.map_cons, List.nodup_cons] at this
  exact fun hx => this.1 (List.mem_map_of_mem hx)

theorem Distinguishes.cons {x : RecordRef} {p : List RecordRef} {n : Resource}
    (hp : h.Distinguishes p) (hx : h.id? x = some n) (hn : ∀ a ∈ p, h.id? a ≠ some n) :
    h.Distinguishes (x :: p) where
  identified a ha := by
    rcases List.mem_cons.1 ha with rfl | ha
    · exact ⟨n, hx⟩
    · exact hp.identified a ha
  nodup := by
    rw [List.map_cons, List.nodup_cons]
    refine ⟨fun hm => ?_, hp.nodup⟩
    obtain ⟨a, ha, hax⟩ := List.mem_map.1 hm
    exact hn a ha (hax.trans hx)

end Heap

end GraphMarshal
