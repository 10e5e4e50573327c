import GraphMarshal.Instance
import Mathlib.Data.List.Forall2

/-!
# Values that fields keep

A value that a native field has taken is of the native type, and giving it to the field again
changes nothing. So what a concrete record stores can be stored into another record of its type as
it is, in every heap.
-/

namespace GraphMarshal

theorem forall₂_of_mapM {α β ε : Type} {f : α → Except ε β} : ∀ {as : List α} {bs : List β},
    as.mapM f = .ok bs → List.Forall₂ (fun a b => f a = .ok b) as bs
  | [], _, h => by cases h; exact .nil
  | a :: as, _, h => by
    rw [List.mapM_cons] at h
    cases ha : f a with
    | error e => rw [ha] at h; cases h
    | ok b =>
      cases has : as.mapM f with
      | error e => rw [ha, has] at h; cases h
      | ok bs =>
        rw [ha, has] at h
        cases h
        exact .cons ha (forall₂_of_mapM has)

theorem exists_of_mapM_error {ε α β : Type} {f : α → Except ε β} {l : List α}
    {e : ε} (h : l.mapM f = .error e) : ∃ a ∈ l, f a = .error e := by
  induction l with
  | nil => cases h
  | cons a l ih =>
    rw [List.mapM_cons] at h
    cases ha : f a with
    | error e' =>
      rw [ha] at h
      cases h
      exact ⟨a, List.mem_cons_self, ha⟩
    | ok b =>
      cases hl : l.mapM f with
      | ok bs => rw [ha, hl] at h; cases h
      | error e' =>
        rw [ha, hl] at h
        cases h
        obtain ⟨a', ha', he⟩ := ih hl
        exact ⟨a', List.mem_cons_of_mem a ha', he⟩

theorem exists_of_forall₂_left {α β : Type} {R : α → β → Prop} {as : List α} {bs : List β}
    (h : List.Forall₂ R as bs) {a : α} (ha : a ∈ as) : ∃ b ∈ bs, R a b := by
  induction h with
  | nil => cases ha
  | cons hab _ ih =>
    rcases List.mem_cons.1 ha with rfl | ha
    · exact ⟨_, List.mem_cons_self, hab⟩
    · obtain ⟨b, hb, hab⟩ := ih ha
      exact ⟨b, List.mem_cons_of_mem _ hb, hab⟩

theorem forall₂_of_mem {α β : Type} {R R' : α → β → Prop} {as : List α} {bs : List β}
    (h : List.Forall₂ R as bs) (hR : ∀ a, ∀ b ∈ bs, R a b → R' a b) : List.Forall₂ R' as bs := by
  induction h with
  | nil => exact .nil
  | cons hab _ ih =>
    exact .cons (hR _ _ List.mem_cons_self hab)
      (ih fun a b hb => hR a b (List.mem_cons_of_mem _ hb))

theorem exists_of_forall₂_right {α β : Type} {R : α → β → Prop} {as : List α} {bs : List β}
    (h : List.Forall₂ R as bs) {b : β} (hb : b ∈ bs) : ∃ a ∈ as, R a b := by
  obtain ⟨a, ha, hab⟩ := exists_of_forall₂_left h.flip hb
  exact ⟨a, ha, hab⟩

theorem forall₂_and {α β : Type} {R R' : α → β → Prop} {as : List α} {bs : List β}
    (h : List.Forall₂ R as bs) (h' : List.Forall₂ R' as bs) :
    List.Forall₂ (fun a b => R a b ∧ R' a b) as bs := by
  induction h with
  | nil => exact .nil
  | cons hab _ ih => cases h' with
    | cons hab' h' => exact .cons ⟨hab, hab'⟩ (ih h')

theorem map_eq_map_of_forall₂ {α β γ : Type} {R : α → β → Prop} {f : α → γ} {g : β → γ}
    {as : List α} {bs : List β} (h : List.Forall₂ R as bs) (hR : ∀ a b, R a b → f a = g b) :
    as.map f = bs.map g := by
  rw [← List.forall₂_eq_eq_eq, List.forall₂_map_left_iff, List.forall₂_map_right_iff]
  exact h.imp hR

namespace Value

/-- Whether a value is of a native type as it is. -/
def Native (k : Kind) (v : Value) : Prop := v.fit? k = some v

theorem native_of_fit? {k : Kind} {v v' : Value} (h : v.fit? k = some v') : Native k v' := by
  unfold Native
  unfold fit? at h
  split at h <;> first
    | (cases h <;> rfl)
    | (obtain ⟨_, _, rfl⟩ := Option.map_eq_some_iff.1 h; rfl)

theorem native_of_convert {h : Heap} {l : Option RecordRef} {k : Kind} {v v' : Value}
    (hv : v.convert h l k = .ok v') : Native k v' := by
  unfold convert at hv
  split at hv
  · split_ifs at hv
    split at hv <;> cases hv
    rfl
  · split at hv
    · next hf => cases hv; exact native_of_fit? hf
    · cases hv

theorem convert_of_native {k : Kind} {v : Value} (hv : Native k v) (h : Heap)
    (l : Option RecordRef) : v.convert h l k = .ok v := by
  unfold Native at hv
  unfold convert
  split
  · cases hv
  · rw [hv]

theorem exists_items_of_convertList {h : Heap} {l : Option RecordRef} {k : Kind} {v v' : Value}
    (hv : v.convertList h l k = .ok v') : ∃ items items', v = .list items ∧ v' = .list items' ∧
      List.Forall₂ (fun u u' => u.convert h l k = .ok u') items items' := by
  unfold convertList at hv
  split at hv
  · next items =>
    cases hm : items.mapM (convert h l k) with
    | error e => rw [hm] at hv; cases hv
    | ok items' =>
      rw [hm] at hv
      cases hv
      exact ⟨items, items', rfl, rfl, forall₂_of_mapM hm⟩
  · cases hv

theorem native_ref {k : Kind} {r r' : Reference} (h : Native k (.ref r)) : Native k (.ref r') := by
  unfold Native at h ⊢
  cases k <;> first | rfl | cases h

theorem native_of_convertAll {h : Heap} {l : Option RecordRef} {k : Kind} {vs vs' : List Value}
    (hall : List.Forall₂ (fun u u' => u.convert h l k = .ok u') vs vs') :
    ∀ v ∈ vs', Native k v := by
  induction hall with
  | nil => exact fun _ hv => by cases hv
  | cons hv _ ih => exact List.forall_mem_cons.2 ⟨native_of_convert hv, ih⟩

theorem mapM_of_native {k : Kind} (h : Heap) (l : Option RecordRef) : ∀ {vs : List Value},
    (∀ v ∈ vs, Native k v) → vs.mapM (convert h l k) = .ok vs
  | [], _ => rfl
  | v :: vs, hvs => by
    rw [List.mapM_cons, convert_of_native (hvs v List.mem_cons_self) h l,
      mapM_of_native h l fun v hv => hvs v (List.mem_cons_of_mem _ hv)]
    rfl

end Value

namespace Member

/-- What a field keeps: values of its native type, in a list if it is a collection. -/
def Keeps (f : Member) (v : Value) : Prop :=
  match f.field with
  | .hidden => False
  | .refusing => False
  | .typed .any => True
  | .typed k =>
    if f.collection then ∃ items, v = .list items ∧ ∀ e ∈ items, Value.Native k e
    else Value.Native k v

section

variable {f : Member} {k : Kind} {v v' : Value} {h : Heap} {l : Option RecordRef}

theorem keeps_any (hf : f.field = .typed .any) : f.Keeps v := by
  unfold Keeps
  rw [hf]
  trivial

theorem keeps_typed (hf : f.field = .typed k) (hk : k ≠ .any) :
    f.Keeps v ↔ if f.collection then ∃ items, v = .list items ∧ ∀ e ∈ items, Value.Native k e
      else Value.Native k v := by
  unfold Keeps
  rw [hf]
  cases k with
  | any => exact absurd rfl hk
  | _ => exact Iff.rfl

theorem accepted_any (hf : f.field = .typed .any) : Record.accepted h l f v = .ok v := by
  unfold Record.accepted
  rw [hf]

theorem accepted_typed (hf : f.field = .typed k) (hk : k ≠ .any) :
    Record.accepted h l f v = if f.collection then v.convertList h l k else v.convert h l k := by
  unfold Record.accepted
  rw [hf]
  cases k with
  | any => exact absurd rfl hk
  | _ => rfl

theorem keeps_of_accepted (ha : Record.accepted h l f v = .ok v') : f.Keeps v' := by
  cases hf : f.field with
  | hidden =>
    unfold Record.accepted at ha
    rw [hf] at ha
    cases ha
  | refusing =>
    unfold Record.accepted at ha
    rw [hf] at ha
    cases ha
  | typed k =>
    by_cases hk : k = .any
    · exact keeps_any (hk ▸ hf)
    rw [accepted_typed hf hk] at ha
    rw [keeps_typed hf hk]
    split at ha
    · next hcol =>
      rw [if_pos hcol]
      obtain ⟨items, items', rfl, rfl, hitems⟩ := Value.exists_items_of_convertList ha
      exact ⟨items', rfl, Value.native_of_convertAll hitems⟩
    · next hcol =>
      rw [if_neg hcol]
      exact Value.native_of_convert ha

theorem accepted_of_keeps (hv : f.Keeps v) (h : Heap) (l : Option RecordRef) :
    Record.accepted h l f v = .ok v := by
  cases hf : f.field with
  | hidden =>
    unfold Keeps at hv
    rw [hf] at hv
    exact hv.elim
  | refusing =>
    unfold Keeps at hv
    rw [hf] at hv
    exact hv.elim
  | typed k =>
    by_cases hk : k = .any
    · exact accepted_any (hk ▸ hf)
    rw [keeps_typed hf hk] at hv
    rw [accepted_typed hf hk]
    split at hv
    · next hcol =>
      rw [if_pos hcol]
      obtain ⟨items, rfl, hitems⟩ := hv
      unfold Value.convertList
      dsimp only
      rw [Value.mapM_of_native h l hitems]
      rfl
    · next hcol =>
      rw [if_neg hcol]
      exact Value.convert_of_native hv h l

end

end Member

end GraphMarshal
