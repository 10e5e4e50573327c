import GraphMarshal.Proofs.Classes

/-!
# Registration that fails

Types are registered one after another. The first one that cannot be resolved ends this, and it
leaves nothing behind. Resolving gives back no declaration that it has taken, but it takes the first
one after the last check, so the world is the one that the types before it lead to. Nor does the
type come back later: whether it can be resolved depends on its declaration alone, so it is never
bound, and no class ever leads to it.
-/

namespace GraphMarshal

theorem Run.forM_eq_error {α : Type} {f : α → Run Unit} {l : List α} {e : Halt} {w w' : World} :
    l.forM f w = .error e w' ↔ ∃ before a after w₁, l = before ++ a :: after ∧
      before.forM f w = .ok () w₁ ∧ f a w₁ = .error e w' := by
  constructor
  · intro h
    induction l generalizing w with
    | nil => cases h
    | cons a l ih =>
      have hrun : (f a >>= fun _ => l.forM f) w = .error e w' := h
      rw [bind_apply] at hrun
      cases ha : f a w with
      | error e' w₁ =>
        rw [ha] at hrun
        cases hrun
        exact ⟨[], a, l, w, rfl, rfl, ha⟩
      | ok u w₁ =>
        rw [ha] at hrun
        obtain ⟨before, b, after, w₂, rfl, hbefore, hb⟩ := ih hrun
        exact ⟨a :: before, b, after, w₂, rfl, (bind_apply_ok ha).trans hbefore, hb⟩
  · rintro ⟨before, a, after, w₁, rfl, hbefore, ha⟩
    induction before generalizing w with
    | nil =>
      cases hbefore
      show (f a >>= fun _ => after.forM f) _ = _
      rw [bind_apply, ha]
    | cons b before ih =>
      obtain ⟨u, w₂, hb, hrest⟩ := bind_eq_ok.1 hbefore
      exact (bind_apply_ok hb).trans (ih hrest)

open Engine

/-- Whatever is done from now on, a type cannot be resolved for a flaw of it, it has no binding, and
no class leads to it. -/
def World.Rejects (cx : Setting) (w : World) (ty : TypeName) (flaw : Flaw) : Prop :=
  ∀ ops, bindingOf cx ty (w.run cx ops) = .error (.failed (.invalid flaw)) (w.run cx ops) ∧
    (w.run cx ops).bindings.get? ty = none ∧ ∀ iri, (w.run cx ops).typeForClass iri ≠ some ty

namespace Engine

variable {cx : Setting} {w w' : World} {ty : TypeName} {flaw : Flaw} {e : Halt}

theorem unbound_of_flaw (hw : w.Reachable cx) (hc : cx.checkedClass ty = .error flaw) :
    w.bindings.get? ty = none := by
  cases hb : w.bindings.get? ty with
  | none => rfl
  | some b =>
    obtain ⟨n, iri, hiri, -⟩ := hw.stable.sound.bound hb
    cases hc.symm.trans hiri

theorem rejects_of_flaw (hw : w.Reachable cx) (hc : cx.checkedClass ty = .error flaw) :
    w.Rejects cx ty flaw := by
  intro ops
  have hunbound := unbound_of_flaw (hw.run ops) hc
  refine ⟨bindingOf_of_flaw hunbound hc, hunbound, fun iri hiri => ?_⟩
  obtain ⟨b, hb⟩ := (hw.run ops).bound ⟨_, hiri⟩
  cases hunbound.symm.trans hb

theorem register_eq_error :
    register cx ty w = .error e w' ↔ bindingOf cx ty w = .error e w' := by
  unfold register
  rw [Run.bind_apply]
  cases bindingOf cx ty w with
  | ok b w₁ => exact ⟨nofun, nofun⟩
  | error e₁ w₁ =>
    constructor
    · intro h
      cases h
      rfl
    · intro h
      cases h
      rfl

theorem reachable_init {tys : List TypeName} (hw : w.Reachable cx)
    (h : init cx tys w = .ok () w') : w'.Reachable cx := by
  have hrun : (Operation.init tys).run cx w = .ok () w' := h
  have hafter : (Operation.init tys).after cx w = w' := by
    unfold Operation.after
    rw [hrun]
  exact hafter ▸ hw.step _

/-- **A registration that fails leaves nothing behind.** In every reachable world, a type that
cannot be resolved leaves the world as it is. Registering types fails exactly if the first of them
can be registered alone and the next one is rejected; the world that this ends in is the one that
registering the first ones alone ends in, so whatever comes later is as if they were all that was to
be registered. A type rejected once is rejected for the same flaw whatever is done. -/
theorem registration_leaves_nothing (cx : Setting) (w : World) (hw : w.Reachable cx) :
    (∀ ty e w', bindingOf cx ty w = .error e w' →
      w' = w ∧ ∃ flaw, e = .failed (.invalid flaw) ∧ w.Rejects cx ty flaw) ∧
    ∀ tys e w', init cx tys w = .error e w' ↔
      ∃ before ty after flaw, tys = before ++ ty :: after ∧ init cx before w = .ok () w' ∧
        e = .failed (.invalid flaw) ∧ w'.Rejects cx ty flaw := by
  have hfails : ∀ {ty e w w'}, w.Reachable cx → bindingOf cx ty w = .error e w' →
      w' = w ∧ ∃ flaw, e = .failed (.invalid flaw) ∧ w.Rejects cx ty flaw := fun hw h => by
    obtain ⟨rfl, -, flaw, rfl, hflaw⟩ := bindingOf_error h
    exact ⟨rfl, flaw, rfl, rejects_of_flaw hw hflaw⟩
  refine ⟨fun ty e w' => hfails hw, fun tys e w' => Run.forM_eq_error.trans ⟨?_, ?_⟩⟩
  · -- The types before lead to a reachable world, which the type that fails leaves as it is.
    rintro ⟨before, ty, after, w₁, rfl, hbefore, hty⟩
    obtain ⟨rfl, flaw, rfl, hrejects⟩ :=
      hfails (reachable_init hw hbefore) (register_eq_error.1 hty)
    exact ⟨before, ty, after, flaw, rfl, hbefore, rfl, hrejects⟩
  · rintro ⟨before, ty, after, flaw, rfl, hbefore, rfl, hrejects⟩
    exact ⟨before, ty, after, w', rfl, hbefore, register_eq_error.2 (hrejects []).1⟩

/-- Pages, things without a class, which declare a prefix and inherit from notes that declare
another one, and the notes. -/
def ghostSetting : Setting where
  config := { defaultLanguage := "en" }
  schema := { types := [
    { name := "Page", descriptor := { classIri := some "http://ex/Page" } },
    { name := "Ghost"
      descriptor := { namespaces := [("ex", "http://ghost/")], inherits := true,
                      parents := ["Note"] } },
    { name := "Note"
      descriptor := { classIri := some "ex:Note", namespaces := [("note", "http://note/")] } }] }

/-- The thing without a class ends the registration after the page, and takes no prefix with it. -/
theorem registration_leaves_nothing_ghost :
    (World.initial ghostSetting.config).Reachable ghostSetting ∧
      ∃ w', init ghostSetting ["Page", "Ghost", "Note"] (.initial ghostSetting.config) =
          .error (.failed (.invalid (.noClass "Ghost"))) w' ∧
        init ghostSetting ["Page"] (.initial ghostSetting.config) = .ok () w' ∧
        w'.Rejects ghostSetting "Ghost" (.noClass "Ghost") := by
  have hw : (World.initial ghostSetting.config).Reachable ghostSetting := .initial
  have hready : Run.passes (fun _ _ => true)
      (init ghostSetting ["Page"] (.initial ghostSetting.config)) := by decide +kernel
  obtain ⟨_, w', hpage, -⟩ := Run.exists_ok hready
  have hrejects : w'.Rejects ghostSetting "Ghost" (.noClass "Ghost") :=
    rejects_of_flaw (reachable_init hw hpage) (by decide +kernel)
  refine ⟨hw, w', ?_, hpage, hrejects⟩
  exact ((registration_leaves_nothing ghostSetting _ hw).2 _ _ w').2
    ⟨["Page"], "Ghost", ["Note"], .noClass "Ghost", rfl, hpage, rfl, hrejects⟩

end Engine

end GraphMarshal
