import GraphMarshal.Engine.State

/-!
# Contracts of runs

A contract says how a run may change the world and how it may stop. It also compares a run with a
second one: in every world where the contract asks for it, ending there means that the second run
does the same. A run that is not compared with another is compared with itself.

`Keeps` is stated for one start, so that a rule below may speak about the world that a step leaves.
-/

namespace GraphMarshal

/-! ## Runs step by step -/

namespace Run

variable {α β : Type}

theorem bind_apply (x : Run α) (f : α → Run β) (w : World) :
    (x >>= f) w = match x w with
      | .ok a w' => f a w'
      | .error e w' => .error e w' := by
  show EStateM.bind x f w = _
  unfold EStateM.bind
  cases x w <;> rfl

theorem bind_apply_ok {x : Run α} {f : α → Run β} {w w' : World} {a : α} (h : x w = .ok a w') :
    (x >>= f) w = f a w' := by rw [bind_apply, h]

@[simp] theorem pure_apply (a : α) (w : World) : (pure a : Run α) w = .ok a w := rfl

@[simp] theorem get_apply (w : World) : (get : Run World) w = .ok w w := rfl

theorem bind_eq_ok {x : Run α} {f : α → Run β} {w w' : World} {b : β} :
    (x >>= f) w = .ok b w' ↔ ∃ a w₁, x w = .ok a w₁ ∧ f a w₁ = .ok b w' := by
  rw [bind_apply]
  constructor
  · intro h
    cases hx : x w with
    | ok a w₁ => rw [hx] at h; exact ⟨a, w₁, rfl, h⟩
    | error e w₁ => rw [hx] at h; cases h
  · rintro ⟨a, w₁, hx, hf⟩
    rw [hx]
    exact hf

theorem recordAt_apply {r : RecordRef} {rec : Record} {w : World}
    (h : w.heap.record? r = some rec) :
    recordAt r w = .ok rec w := by
  unfold recordAt
  rw [bind_apply_ok (get_apply w), h]
  rfl

/-- Whether a run ended with a result, and both it and the world pass a test. -/
def passes (p : α → World → Bool) : EStateM.Result Halt World α → Bool
  | .ok a w => p a w
  | .error .. => false

theorem exists_ok {p : α → World → Bool} {x : EStateM.Result Halt World α} (h : passes p x) :
    ∃ a w, x = .ok a w ∧ p a w := by
  cases x with
  | ok a w => exact ⟨a, w, rfl, h⟩
  | error e w => cases h

/-- The error that a run failed with. -/
def failure? : EStateM.Result Halt World α → Option MappingError
  | .error (.failed e) _ => some e
  | _ => none

theorem exists_failed {x : EStateM.Result Halt World α} {e : MappingError}
    (h : failure? x = some e) : ∃ w, x = .error (.failed e) w := by
  unfold failure? at h
  split at h
  · cases h; exact ⟨_, rfl⟩
  · cases h

/-- Whether a run waits for ever. -/
def waits : EStateM.Result Halt World α → Bool
  | .error .blocked _ => true
  | _ => false

theorem exists_blocked {x : EStateM.Result Halt World α} (h : waits x) :
    ∃ w, x = .error .blocked w := by
  unfold waits at h
  split at h
  · exact ⟨_, rfl⟩
  · cases h

end Run

/-! ## Contracts -/

structure Contract where
  step : World → World → Prop
  halt : Halt → Prop
  /-- The ends for which the second run has to do the same. -/
  compared : World → Prop
  refl : ∀ w, step w w
  trans : ∀ {w₁ w₂ w₃}, step w₁ w₂ → step w₂ w₃ → step w₁ w₃
  log : ∀ w c, step w { w with calls := c :: w.calls }
  back : ∀ {w w'}, step w w' → compared w' → compared w

namespace Contract

/-- The contract with other errors to fail with. -/
def failing (K : Contract) (E : MappingError → Prop) : Contract :=
  { K with halt := fun h => match h with
      | .failed e => E e
      | .exhausted => K.halt .exhausted
      | .dangling => K.halt .dangling
      | .blocked => K.halt .blocked }

/-- The errors to fail with. -/
def faults (K : Contract) (e : MappingError) : Prop := K.halt (.failed e)

theorem failing_faults (K : Contract) : K.failing K.faults = K := by
  unfold failing
  congr
  funext h
  cases h <;> rfl

/-- From `w`, `x` changes the world and stops as the contract allows, its result satisfies `V`, and
`y` does the same where this is compared. -/
def Keeps (K : Contract) {α : Type} (x y : Run α) (V : α → World → Prop) (w : World) : Prop :=
  match x w with
  | .ok a w' => K.step w w' ∧ V a w' ∧ (K.compared w' → y w = .ok a w')
  | .error e w' => K.step w w' ∧ K.halt e ∧ (K.compared w' → y w = .error e w')

namespace Keeps

variable {K : Contract} {α β : Type} {w : World}

theorem ok {x y : Run α} {V : α → World → Prop} {a : α} {w' : World} (h : K.Keeps x y V w)
    (hx : x w = .ok a w') : K.step w w' ∧ V a w' ∧ (K.compared w' → y w = .ok a w') := by
  unfold Keeps at h; rw [hx] at h; exact h

theorem error {x y : Run α} {V : α → World → Prop} {e : Halt} {w' : World} (h : K.Keeps x y V w)
    (hx : x w = .error e w') : K.step w w' ∧ K.halt e ∧ (K.compared w' → y w = .error e w') := by
  unfold Keeps at h; rw [hx] at h; exact h

theorem of_ok {x y : Run α} {V : α → World → Prop} {a : α} {w' : World} (hx : x w = .ok a w')
    (hs : K.step w w') (hv : V a w') (hy : K.compared w' → y w = .ok a w') : K.Keeps x y V w := by
  unfold Keeps; rw [hx]; exact ⟨hs, hv, hy⟩

theorem congr {x x' y y' : Run α} {V : α → World → Prop} (hx : x w = x' w) (hy : y w = y' w)
    (h : K.Keeps x' y' V w) : K.Keeps x y V w := by
  unfold Keeps at h ⊢
  rw [hx, hy]
  exact h

protected theorem pure {V : α → World → Prop} {a : α} (hv : V a w) :
    K.Keeps (pure a) (pure a) V w :=
  ⟨K.refl w, hv, fun _ => rfl⟩

protected theorem throw {V : α → World → Prop} {e : Halt} (he : K.halt e) :
    K.Keeps (throw e : Run α) (throw e) V w :=
  ⟨K.refl w, he, fun _ => rfl⟩

theorem mono {x y : Run α} {V V' : α → World → Prop} (h : K.Keeps x y V w)
    (hv : ∀ a w', K.step w w' → V a w' → V' a w') : K.Keeps x y V' w := by
  unfold Keeps at h ⊢
  cases hx : x w with
  | ok a w' => rw [hx] at h; exact ⟨h.1, hv a w' h.1 h.2.1, h.2.2⟩
  | error e w' => rw [hx] at h; exact h

theorem loosen {K' : Contract} {x y : Run α} {V : α → World → Prop} (h : K.Keeps x y V w)
    (hs : ∀ {w'}, K.step w w' → K'.step w w') (he : ∀ {e}, K.halt e → K'.halt e)
    (hc : ∀ {w'}, K'.compared w' → K.compared w') : K'.Keeps x y V w := by
  unfold Keeps at h ⊢
  cases hx : x w with
  | ok a w' => rw [hx] at h; exact ⟨hs h.1, h.2.1, fun hc' => h.2.2 (hc hc')⟩
  | error e w' => rw [hx] at h; exact ⟨hs h.1, he h.2.1, fun hc' => h.2.2 (hc hc')⟩

theorem fails_as {E E' : MappingError → Prop} {x y : Run α} {V : α → World → Prop}
    (h : (K.failing E).Keeps x y V w) (hE : ∀ e, E e → E' e) : (K.failing E').Keeps x y V w := by
  unfold Keeps at h ⊢
  cases hx : x w with
  | ok a w' => rw [hx] at h; exact h
  | error e w' =>
    rw [hx] at h
    refine ⟨h.1, ?_, h.2.2⟩
    cases e with
    | failed e => exact hE e h.2.1
    | exhausted | dangling | blocked => exact h.2.1

theorem failing {x y : Run α} {V : α → World → Prop} (h : K.Keeps x y V w) :
    (K.failing K.faults).Keeps x y V w := by
  rw [K.failing_faults]
  exact h

theorem of_failing {E : MappingError → Prop} {x y : Run α} {V : α → World → Prop}
    (h : (K.failing E).Keeps x y V w) (hE : ∀ e, E e → K.faults e) : K.Keeps x y V w := by
  rw [← K.failing_faults]
  exact h.fails_as hE

/-- The run that gave a result is known of it. -/
theorem and_run {x y : Run α} {V : α → World → Prop} (h : K.Keeps x y V w) :
    K.Keeps x y (fun a w' => x w = .ok a w' ∧ V a w') w := by
  unfold Keeps at h ⊢
  cases hx : x w with
  | ok a w' => rw [hx] at h; exact ⟨h.1, ⟨rfl, h.2.1⟩, h.2.2⟩
  | error e w' => rw [hx] at h; exact h

theorem and_step {x y : Run α} {V : α → World → Prop} (h : K.Keeps x y V w) :
    K.Keeps x y (fun a w' => K.step w w' ∧ V a w') w :=
  h.mono fun _ _ hs hv => ⟨hs, hv⟩

protected theorem bind {x y : Run α} {f g : α → Run β} {V : α → World → Prop}
    {V' : β → World → Prop} (hx : K.Keeps x y V w)
    (hf : ∀ a w', K.step w w' → V a w' → K.Keeps (f a) (g a) V' w') :
    K.Keeps (x >>= f) (y >>= g) V' w := by
  unfold Keeps at hx ⊢
  simp only [bind, EStateM.bind]
  cases hxw : x w with
  | error e w₁ =>
    rw [hxw] at hx
    exact ⟨hx.1, hx.2.1, fun hc => by rw [hx.2.2 hc]⟩
  | ok a w₁ =>
    rw [hxw] at hx
    obtain ⟨h₁, hv, hy⟩ := hx
    have hfa := hf a w₁ h₁ hv
    unfold Keeps at hfa
    simp only
    cases hfw : f a w₁ with
    | error e w₂ =>
      rw [hfw] at hfa
      obtain ⟨h₂, he, hg⟩ := hfa
      exact ⟨K.trans h₁ h₂, he, fun hc => by rw [hy (K.back h₂ hc)]; exact hg hc⟩
    | ok b w₂ =>
      rw [hfw] at hfa
      obtain ⟨h₂, hb, hg⟩ := hfa
      exact ⟨K.trans h₁ h₂, hb, fun hc => by rw [hy (K.back h₂ hc)]; exact hg hc⟩

theorem ignored {x : Run α} {V : α → World → Prop} (h : K.Keeps x x V w) :
    K.Keeps (do let _ ← x) (do let _ ← x) (fun _ _ => True) w :=
  .bind h fun _ _ _ _ => .pure trivial

/-- A run of one step of the world. -/
theorem modify {V : Unit → World → Prop} {f : World → World} (hs : K.step w (f w))
    (hv : V () (f w)) : K.Keeps (modify f) (modify f) V w :=
  ⟨hs, hv, fun _ => rfl⟩

protected theorem get : K.Keeps get get (fun a w' => a = w ∧ w' = w) w :=
  ⟨K.refl w, ⟨rfl, rfl⟩, fun _ => rfl⟩

protected theorem recordAt {r : RecordRef} (hd : K.halt .dangling) :
    K.Keeps (Run.recordAt r) (Run.recordAt r)
      (fun rec w' => w' = w ∧ w.heap.record? r = some rec) w := by
  refine .bind .get fun a w' _ ha => ?_
  obtain ⟨rfl, rfl⟩ := ha
  split
  · next rec hrec => exact .pure ⟨rfl, hrec⟩
  · exact .throw hd

/-! ## Errors -/

protected theorem fail {V : α → World → Prop} {e : MappingError} (he : K.halt (.failed e)) :
    K.Keeps (Run.fail e) (Run.fail e) V w :=
  .throw he

protected theorem ofExcept {V : α → World → Prop} {x : Except MappingError α}
    (ha : ∀ a, x = .ok a → V a w) (he : ∀ e, x = .error e → K.halt (.failed e)) :
    K.Keeps (Run.ofExcept x) (Run.ofExcept x) V w := by
  cases x with
  | ok a => exact .pure (ha a rfl)
  | error e => exact .fail (he e rfl)

protected theorem attempt {x y : Run α} {V : α → World → Prop} {E : MappingError → Prop}
    (h : (K.failing E).Keeps x y V w) :
    K.Keeps (Run.attempt x) (Run.attempt y)
      (fun r w' => match r with
        | .ok a => V a w'
        | .error e => E e) w := by
  unfold Keeps at h ⊢
  unfold Run.attempt
  cases hx : x w with
  | ok a w' => rw [hx] at h; exact ⟨h.1, h.2.1, fun hc => by rw [h.2.2 hc]⟩
  | error e w' =>
    rw [hx] at h
    cases e with
    | failed e => exact ⟨h.1, h.2.1, fun hc => by rw [h.2.2 hc]⟩
    | exhausted | dangling | blocked => exact ⟨h.1, h.2.1, fun hc => by rw [h.2.2 hc]⟩

protected theorem onError {x y : Run α} {V : α → World → Prop} {E : MappingError → Prop}
    {f : MappingError → MappingError} (h : (K.failing E).Keeps x y V w)
    (hf : ∀ e, E e → K.halt (.failed (f e))) :
    K.Keeps (Run.onError f x) (Run.onError f y) V w := by
  refine .bind (.attempt h) fun r w' _ hr => ?_
  cases r with
  | ok a => exact .pure hr
  | error e => exact .fail (hf e hr)

/-! ## Sources -/

protected theorem describe (s : SourceRef) (id : Resource) :
    K.Keeps (Run.describe s id) (Run.describe s id)
      (fun a _ => a = (w.source s).describe id) w :=
  ⟨K.log w _, rfl, fun _ => rfl⟩

protected theorem query (s : SourceRef) (text : String) :
    K.Keeps (Run.query s text) (Run.query s text) (fun a _ => a = (w.source s).query text) w :=
  ⟨K.log w _, rfl, fun _ => rfl⟩

/-! ## What runs make -/

protected theorem allocCell {V : LazyRef → World → Prop} {cell : LazyCell}
    (hs : K.step w { w with heap := w.heap.allocCell cell })
    (hv : V w.heap.nextCell { w with heap := w.heap.allocCell cell }) :
    K.Keeps (Run.allocCell cell) (Run.allocCell cell) V w :=
  ⟨hs, hv, fun _ => rfl⟩

protected theorem nextGenerated (hs : K.step w { w with generated := w.generated + 1 }) :
    K.Keeps Run.nextGenerated Run.nextGenerated
      (fun n w' => n = w.generated ∧ w'.generated = w.generated + 1) w :=
  ⟨hs, ⟨rfl, rfl⟩, fun _ => rfl⟩

/-! ## Lists

`P w as bs w'` says of a stretch of the run, from `w` to `w'`, that it made `bs` out of `as`. -/

protected theorem mapM {f g : α → Run β} {P : World → List α → List β → World → Prop}
    {l : List α} (nil : ∀ w', K.step w w' → P w' [] [] w')
    (cons : ∀ {w₁ w₂ w₃ a b as bs}, K.step w w₁ → K.step w₁ w₂ → K.step w₂ w₃ →
      P w₁ [a] [b] w₂ → P w₂ as bs w₃ → P w₁ (a :: as) (b :: bs) w₃)
    (hf : ∀ a ∈ l, ∀ w', K.step w w' → K.Keeps (f a) (g a) (fun b => P w' [a] [b]) w') :
    K.Keeps (l.mapM f) (l.mapM g) (P w l) w := by
  suffices ∀ w', K.step w w' → K.Keeps (l.mapM f) (l.mapM g) (P w' l) w' from this w (K.refl w)
  induction l with
  | nil => intro w' h; exact .pure (nil w' h)
  | cons a l ih =>
    intro w₁ h₁
    simp only [List.mapM_cons]
    refine .bind (hf a List.mem_cons_self w₁ h₁) fun b w₂ h₂ hb => ?_
    refine .bind (ih (fun a' ha' => hf a' (List.mem_cons_of_mem _ ha')) w₂ (K.trans h₁ h₂))
      fun bs w₃ h₃ hbs => ?_
    exact .pure (cons h₁ h₂ h₃ hb hbs)

/-- `I done w` holds after the elements `done`. -/
protected theorem forM {f g : α → Run Unit} {I : List α → World → Prop} {l : List α}
    (hi : I [] w)
    (hf : ∀ done a rest, l = done ++ a :: rest → ∀ w', K.step w w' → I done w' →
      K.Keeps (f a) (g a) (fun _ => I (done ++ [a])) w') :
    K.Keeps (l.forM f) (l.forM g) (fun _ => I l) w := by
  suffices ∀ rest done w', l = done ++ rest → K.step w w' → I done w' →
      K.Keeps (rest.forM f) (rest.forM g) (fun _ => I l) w' from this l [] w rfl (K.refl w) hi
  intro rest
  induction rest with
  | nil =>
    intro done w' hl _ hd
    rw [List.append_nil] at hl
    exact .pure (hl ▸ hd)
  | cons a rest ih =>
    intro done w₁ hl h₁ hd
    refine .bind (hf done a rest hl w₁ h₁ hd) fun _ w₂ h₂ hd' => ?_
    exact ih (done ++ [a]) w₂ (by rw [hl, List.append_assoc]; rfl) (K.trans h₁ h₂) hd'

end Keeps

end Contract

end GraphMarshal
