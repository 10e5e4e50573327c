import GraphMarshal.Proofs.Walking

/-!
# Round trips of record graphs

Records that refer to each other only are written one after another, and their graphs are put into
one source. Reading one of them back rebuilds as much of the others as its references ask for, some
of them several times and some only when they are asked for. Still no path can tell the records that
are read from those that were written.
-/

namespace GraphMarshal

open Engine Vocabulary

/-! ## Writing several records -/

namespace Memory

/-- The source with the triples of some graphs, one after another. -/
def insertAll (m : Memory) (gs : List Graph) : Memory := gs.foldl (fun m g => m.insert g.triples) m

theorem insertAll_eq (gs : List Graph) (m : Memory) :
    m.insertAll gs = { m with graph := m.graph.addAll (gs.flatMap (·.triples)) } := by
  induction gs generalizing m with
  | nil => simp [insertAll, Graph.addAll]
  | cons g gs ih =>
    show (m.insert g.triples).insertAll gs = _
    rw [ih]
    simp [insert, Graph.addAll]

end Memory

namespace Engine

variable {closed : Prop} {cx : Setting} {w : World} {S : RecordRef → Prop}

/-- **Several records** are written as sheets that show them, with cells of their own. -/
theorem toGraphs_identifies {os : List Original} (hw : Writable cx closed S w)
    (hS : closed → ∀ o ∈ os, S o.place)
    (hrec : ∀ o ∈ os, ∃ i, w.heap.record? o.place = some { o.record with id := i })
    (hb : ∀ o ∈ os, w.bindings.get? o.record.type = some o.binding)
    (hv : ∀ o ∈ os, ∀ m ∈ o.binding.members, ∀ v, o.record.written cx.schema m.name = some v →
      m.Declares cx.schema v) :
    (identifying closed).Keeps (os.mapM fun o => toGraph cx o.place)
      (os.mapM fun o => toGraph cx o.place)
      (fun gs w' => ∃ sheets : List Sheet, gs.map (·.triples) = sheets.map Sheet.triples ∧
        List.Forall₂ (fun o sh => ∃ k, w'.heap.id? o.place = some k ∧
          Shows cx w'.heap.resource? o.record o.binding k sh) os sheets ∧
        Numbered w.generated w'.generated (sheets.flatMap Sheet.cellTerms)) w := by
  induction os generalizing w with
  | nil => exact .pure ⟨[], rfl, .nil, .nil⟩
  | cons o os ih =>
    rw [List.forall_mem_cons] at hrec hb hv
    obtain ⟨i, hi⟩ := hrec.1
    rw [List.mapM_cons]
    refine .bind (toGraph_identifies hw (fun hc => hS hc o List.mem_cons_self) hi hb.1 hv.1)
      fun g w₁ h₁ hg => ?_
    obtain ⟨k, sh, hk, htriples, hshows, hcells⟩ := hg
    have hw₁ := hw.step h₁
    refine .bind (ih hw₁ (fun hc o' ho' => hS hc o' (List.mem_cons_of_mem _ ho')) (fun o' ho' => ?_)
      (fun o' ho' => h₁.binding (hb.2 o' ho')) hv.2) fun gs w₂ h₂ hgs => ?_
    · obtain ⟨i', hi'⟩ := hrec.2 o' ho'
      obtain ⟨j, hj, -⟩ := h₁.record hi'
      exact ⟨j, hj⟩
    · obtain ⟨sheets, htriples', hall, hcells'⟩ := hgs
      refine .pure ⟨sh :: sheets, ?_, .cons ⟨k, h₂.id? hk, ?_⟩ hall, ?_⟩
      · rw [List.map_cons, List.map_cons, htriples, htriples']
      · have hmono := hshows.mono fun _ _ => h₂.resource? hw₁.anchored
        exact ⟨hmono.subject, hmono.classIri, hmono.entries⟩
      · exact hcells.append hcells' h₁.generated h₂.generated

theorem toGraphs_preserves {os : List Original} :
    (preserving cx).Keeps (os.mapM fun o => toGraph cx o.place)
      (os.mapM fun o => toGraph cx o.place)
      (fun _ _ => True) w :=
  .mapM (P := fun _ _ _ _ => True) (fun _ _ => trivial) (fun _ _ _ _ _ => trivial)
    fun _ _ _ _ => toGraph_preserves

/-- Faithful records that refer to each other only, each to records of the types that its members
ask for, are written with different identifiers, and no blank node generated on the way is mistaken
for one of them or for what they mention. -/
structure RendersAll (cx : Setting) (w : World) (os : List Original) (gs : List Graph)
    (w₁ : World) : Prop where
  record : ∀ o ∈ os, w.heap.record? o.place = some o.record
  faithful : ∀ o ∈ os, o.record.Faithful cx w o.binding
  registered : ∀ o ∈ os, w.typeForClass o.binding.classIri = some o.record.type
  refers : ∀ o ∈ os, ∀ name v x, o.record.values.get? name = some v → v.Refers x →
    ∃ o' ∈ os, x = .eager o'.place
  extending : ∀ o ∈ os, ∀ m ∈ o.binding.members, ∀ target v, m.kind = .ref (some target) →
    o.record.get? cx.schema m.name = some v → ∀ o' ∈ os, v.Refers (.eager o'.place) →
    target = o'.record.type ∨ cx.schema.isA o'.record.type target
  written : (os.mapM fun o => toGraph cx o.place) w = .ok gs w₁
  id : ∀ o ∈ os, w₁.heap.id? o.place = some o.id
  distinct : (os.map (·.id)).Nodup
  separates : List.Forall₂ (fun o g => g.Separates o.id o.binding) os gs
  older : ∀ o ∈ os, o.id.Older w.generated
  mentions : ∀ o ∈ os, o.record.Older cx w₁.heap.resource? o.binding w.generated

end Engine

/-! ## Reading them back -/

/-- The original with an identifier. -/
def Original.lookup (os : List Original) (k : Resource) : Option (Record × TypeBinding) :=
  (os.find? fun o => o.id = k).map fun o => (o.record, o.binding)

theorem Original.lookup_of_mem {os : List Original} (hd : (os.map (·.id)).Nodup) {o : Original}
    (ho : o ∈ os) :
    lookup os o.id = some (o.record, o.binding) := by
  unfold lookup
  obtain ⟨o', ho'⟩ : ∃ o', os.find? (fun o' => o'.id = o.id) = some o' := by
    rw [← Option.isSome_iff_exists, List.find?_isSome]
    exact ⟨o, ho, by simp⟩
  have hid : o'.id = o.id := by simpa using List.find?_some ho'
  rw [ho', List.inj_on_of_nodup_map hd (List.mem_of_find?_eq_some ho') ho hid]
  rfl

theorem Original.exists_of_lookup {os : List Original} {k : Resource} {rec : Record}
    {b : TypeBinding} (h : lookup os k = some (rec, b)) :
    ∃ o ∈ os, o.id = k ∧ o.record = rec ∧ o.binding = b := by
  obtain ⟨o, ho, heq⟩ := Option.map_eq_some_iff.1 h
  cases heq
  exact ⟨o, List.mem_of_find?_eq_some ho, by simpa using List.find?_some ho, rfl, rfl⟩

/-- The pass that reads some originals back. -/
def Pass.all (w : World) (gs : List Graph) (d : Dialect) (os : List Original) : Pass :=
  .over w (.ofTriples (gs.flatMap (·.triples))) d (Original.lookup os)

namespace Engine.RendersAll

variable {cx : Setting} {w w₁ : World} {os : List Original} {gs : List Graph} {o : Original}

theorem start_all (d : Dialect) :
    (Pass.all w₁ gs d os).start = w₁.attach (({ dialect := d } : Memory).insertAll gs) := by
  rw [Memory.insertAll_eq]
  rfl

variable (h : RendersAll cx w os gs w₁)

include h

theorem closed : w.Closed fun r => ∃ o ∈ os, r = o.place := by
  rintro _ ⟨o, ho, rfl⟩
  refine ⟨o.record, o.binding, h.record o ho, (h.faithful o ho).bound, fun name v x hv hx => ?_⟩
  obtain ⟨o', ho', rfl⟩ := h.refers o ho name v x hv hx
  exact ⟨o'.place, rfl, o', ho', rfl⟩

theorem refers_get (ho : o ∈ os) {m : String} {v : Value} (hv : o.record.get? cx.schema m = some v)
    {x : Reference} (hx : v.Refers x) : ∃ o' ∈ os, x = .eager o'.place := by
  rcases Record.get?_eq_some hv with hstored | rfl
  · exact h.refers o ho m v x hstored hx
  · cases hx with
    | list hmem _ => cases hmem

theorem written_all (hw : w.Stable cx) (d : Dialect) :
    w.Identifies True w₁ ∧ ∃ sheets : List Sheet, (Pass.all w₁ gs d os).Written sheets ∧
      Numbered w.generated w₁.generated (sheets.flatMap Sheet.cellTerms) ∧
      ∀ o ∈ os, ∃ sh ∈ sheets, Shows cx w₁.heap.resource? o.record o.binding o.id sh ∧
        (Graph.ofTriples sh.triples).Separates o.id o.binding := by
  have hwritable : Writable cx True (fun r => ∃ o ∈ os, r = o.place) w :=
    ⟨hw.sound.anchored, fun _ => h.closed⟩
  obtain ⟨hstep, ⟨sheets, htriples, hshows, hcells⟩, -⟩ :=
    (toGraphs_identifies hwritable (fun _ o ho => ⟨o, ho, rfl⟩)
      (fun o ho => ⟨o.record.id, h.record o ho⟩)
      (fun o ho => (h.faithful o ho).bound) fun o ho m hm v hv =>
        (h.faithful o ho).declares hm hv).ok h.written
  have hshows : List.Forall₂
      (fun o sh => Shows cx w₁.heap.resource? o.record o.binding o.id sh) os sheets := by
    refine (forall₂_of_mem hshows.flip fun sh o ho hk => ?_).flip
    obtain ⟨k, hk, hs⟩ := hk
    rw [h.id o ho] at hk
    cases hk
    exact hs
  have hseparates : List.Forall₂
      (fun o sh => (Graph.ofTriples sh.triples).Separates o.id o.binding) os sheets := by
    have hsep : List.Forall₂ (fun o ts => (Graph.ofTriples ts).Separates o.id o.binding) os
        (gs.map (·.triples)) :=
      List.forall₂_map_right_iff.2 h.separates
    rw [htriples] at hsep
    exact List.forall₂_map_right_iff.1 hsep
  have hsubjects : os.map (fun o => o.id.toTerm) = sheets.map Sheet.subject :=
    map_eq_map_of_forall₂ hshows fun o sh hs => hs.subject.symm
  refine ⟨hstep, sheets, ⟨?_, ⟨?_, hcells.nodup, hcells.isBlank, fun sh hsh => ?_⟩,
    fun sh hsh => ?_⟩, hcells,
    fun o ho => exists_of_forall₂_left (forall₂_and hshows hseparates) ho⟩
  · show gs.flatMap (·.triples) = _
    rw [List.flatMap_def, htriples, List.flatMap_def]
  · have hterms := h.distinct.map fun _ _ => Resource.toTerm_injective
    rw [List.map_map] at hterms
    rw [← hsubjects]
    exact hterms
  · obtain ⟨o, ho, hs⟩ := exists_of_forall₂_right hshows hsh
    rw [hs.subject]
    exact (h.older o ho).not_mem hcells
  · obtain ⟨o, ho, hs⟩ := exists_of_forall₂_right hshows hsh
    exact hs.not_first (h.faithful o ho).plain

theorem record_written (hstep : w.Identifies True w₁) (ho : o ∈ os) :
    w₁.heap.record? o.place = some { o.record with id := some o.id } := by
  obtain ⟨i, hi, -⟩ := hstep.record (h.record o ho)
  obtain ⟨cur, hcur, hid⟩ := Heap.id?_eq_some.1 (h.id o ho)
  rw [hi] at hcur
  cases hcur
  rw [hi]
  exact congrArg (fun i => some { o.record with id := i }) hid

theorem readable_all (d : Dialect) (ho : o ∈ os) {m : MemberBinding} (hm : m ∈ o.binding.members)
    {v : Value} (hv : o.record.written cx.schema m.name = some v) {target : TypeName}
    (hk : m.kind = .ref (some target)) {x : Reference} (hx : v.Refers x) {j : Resource}
    (hj : w₁.heap.resource? x = some j) :
    (Pass.all w₁ gs d os).Readable cx target j := by
  have hget := (Record.written_eq_some.1 hv).1
  obtain ⟨o', ho', rfl⟩ := h.refers_get ho hget hx
  have hid : some o'.id = some j := (h.id o' ho').symm.trans hj
  cases hid
  refine ⟨((h.faithful o ho).declares hm hv).carriesId hx hk,
    .inl ⟨_, _, Original.lookup_of_mem h.distinct ho', ?_⟩⟩
  exact h.extending o ho m hm target v hk hget o' ho' hx

/-- **What the originals were written to** can be read back. -/
theorem holds_all (hw : w.Stable cx) (d : Dialect) (ho : o ∈ os) :
    (Pass.all w₁ gs d os).Holds cx o.id o.record o.binding := by
  obtain ⟨hstep, sheets, hwritten, hcells, hshown⟩ := h.written_all hw d
  obtain ⟨sh, hsh, hshows, hsep⟩ := hshown o ho
  have hsound := ((toGraphs_preserves.ok h.written).1.stable hw).sound
  have hreg : w₁.typeForClass o.binding.classIri = some o.record.type := by
    rw [← h.registered o ho]
    unfold World.typeForClass
    rw [hstep.classes, hstep.names trivial]
  refine hwritten.holds hsh hshows (hsound.of_eq rfl rfl) ⟨o.place, _, h.record_written hstep ho⟩
    { h.faithful o ho with bound := hstep.binding (h.faithful o ho).bound } hreg
      (fun m hm hcol hord => ?_)
    (fun m hm v hv j hj => (h.mentions o ho m hm v hv j hj).not_mem hcells)
    fun m hm v hv target x j hk hx hj => .inr (h.readable_all d ho hm hv hk hx hj)
  have hobjects := objects_sheet (p := m.predicate) hwritten.apart hwritten.triples hsh
  rw [hshows.subject] at hobjects
  rw [hobjects]
  exact hsep m hm hcol hord

theorem valid_all (hw : w.Stable cx) (hl : cx.config.languageAware = false) (d : Dialect) :
    (Pass.all w₁ gs d os).Valid cx :=
  Pass.valid_over hl fun horig => by
    obtain ⟨o, ho, rfl, rfl, rfl⟩ := Original.exists_of_lookup horig
    exact h.holds_all hw d ho

theorem closed_all (hw : w.Stable cx) (d : Dialect) : (Pass.all w₁ gs d os).Closed cx os where
  original _ ho := Original.lookup_of_mem h.distinct ho
  record _ ho := h.record_written (h.written_all hw d).1 ho
  refers o ho m hm v hv y hy := by
    obtain ⟨o', ho', rfl⟩ := h.refers_get ho (Record.written_eq_some.1 hv).1 hy
    exact ⟨o', ho', rfl, h.id o' ho', fun target hk =>
      h.readable_all d ho hm hv hk hy (h.id o' ho')⟩

end Engine.RendersAll

/-- **A record graph that is written reads back.** Faithful records that refer to each other only
are written and put into one source. Reading one of them as a record of its type succeeds, and every
path that leads from it to one of the records leads from what is read to a record with the
identifier and the type of that one which agrees with it on every mapped member. -/
theorem fromGraph_toGraphs {cx : Setting} {w w₁ : World} {os : List Original} {gs : List Graph}
    (hw : w.Reachable cx) (hl : cx.config.languageAware = false) (h : RendersAll cx w os gs w₁)
    (d : Dialect) {root : Original} (hroot : root ∈ os) :
    ∃ a w₂, fromGraph cx w₁.nextSource root.record.type root.id
        (w₁.attach (({ dialect := d } : Memory).insertAll gs)) = .ok a w₂ ∧
      ∀ path x s,
        walk cx path root.place (w₁.attach (({ dialect := d } : Memory).insertAll gs)) = .ok x s →
        ∃ o ∈ os, x = o.place ∧
          ∃ y w₃ copy, walk cx path a w₂ = .ok y w₃ ∧ w₃.heap.record? y = some copy ∧
            copy.type = o.record.type ∧ copy.id = some o.id ∧
            ∀ m ∈ o.binding.members,
              w₃.heap.Agree (o.record.get? cx.schema m.name) (copy.get? cx.schema m.name) := by
  have hstable := hw.stable
  let P := Pass.all w₁ gs d os
  have hstart : P.start = w₁.attach (({ dialect := d } : Memory).insertAll gs) :=
    RendersAll.start_all d
  have hvalid : P.Valid cx := h.valid_all hstable hl d
  have hclosed : P.Closed cx os := h.closed_all hstable d
  have hidle : ∀ n, P.start.construction.get? n = none :=
    ((toGraphs_preserves.ok h.written).1.stable hstable).idle
  have hfinished : P.Finished cx P.start := .start hidle
  have hreadable : P.Readable cx root.record.type root.id :=
    ⟨(hvalid.holds (hclosed.original root hroot)).carriesId,
      .inl ⟨root.record, root.binding, hclosed.original root hroot, .inl rfl⟩⟩
  obtain ⟨a, w₂, hrun, -, hw₂, ha⟩ := hfinished.fromGraph hvalid hreadable
  rw [← hstart]
  refine ⟨a, w₂, hrun, fun path x s hwalk => ?_⟩
  obtain ⟨o, ho, rfl, y, w₃, hwalk', hw₃, hy⟩ := hw₂.walk hvalid hclosed path hroot ha hwalk
  have horig := hclosed.original o ho
  obtain ⟨vals, hcopy, hmembers⟩ :=
    hw₃.complete y hy.1 (Heap.id?_eq_some_lt hy.2) o.id o.record o.binding hy.2 horig
  refine ⟨o, ho, rfl, y, w₃, _, hwalk', hcopy, rfl, rfl, fun m hm => ?_⟩
  refine (hmembers m hm).agree (h.faithful o ho) hm ((hvalid.holds horig).kept m hm)
    fun v x k hv hx hk => ?_
  -- The members of originals refer to originals, which are where they were.
  obtain ⟨o', ho', rfl⟩ := h.refers_get ho hv hx
  obtain ⟨cur', hcur', hid'⟩ := Heap.id?_eq_some.1 hk
  exact Heap.id?_eq_some.2 ⟨cur', hw₃.record hcur', hid'⟩

/-! ## Notes -/

def secondNote : Record where
  type := "Note"
  id := some (.iri "http://ex/b")
  values := ⟨[("links", .list [.ref (.eager ⟨0⟩)])]⟩

theorem secondNote_faithful : secondNote.Faithful noteSetting noteWorld noteBinding where
  concrete := by decide +kernel
  bound := by decide +kernel
  plain := ⟨by decide, by decide⟩
  declared := by
    simp only [noteBinding, List.forall_mem_cons]
    refine ⟨.inl rfl, .inl rfl, .inr ⟨_, rfl, ⟨_, rfl, ?_⟩, rfl⟩, fun m hm => by cases hm⟩
    rw [List.forall_mem_singleton]
    exact .ref _ rfl (by decide +kernel)

theorem secondNote_older {name : Reference → Option Resource} (n : Nat)
    (hname : ∀ j, name (.eager ⟨0⟩) = some j → j.isBlank = false) :
    secondNote.Older noteSetting name noteBinding n := by
  simp only [Record.Older, noteBinding, List.forall_mem_cons]
  refine ⟨fun v hv j hj => ?_, fun v hv j hj => ?_, fun v hv j hj => ?_, fun m hm => by cases hm⟩
  · have hnone : secondNote.get? noteSetting.schema "title" = none := rfl
    rw [hnone] at hv
    cases hv
  · obtain rfl : Value.list [] = v := Option.some.inj hv
    simp [Value.mentions_list] at hj
  · obtain rfl : Value.list [.ref (.eager ⟨0⟩)] = v := Option.some.inj hv
    simp only [Value.mentions_list, List.mem_singleton, exists_eq_left, Value.mentions_ref] at hj
    exact Resource.older_of_not_isBlank n (hname j hj)

/-- Both notes. -/
def notes : List Original :=
  [{ place := ⟨0⟩, record := firstNote, binding := noteBinding, id := .iri "http://ex/a" },
    { place := ⟨1⟩, record := secondNote, binding := noteBinding, id := .iri "http://ex/b" }]

/-- From the first note to the second, and back. -/
def notePath : List PathStep := [⟨"links", some 0⟩, ⟨"links", some 0⟩]

/-- What has to hold once the notes are written. -/
def notesTest (gs : List Graph) (w₁ : World) : Bool :=
  (∀ o ∈ notes, w₁.heap.id? o.place = some o.id) ∧
    List.Forall₂ (fun o g => g.Separates o.id o.binding) notes gs ∧
    Run.passes (fun x _ => x = ⟨0⟩) (walk noteSetting notePath ⟨0⟩
      (w₁.attach (({} : Memory).insertAll gs)))

theorem notes_refer : ∀ o ∈ notes, ∀ name v x, o.record.values.get? name = some v → v.Refers x →
    ∃ o' ∈ notes, x = .eager o'.place := by
  have hplace : ∀ i, i < 2 → ∃ o' ∈ notes, Reference.eager ⟨i⟩ = .eager o'.place := by
    decide +kernel
  simp only [notes, List.forall_mem_cons]
  refine ⟨fun name v x hv hx => ?_, fun name v x hv hx => ?_, fun o ho => by cases ho⟩
  · have hmem := Table.mem_of_get? hv
    simp only [firstNote, List.mem_cons, Prod.mk.injEq, List.not_mem_nil, or_false] at hmem
    rcases hmem with ⟨-, rfl⟩ | ⟨-, rfl⟩ | ⟨-, rfl⟩
    · exact absurd hx Value.Refers.not_string
    · simp [Value.refers_list, Value.Refers.not_string] at hx
    · simp only [Value.refers_list, List.mem_cons, List.not_mem_nil, or_false,
        exists_eq_or_imp, exists_eq_left,
        Value.refers_ref] at hx
      rcases hx with rfl | rfl
      · exact hplace 1 (by decide)
      · exact hplace 0 (by decide)
  · have hmem := Table.mem_of_get? hv
    simp only [secondNote, List.mem_singleton, Prod.mk.injEq] at hmem
    obtain ⟨-, rfl⟩ := hmem
    simp only [Value.refers_list, List.mem_singleton, exists_eq_left, Value.refers_ref] at hx
    subst hx
    exact hplace 0 (by decide)

theorem notes_render {gs : List Graph} {w₁ : World}
    (hwritten : (notes.mapM fun o => toGraph noteSetting o.place) noteWorld = .ok gs w₁)
    (hid : ∀ o ∈ notes, w₁.heap.id? o.place = some o.id)
    (hsep : List.Forall₂ (fun o g => g.Separates o.id o.binding) notes gs) :
    RendersAll noteSetting noteWorld notes gs w₁ := by
  have hname : ∀ i, i < 2 → ∀ j, w₁.heap.resource? (.eager ⟨i⟩) = some j → j.isBlank = false := by
    intro i hi j hj
    obtain rfl | rfl : i = 0 ∨ i = 1 := by omega
    · cases (hid _ List.mem_cons_self).symm.trans hj
      rfl
    · cases (hid _ (List.mem_cons_of_mem _ List.mem_cons_self)).symm.trans hj
      rfl
  have hkind : ∀ o ∈ notes, ∀ m ∈ o.binding.members,
      m.kind = .string ∨ m.kind = .ref (some "Page") := by decide
  have hpage : ∀ o ∈ notes, noteSetting.schema.isA o.record.type "Page" := by decide +kernel
  exact
    { record := by
        simp only [notes, List.forall_mem_cons]
        exact ⟨rfl, rfl, fun o ho => by cases ho⟩
      faithful := by
        simp only [notes, List.forall_mem_cons]
        exact ⟨firstNote_faithful, secondNote_faithful, fun o ho => by cases ho⟩
      registered := by decide +kernel
      refers := notes_refer
      extending := fun o ho m hm target v hk _ o' ho' _ => by
        have hm' := hkind o ho m hm
        rw [hk] at hm'
        rcases hm' with hm' | hm' <;> cases hm'
        exact .inr (hpage o' ho')
      written := hwritten
      id := hid
      distinct := by decide
      separates := hsep
      older := by
        simp only [notes, List.forall_mem_cons]
        exact ⟨Resource.older_of_not_isBlank _ rfl, Resource.older_of_not_isBlank _ rfl,
          fun o ho => by cases ho⟩
      mentions := by
        simp only [notes, List.forall_mem_cons]
        exact ⟨firstNote_older _ hname, secondNote_older _ (hname 0 (by decide)),
          fun o ho => by cases ho⟩ }

theorem fromGraph_toGraphs_notes : ∃ gs w₁,
    noteWorld.Reachable noteSetting ∧
    noteSetting.config.languageAware = false ∧
    RendersAll noteSetting noteWorld notes gs w₁ ∧
    ∃ a w₂ y w₃ copy,
      fromGraph noteSetting w₁.nextSource "Note" (.iri "http://ex/a")
        (w₁.attach (({} : Memory).insertAll gs)) = .ok a w₂ ∧
      walk noteSetting notePath a w₂ = .ok y w₃ ∧ w₃.heap.record? y = some copy ∧
      copy.type = "Note" ∧ copy.id = some (.iri "http://ex/a") ∧
      ∀ m ∈ noteBinding.members,
        w₃.heap.Agree (firstNote.get? noteSetting.schema m.name)
        (copy.get? noteSetting.schema m.name) := by
  obtain ⟨gs, w₁, hwritten, htest⟩ := Run.exists_ok (p := notesTest)
    (x := (notes.mapM fun o => toGraph noteSetting o.place) noteWorld) (by decide +kernel)
  obtain ⟨hid, hsep, hwalk⟩ := of_decide_eq_true htest
  obtain ⟨x, s, hwalk, hx⟩ := Run.exists_ok hwalk
  have hw : noteWorld.Reachable noteSetting := World.Reachable.initial.run noteOperations
  have hfirst : ∀ o ∈ notes, o.place = ⟨0⟩ → o = notes[0] := by
    simp only [notes, List.forall_mem_cons]
    exact ⟨fun _ => rfl, fun h => absurd h (by decide), fun o ho => by cases ho⟩
  have hrenders := notes_render hwritten hid hsep
  refine ⟨gs, w₁, hw, rfl, hrenders, ?_⟩
  have hroot : notes[0] ∈ notes := List.mem_cons_self
  obtain ⟨a, w₂, hrun, hpaths⟩ := fromGraph_toGraphs hw rfl hrenders .unknown hroot
  obtain ⟨o, ho, hplace, y, w₃, copy, hwalk', hcopy, htype, hcid, hagree⟩ :=
    hpaths notePath x s hwalk
  obtain rfl := hfirst o ho (hplace.symm.trans (of_decide_eq_true hx))
  exact ⟨a, w₂, y, w₃, copy, hrun, hwalk', hcopy, htype, hcid, hagree⟩

end GraphMarshal
