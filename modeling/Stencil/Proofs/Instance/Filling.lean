import Stencil.Instance.Mount
import Stencil.Proofs.Bindings
import Stencil.Proofs.Document.Views
/- The steps of a mount. `Fills` says once all that an edit can do: the ways in which
   it is refused, and what it leaves when it is made. A property that each such step
   keeps is kept by the whole run (`fillEdits_induction`), and a run over two lists of
   edits is a run over the first and then over the second (`fillEdits_append`). -/
namespace Stencil

namespace Stage

@[simp] theorem document_note (s : Stage) (e : Event) : (s.note e).document = s.document := rfl

@[simp] theorem document_perform (s : Stage) (c : Change) :
    (s.perform c).document = s.document.apply c := rfl

@[simp] theorem document_performAll (s : Stage) (cs : List Change) :
    (s.performAll cs).document = s.document.applyAll cs := by
  induction cs generalizing s with
  | nil => rfl
  | cons c rest ih => exact ih (s.perform c)

end Stage

namespace Progress

@[simp] theorem stage_note (p : Progress) (e : Event) : (p.note e).stage = p.stage.note e := rfl

@[simp] theorem props_note (p : Progress) (e : Event) : (p.note e).props = p.props := rfl

@[simp] theorem stage_perform (p : Progress) (cs : List Change) :
    (p.perform cs).stage = p.stage.performAll cs := rfl

@[simp] theorem props_perform (p : Progress) (cs : List Change) : (p.perform cs).props = p.props :=
  rfl

/-- What an edit can do to a mount's progress, and how it ends, when the slots have
these values to be mounted. -/
inductive Fills (p : Progress) (block : Block) (slots : Bindings Value) (root number : Nat) :
    Edit → Progress × Except Failure NodeId → Prop where
  | unresolved {edit : Edit} (hr : p.stage.document.resolve? root edit.path = none) :
      Fills p block slots root number edit
        (p, .error (.refused (.pathUnresolved number edit.path)))
  | missing {edit : Edit} {node : Nat}
      (hr : p.stage.document.resolve? root edit.path = some node)
      (hv : slots.get? edit.hole = none) :
      Fills p block slots root number edit (p, .error (.refused (.missingProp edit.hole)))
  | attr {path : Path} {name hole : String} {node : Nat} {value : Scalar}
      (hr : p.stage.document.resolve? root path = some node)
      (hv : slots.get? hole = some (.scalar value)) :
      Fills p block slots root number (.attr path name hole)
        ((p.perform [.setAttribute node name value]).note (.slotFilled number hole node), .ok node)
  | attrBlock {path : Path} {name hole : String} {node : Nat} {nested : Instance}
      (hr : p.stage.document.resolve? root path = some node)
      (hv : slots.get? hole = some (.block nested)) :
      Fills p block slots root number (.attr path name hole)
        (p, .error (.refused (.blockInAttribute name hole)))
  | leaf {path : Path} {index : Nat} {hole : String} {node : Nat} {value : Scalar}
      (hr : p.stage.document.resolve? root path = some node)
      (hv : slots.get? hole = some (.scalar value)) :
      Fills p block slots root number (.child path index hole)
        ((p.perform [.createText value.text p.stage.document.size,
            .insertChild node index p.stage.document.size]).note (.slotFilled number hole node),
          .ok node)
  | shared {path : Path} {index : Nat} {hole : String} {node : Nat} {nested : Instance}
      (hr : p.stage.document.resolve? root path = some node)
      (hv : slots.get? hole = some (.block nested)) (huses : 1 < block.usesOf hole) :
      Fills p block slots root number (.child path index hole)
        (p, .error (.refused (.nestedBlockShared hole (block.usesOf hole))))
  | nestedFails {path : Path} {index : Nat} {hole : String} {node : Nat} {nested : Instance}
      {failure : Failure}
      (hr : p.stage.document.resolve? root path = some node)
      (hv : slots.get? hole = some (.block nested)) (huses : block.usesOf hole ≤ 1)
      (hm : (nested.mount node p.stage).outcome = .error failure) :
      Fills p block slots root number (.child path index hole)
        (⟨(nested.mount node p.stage).stage,
          p.props.insert hole (.block (nested.mount node p.stage).mounted)⟩, .error failure)
  | nested {path : Path} {index : Nat} {hole : String} {node : Nat} {nested : Instance}
      {top : Nat}
      (hr : p.stage.document.resolve? root path = some node)
      (hv : slots.get? hole = some (.block nested)) (huses : block.usesOf hole ≤ 1)
      (hm : (nested.mount node p.stage).outcome = .ok top) :
      Fills p block slots root number (.child path index hole)
        (Progress.note ⟨(nested.mount node p.stage).stage,
          p.props.insert hole (.block (nested.mount node p.stage).mounted)⟩
          (.slotFilled number hole node), .ok node)

theorem fills (p : Progress) (block : Block) (slots : Bindings Value) (root number : Nat)
    (edit : Edit) :
    Fills p block slots root number edit (p.fillEdit block (fillingsOf slots) root number edit) := by
  unfold fillEdit
  cases hr : p.stage.document.resolve? root edit.path with
  | none => exact .unresolved hr
  | some node =>
    simp only [get?_fillingsOf]
    cases hv : slots.get? edit.hole with
    | none => exact .missing hr hv
    | some value =>
      simp only [Option.map_some]
      cases edit with
      | attr path name hole =>
        cases value with
        | scalar value => exact .attr hr hv
        | block nested => exact .attrBlock hr hv
      | child path index hole =>
        cases value with
        | scalar value => exact .leaf hr hv
        | block nested =>
          simp only [Value.filling, fillSlot]
          by_cases huses : 1 < block.usesOf hole
          · simp only [huses, if_true]
            exact .shared hr hv huses
          · simp only [huses, if_false]
            cases hm : (nested.mount node p.stage).outcome with
            | error failure => exact .nestedFails hr hv (Nat.le_of_not_lt huses) hm
            | ok top => exact .nested hr hv (Nat.le_of_not_lt huses) hm

/-- An edit that finds its node and its value ends as the filling of its slot does. -/
theorem outcome_fillEdit {p : Progress} {block : Block} {slots : Bindings Value} {value : Value}
    {root number node : Nat} {edit : Edit}
    (hr : p.stage.document.resolve? root edit.path = some node)
    (hv : slots.get? edit.hole = some value) :
    (p.fillEdit block (fillingsOf slots) root number edit).2 =
      (p.fillSlot block edit value.filling node).2.map fun _ => node := by
  simp only [fillEdit, hr, get?_fillingsOf, hv, Option.map_some]
  generalize p.fillSlot block edit value.filling node = r
  obtain ⟨q, outcome⟩ := r
  cases outcome <;> rfl

/-- An edit leaves the slots alone, or it puts a nested instance back into its slot once it
was mounted at the edit's node, even if the mount has failed. -/
theorem props_fillEdit (p : Progress) (block : Block) (slots : Bindings Value)
    (root number : Nat) (edit : Edit) :
    (p.fillEdit block (fillingsOf slots) root number edit).1.props = p.props ∨
      ∃ n node, slots.get? edit.hole = some (.block n) ∧
        p.stage.document.resolve? root edit.path = some node ∧
        (p.fillEdit block (fillingsOf slots) root number edit).1.props =
          p.props.insert edit.hole (.block (n.mount node p.stage).mounted) := by
  have hfills := fills p block slots root number edit
  generalize p.fillEdit block (fillingsOf slots) root number edit = r at hfills ⊢
  cases hfills with
  | unresolved => exact .inl rfl
  | missing => exact .inl rfl
  | attr => exact .inl rfl
  | attrBlock => exact .inl rfl
  | leaf => exact .inl rfl
  | shared => exact .inl rfl
  | nestedFails hr hv => exact .inr ⟨_, _, hv, hr, rfl⟩
  | nested hr hv => exact .inr ⟨_, _, hv, hr, rfl⟩

/-- What is true of the document and of what each kind of filling makes of it is true after an
edit, however it ends. -/
theorem document_fillEdit {P : Document → Prop} {p : Progress} {block : Block}
    {slots : Bindings Value} {root : Nat} (number : Nat) (edit : Edit) (hp : P p.stage.document)
    (attr : ∀ path node name value, p.stage.document.resolve? root path = some node →
      P (p.stage.document.apply (.setAttribute node name value)))
    (leaf : ∀ path node content index, p.stage.document.resolve? root path = some node →
      P (p.stage.document.applyAll [.createText content p.stage.document.size,
        .insertChild node index p.stage.document.size]))
    (nested : ∀ path node slot n, p.stage.document.resolve? root path = some node →
      slots.get? slot = some (.block n) → P (n.mount node p.stage).stage.document) :
    P (p.fillEdit block (fillingsOf slots) root number edit).1.stage.document := by
  have hfills := fills p block slots root number edit
  generalize p.fillEdit block (fillingsOf slots) root number edit = r at hfills ⊢
  cases hfills with
  | unresolved => exact hp
  | missing => exact hp
  | attr hr _ =>
    rw [stage_note, Stage.document_note, stage_perform, Stage.document_performAll]
    exact attr _ _ _ _ hr
  | attrBlock => exact hp
  | leaf hr _ =>
    rw [stage_note, Stage.document_note, stage_perform, Stage.document_performAll]
    exact leaf _ _ _ _ hr
  | shared => exact hp
  | nestedFails hr hv _ _ => exact nested _ _ _ _ hr hv
  | nested hr hv _ _ => exact nested _ _ _ _ hr hv

/-- A property that every edit keeps, however it ends, is kept by the run. -/
theorem fillEdits_induction {block : Block} {slots : Bindings Value} {root : Nat}
    {P : Progress → Prop} {edits : List Edit}
    (step : ∀ (p : Progress) (number : Nat), ∀ edit ∈ edits, P p →
      P (p.fillEdit block (fillingsOf slots) root number edit).1)
    (p : Progress) (number : Nat) (hp : P p) :
    P (p.fillEdits block (fillingsOf slots) root number edits).1 := by
  induction edits generalizing p number with
  | nil => exact hp
  | cons edit rest ih =>
    have hfirst := step p number edit List.mem_cons_self hp
    simp only [fillEdits]
    generalize p.fillEdit block (fillingsOf slots) root number edit = r at hfirst ⊢
    obtain ⟨p₁, outcome⟩ := r
    cases outcome with
    | error failure => exact hfirst
    | ok node =>
      have hrest := ih (fun p number e he => step p number e (List.mem_cons_of_mem _ he)) p₁
        (number + 1) hfirst
      simp only
      generalize p₁.fillEdits block (fillingsOf slots) root (number + 1) rest = r at hrest ⊢
      obtain ⟨p₂, outcome⟩ := r
      cases outcome <;> exact hrest

/-- A run over the edits of two lists, in terms of the runs over each. -/
theorem fillEdits_append (block : Block) (fillings : Bindings Filling) (root : Nat)
    (es es' : List Edit) (p : Progress) (number : Nat) :
    p.fillEdits block fillings root number (es ++ es') =
      match p.fillEdits block fillings root number es with
      | (p, .error failure) => (p, .error failure)
      | (p, .ok nodes) =>
        match p.fillEdits block fillings root (number + es.length) es' with
        | (p, .error failure) => (p, .error failure)
        | (p, .ok nodes') => (p, .ok (nodes ++ nodes')) := by
  induction es generalizing p number with
  | nil =>
    simp only [List.nil_append, fillEdits, List.length_nil, Nat.add_zero]
    split <;> simp_all
  | cons edit rest ih =>
    simp only [List.cons_append, fillEdits]
    generalize p.fillEdit block fillings root number edit = r
    obtain ⟨p₁, outcome⟩ := r
    cases outcome with
    | error failure => rfl
    | ok node =>
      simp only [ih, List.length_cons, Nat.add_assoc, Nat.add_comm rest.length]
      generalize p₁.fillEdits block fillings root (number + 1) rest = r
      obtain ⟨p₂, outcome⟩ := r
      cases outcome with
      | error failure => rfl
      | ok nodes =>
        simp only
        generalize p₂.fillEdits block fillings root (number + (1 + rest.length)) es' = r
        obtain ⟨p₃, outcome⟩ := r
        cases outcome <;> rfl

section Outcomes

variable {block : Block} {fillings : Bindings Filling} {root number : Nat} {p q : Progress}
  {es es' : List Edit} {nodes : List Nat}

/-- A run that succeeds has succeeded over its first edits and gone on from there. -/
theorem fillEdits_append_ok
    (h : p.fillEdits block fillings root number (es ++ es') = (q, .ok nodes)) :
    ∃ r first last, p.fillEdits block fillings root number es = (r, .ok first) ∧
      r.fillEdits block fillings root (number + es.length) es' = (q, .ok last) := by
  rw [fillEdits_append] at h
  generalize p.fillEdits block fillings root number es = r at h
  obtain ⟨p₁, outcome⟩ := r
  cases outcome with
  | error failure => simp at h
  | ok first =>
    simp only at h
    generalize hrest : p₁.fillEdits block fillings root (number + es.length) es' = r at h
    obtain ⟨p₂, outcome⟩ := r
    cases outcome with
    | error failure => simp at h
    | ok last =>
      obtain ⟨rfl, -⟩ := Prod.mk.inj h
      exact ⟨p₁, first, last, rfl, hrest⟩

/-- A run fails as the first of its edits does that fails. -/
theorem fillEdits_error_iff {failure : Failure} :
    (p.fillEdits block fillings root number es).2 = .error failure ↔
      ∃ done e rest q nodes, es = done ++ e :: rest ∧
        p.fillEdits block fillings root number done = (q, .ok nodes) ∧
        (q.fillEdit block fillings root (number + done.length) e).2 = .error failure := by
  constructor
  · intro h
    induction es generalizing p number with
    | nil => simp [fillEdits] at h
    | cons e rest ih =>
      cases hfirst : p.fillEdit block fillings root number e with
      | mk p₁ outcome =>
        cases outcome with
        | error failure' =>
          simp only [fillEdits, hfirst] at h
          exact ⟨[], e, rest, p, [], rfl, rfl, by simpa [hfirst] using h⟩
        | ok node =>
          have hrest : (p₁.fillEdits block fillings root (number + 1) rest).2 = .error failure := by
            simp only [fillEdits, hfirst] at h
            split at h <;> simp_all
          obtain ⟨done, e', rest', q, nodes, rfl, hdone, hfail⟩ := ih hrest
          refine ⟨e :: done, e', rest', q, node :: nodes, rfl, by simp [fillEdits, hfirst, hdone], ?_⟩
          rwa [List.length_cons, show number + (done.length + 1) = number + 1 + done.length by omega]
  · rintro ⟨done, e, rest, q, nodes, rfl, hdone, hfail⟩
    rw [fillEdits_append, hdone]
    generalize hedit : q.fillEdit block fillings root (number + done.length) e = r at hfail
    obtain ⟨q', outcome⟩ := r
    obtain rfl : outcome = .error failure := hfail
    simp [fillEdits, hedit]

end Outcomes

end Progress

end Stencil
