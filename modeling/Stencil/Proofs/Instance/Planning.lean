import Stencil.Instance.Patch
import Stencil.Proofs.Instance.Completeness
/- The steps of planning a patch. `Plans` says once all that can come of one edit of an
   instance that is mounted completely. From it comes what a plan that is not refused
   has found in the slots, and what it will put there (`Planned`). -/
namespace Stencil

namespace Instance

/-- What can come of planning for one edit at its node. -/
inductive Plans (d : Document) (live fresh : Instance) (number : Nat) :
    Edit → Nat → Except Failure EditPlan → Prop where
  | missing {e : Edit} {node : Nat} (hnew : fresh.prop? e.hole = none) :
      Plans d live fresh number e node (.error (.refused (.missingProp e.hole)))
  | skip {e : Edit} {node : Nat} {old new : Scalar} (hold : live.prop? e.hole = some (.scalar old))
      (hnew : fresh.prop? e.hole = some (.scalar new)) (heq : old.equal new = true) :
      Plans d live fresh number e node (.ok .skip)
  | attr {path : Path} {name hole : String} {node : Nat} {old new : Scalar}
      (hold : live.prop? hole = some (.scalar old)) (hnew : fresh.prop? hole = some (.scalar new))
      (hne : old.equal new = false) :
      Plans d live fresh number (.attr path name hole) node
        (.ok (.step ⟨.attributePatched node name, .setAttribute node name new⟩))
  | attrBlock {path : Path} {name hole : String} {node : Nat} {m : Instance}
      (hnew : fresh.prop? hole = some (.block m)) :
      Plans d live fresh number (.attr path name hole) node
        (.error (.refused (.blockInAttribute name hole)))
  | text {path : Path} {index : Nat} {hole : String} {node leaf : Nat} {old new : Scalar}
      (hold : live.prop? hole = some (.scalar old)) (hnew : fresh.prop? hole = some (.scalar new))
      (hne : old.equal new = false) (hleaf : d.childAt? node index = some leaf) :
      Plans d live fresh number (.child path index hole) node
        (.ok (.step ⟨.textPatched leaf, .setText leaf new.text⟩))
  | childMissing {path : Path} {index : Nat} {hole : String} {node : Nat} {old new : Scalar}
      (hold : live.prop? hole = some (.scalar old)) (hnew : fresh.prop? hole = some (.scalar new))
      (hne : old.equal new = false) (hnone : d.childAt? node index = none) :
      Plans d live fresh number (.child path index hole) node
        (.error (.refused (.childMissing number index)))
  | changed {path : Path} {index : Nat} {hole : String} {node : Nat} {old new : Value}
      (hold : live.prop? hole = some old) (hnew : fresh.prop? hole = some new)
      (hkind : old.isBlock ≠ new.isBlock) :
      Plans d live fresh number (.child path index hole) node
        (.error (.refused (.slotKindChanged hole)))
  | nestedFails {path : Path} {index : Nat} {hole : String} {node : Nat} {n m : Instance}
      {failure : Failure} (hold : live.prop? hole = some (.block n))
      (hnew : fresh.prop? hole = some (.block m)) (hplan : n.plan d m = .error failure) :
      Plans d live fresh number (.child path index hole) node (.error failure)
  | nested {path : Path} {index : Nat} {hole : String} {node : Nat} {n m : Instance} {plan : Plan}
      (hold : live.prop? hole = some (.block n)) (hnew : fresh.prop? hole = some (.block m))
      (hplan : n.plan d m = .ok plan) :
      Plans d live fresh number (.child path index hole) node (.ok (.nested hole plan))

theorem plans {d : Document} {live fresh : Instance} (hlive : live.Whole) {e : Edit}
    (he : e ∈ live.block.edits) {node : Nat} (hnode : node < d.size) (number : Nat) :
    live.Plans d fresh number e node
      (planEdit d (facingsOf live.props) fresh number e (some node)) := by
  obtain ⟨old, hold⟩ := hlive.valued e he
  have hfacing : Bindings.get? (facingsOf live.props) e.hole = some old.facing := by
    rw [get?_facingsOf]
    simp only [prop?] at hold
    rw [hold]
    rfl
  have hissued : d.issued node = true := Document.issued_iff.mpr hnode
  simp only [planEdit, hfacing]
  cases hnew : fresh.prop? e.hole with
  | none => exact .missing hnew
  | some new =>
    simp only
    cases e with
    | attr path name hole =>
      simp only [Edit.hole] at hold hnew
      -- the live side of an attribute is a scalar, or the mount would have been refused
      obtain ⟨a, ha⟩ := hlive.attr he
      obtain rfl : Value.scalar a = old := by simpa [ha] using hold
      cases new with
      | block m => exact .attrBlock hnew
      | scalar b =>
        simp only [Value.facing, planSlot]
        cases heq : a.equal b with
        | true => exact .skip hold hnew heq
        | false => exact .attr hold hnew heq
    | child path index hole =>
      simp only [Edit.hole] at hold hnew
      cases old with
      | scalar a =>
        cases new with
        | block m => exact .changed hold hnew (by simp [Value.isBlock])
        | scalar b =>
          simp only [Value.facing, planSlot]
          cases heq : a.equal b with
          | true => exact .skip hold hnew heq
          | false =>
            simp only [planScalar, hissued, Bool.not_true, Bool.false_eq_true, if_false]
            cases hleaf : d.childAt? node index with
            | none => exact .childMissing hold hnew heq hleaf
            | some leaf => exact .text hold hnew heq hleaf
      | block n =>
        cases new with
        | scalar b => exact .changed hold hnew (by simp [Value.isBlock])
        | block m =>
          simp only [Value.facing, planSlot]
          cases hplan : n.plan d m with
          | error failure => exact .nestedFails hold hnew hplan
          | ok plan => exact .nested hold hnew hplan

/-- A plan for edits that is not refused is one for the first and one for the others. -/
theorem planEdits_cons_iff {d : Document} {facings : Bindings Facing} {fresh : Instance}
    {number node : Nat} {e : Edit} {rest : List Edit} {nodes : List Nat} {plans : EditPlans} :
    planEdits d facings fresh number (e :: rest) (node :: nodes) = .ok plans ↔
      ∃ plan plans', planEdit d facings fresh number e (some node) = .ok plan ∧
        planEdits d facings fresh (number + 1) rest nodes = .ok plans' ∧
          plans = plan.before plans' := by
  simp only [planEdits, List.head?_cons, List.tail_cons]
  cases planEdit d facings fresh number e (some node) with
  | error failure => simp
  | ok plan =>
    cases planEdits d facings fresh (number + 1) rest nodes with
    | error failure => simp [Except.map]
    | ok plans' => simp [Except.map, eq_comm]

/-- What a plan over some of the edits that is not refused has found in their slots, and
the nested instances that it will put there. -/
structure Planned (d : Document) (live fresh : Instance) (es : List Edit) (plans : EditPlans) :
    Prop where
  scalars : ∀ e ∈ es, ∀ old, live.prop? e.hole = some (.scalar old) →
    ∃ new, fresh.prop? e.hole = some (.scalar new)
  blocks : ∀ e ∈ es, ∀ n, live.prop? e.hole = some (.block n) →
    ∃ m plan, fresh.prop? e.hole = some (.block m) ∧ n.plan d m = .ok plan ∧
      (e.hole, plan.adopted) ∈ plans.nested
  nested : ∀ hole a, (hole, a) ∈ plans.nested → (∃ e ∈ es, e.hole = hole) ∧
    ∃ n m plan, live.prop? hole = some (.block n) ∧ fresh.prop? hole = some (.block m) ∧
      n.plan d m = .ok plan ∧ a = plan.adopted
  nodup : (plans.nested.map Prod.fst).Nodup

theorem Planned.nil (d : Document) (live fresh : Instance) : Planned d live fresh [] ⟨[], [], 0, 0⟩ :=
  ⟨by simp, by simp, by simp, by simp⟩

/-- An edit whose slot holds scalars adds nothing to what is nested. -/
theorem Planned.cons_scalar {d : Document} {live fresh : Instance} {e : Edit} {es : List Edit}
    {plans plans' : EditPlans} {old new : Scalar} (h : Planned d live fresh es plans)
    (hold : live.prop? e.hole = some (.scalar old)) (hnew : fresh.prop? e.hole = some (.scalar new))
    (heq : plans'.nested = plans.nested) : Planned d live fresh (e :: es) plans' where
  scalars f hf a ha := by
    rcases List.mem_cons.mp hf with rfl | hf
    · exact ⟨new, hnew⟩
    · exact h.scalars f hf a ha
  blocks f hf n hn := by
    rcases List.mem_cons.mp hf with rfl | hf
    · simp [hold] at hn
    · rw [heq]
      exact h.blocks f hf n hn
  nested hole a ha := by
    rw [heq] at ha
    obtain ⟨⟨f, hf, hhole⟩, hrest⟩ := h.nested hole a ha
    exact ⟨⟨f, List.mem_cons_of_mem _ hf, hhole⟩, hrest⟩
  nodup := by
    rw [heq]
    exact h.nodup

/-- An edit whose slot holds a nested instance is the only one that reads the slot. -/
theorem Planned.cons_nested {d : Document} {live fresh n m : Instance} {path : Path} {index : Nat}
    {hole : String} {es : List Edit} {plan : Plan} {plans plans' : EditPlans}
    (hlive : live.Whole) (hsub : (Edit.child path index hole :: es).Sublist live.block.edits)
    (h : Planned d live fresh es plans) (hold : live.prop? hole = some (.block n))
    (hnew : fresh.prop? hole = some (.block m)) (hplan : n.plan d m = .ok plan)
    (heq : plans'.nested = (hole, plan.adopted) :: plans.nested) :
    Planned d live fresh (.child path index hole :: es) plans' where
  scalars f hf a ha := by
    rcases List.mem_cons.mp hf with rfl | hf
    · rw [Edit.hole] at ha
      simp [hold] at ha
    · exact h.scalars f hf a ha
  blocks f hf n' hn' := by
    rw [heq]
    rcases List.mem_cons.mp hf with rfl | hf
    · rw [Edit.hole] at hn' ⊢
      obtain rfl : n = n' := by simpa [hold] using hn'
      exact ⟨m, plan, hnew, hplan, List.mem_cons_self⟩
    · obtain ⟨m', plan', hm', hplan', hmem⟩ := h.blocks f hf n' hn'
      exact ⟨m', plan', hm', hplan', List.mem_cons_of_mem _ hmem⟩
  nested slot a ha := by
    rw [heq] at ha
    rcases List.mem_cons.mp ha with ha | ha
    · obtain ⟨rfl, rfl⟩ := Prod.mk.inj ha
      exact ⟨⟨_, List.mem_cons_self, rfl⟩, n, m, plan, hold, hnew, hplan, rfl⟩
    · obtain ⟨⟨f, hf, hhole⟩, hrest⟩ := h.nested slot a ha
      exact ⟨⟨f, List.mem_cons_of_mem _ hf, hhole⟩, hrest⟩
  nodup := by
    rw [heq, List.map_cons, List.nodup_cons]
    refine ⟨fun hm => ?_, h.nodup⟩
    obtain ⟨⟨hole', a⟩, ha, rfl⟩ := List.mem_map.mp hm
    have huses := hlive.once (hsub.subset List.mem_cons_self) hold
    have hsub : ([Edit.child path index hole'] ++ es).Sublist live.block.edits := hsub
    exact Block.not_mem_of_usesOf hsub (Nat.le_of_eq huses) ⟨_, List.mem_singleton_self _, rfl⟩
      (h.nested hole' a ha).1

theorem planned {d : Document} {live fresh : Instance} (hlive : live.Whole) :
    ∀ {es : List Edit} {nodes : List Nat} {number : Nat} {plans : EditPlans},
      es.Sublist live.block.edits → nodes.length = es.length → (∀ x ∈ nodes, x < d.size) →
      planEdits d (facingsOf live.props) fresh number es nodes = .ok plans →
      Planned d live fresh es plans
  | [], _, _, plans, _, _, _, h => by
    obtain rfl := Except.ok.inj h
    exact .nil d live fresh
  | e :: rest, [], _, _, _, hlen, _, _ => by simp at hlen
  | e :: rest, node :: nodes, number, plans, hsub, hlen, hlt, h => by
    rw [List.forall_mem_cons] at hlt
    obtain ⟨plan, plans', hedit, hrest, rfl⟩ := planEdits_cons_iff.mp h
    have ih := planned hlive ((List.sublist_cons_self _ _).trans hsub) (by simpa using hlen) hlt.2
      hrest
    have hplans := @Instance.plans d live fresh hlive e (hsub.subset List.mem_cons_self) node hlt.1
      number
    rw [hedit] at hplans
    cases hplans with
    | skip hold hnew _ => exact ih.cons_scalar hold hnew rfl
    | attr hold hnew _ => exact ih.cons_scalar hold hnew rfl
    | text hold hnew _ _ => exact ih.cons_scalar hold hnew rfl
    | nested hold hnew hplan => exact ih.cons_nested hlive hsub hold hnew hplan rfl

end Instance

end Stencil
