import Stencil.Proofs.Document.Redrawing
import Stencil.Proofs.Instance.Layout
import Stencil.Proofs.Instance.Likeness
/- Plans for edits whose slots keep their kinds. `Replans` says that planning for some edits
   succeeds and what the steps make of the document. It is said of the properties of an
   element (`replans_attrs`) and of one hole among its children (`replans_leaf`,
   `replans_nested`), and plans for edits at different nodes are put together
   (`Replans.append`). -/
namespace Stencil

/-- The steps that a plan for one edit comes with. -/
def EditPlan.steps : EditPlan → List Step
  | skip => []
  | step s => [s]
  | nested _ plan => plan.steps

theorem EditPlan.steps_before (plan : EditPlan) (rest : EditPlans) :
    (plan.before rest).steps = plan.steps ++ rest.steps := by
  cases plan <;> rfl

namespace Instance

variable {d : Document} {live fresh : Instance} {number : Nat} {es es' : List Edit}
  {ns ns' ids ids' : List Nat} {good good' : Document → Prop}

/-- Planning for the edits succeeds, and the steps write to the nodes `ids` only and leave
something good. -/
structure Replans (d : Document) (live fresh : Instance) (number : Nat) (es : List Edit)
    (ns ids : List Nat) (good : Document → Prop) : Prop where
  length : ns.length = es.length
  planned : ∃ plans, planEdits d (facingsOf live.props) fresh number es ns = .ok plans ∧
    d.Redraws (plans.steps.map Step.change) ids good

theorem planEdits_append {facings : Bindings Facing} {plans' : EditPlans} :
    ∀ {es : List Edit} {ns : List Nat} {number : Nat} {plans : EditPlans},
      ns.length = es.length → planEdits d facings fresh number es ns = .ok plans →
      planEdits d facings fresh (number + es.length) es' ns' = .ok plans' →
      ∃ both, planEdits d facings fresh number (es ++ es') (ns ++ ns') = .ok both ∧
        both.steps = plans.steps ++ plans'.steps
  | [], [], number, plans, _, h, h' => by
    obtain rfl := Except.ok.inj h
    exact ⟨plans', h', rfl⟩
  | [], _ :: _, _, _, hlen, _, _ => by simp at hlen
  | _ :: _, [], _, _, hlen, _, _ => by simp at hlen
  | e :: rest, node :: nodes, number, plans, hlen, h, h' => by
    obtain ⟨plan, plans₁, hedit, hrest, rfl⟩ := planEdits_cons_iff.mp h
    have hnumber : number + 1 + rest.length = number + (e :: rest).length := by
      rw [List.length_cons, Nat.add_assoc, Nat.add_comm 1]
    obtain ⟨both, hboth, hsteps⟩ := planEdits_append (by simpa using hlen) hrest (hnumber ▸ h')
    refine ⟨plan.before both, planEdits_cons_iff.mpr ⟨plan, both, hedit, hboth, rfl⟩, ?_⟩
    rw [EditPlan.steps_before, EditPlan.steps_before, hsteps, List.append_assoc]

/-- Plans for edits at different nodes, one after another. -/
theorem Replans.append (h : Replans d live fresh number es ns ids good)
    (h' : Replans d live fresh (number + es.length) es' ns' ids' good')
    (hdisjoint : ∀ x ∈ ids, x ∉ ids')
    (hkeep : ∀ e f, good e → (∀ x ∈ ids, e.SameAt f x) → good f) :
    Replans d live fresh number (es ++ es') (ns ++ ns') (ids ++ ids')
      fun e => good e ∧ good' e := by
  obtain ⟨hlen, plans, hplans, hredraws⟩ := h
  obtain ⟨hlen', plans', hplans', hredraws'⟩ := h'
  obtain ⟨both, hboth, hsteps⟩ := planEdits_append hlen hplans hplans'
  refine ⟨by simp [hlen, hlen'], both, hboth, ?_⟩
  rw [hsteps, List.map_append]
  exact hredraws.append hredraws' hdisjoint hkeep

theorem Replans.mono (h : Replans d live fresh number es ns ids good) (hsub : ids ⊆ ids')
    (himp : ∀ e, good e → good' e) : Replans d live fresh number es ns ids' good' := by
  obtain ⟨hlen, plans, hplans, hredraws⟩ := h
  exact ⟨hlen, plans, hplans, hredraws.mono hsub himp⟩

/-- A plan for a single edit. -/
theorem replans_single {e : Edit} {node : Nat} {plan : EditPlan}
    (hplan : planEdit d (facingsOf live.props) fresh number e (some node) = .ok plan)
    (hredraws : d.Redraws (plan.steps.map Step.change) ids good) :
    Replans d live fresh number [e] [node] ids good := by
  refine ⟨rfl, plan.before ⟨[], [], 0, 0⟩, planEdits_cons_iff.mpr ⟨plan, _, hplan, rfl, rfl⟩, ?_⟩
  rw [EditPlan.steps_before, List.append_nil]
  exact hredraws

theorem planEdit_scalars {e : Edit} {a b : Scalar} (hold : live.prop? e.hole = some (.scalar a))
    (hnew : fresh.prop? e.hole = some (.scalar b)) (number node : Nat) :
    planEdit d (facingsOf live.props) fresh number e (some node) =
      if a.equal b then .ok .skip else planScalar d number e node b := by
  have hfacing : Bindings.get? (facingsOf live.props) e.hole = some (.scalar a) := by
    rw [prop?] at hold
    rw [get?_facingsOf, hold]
    rfl
  simp only [planEdit, hfacing, hnew, planSlot]

theorem planEdit_blocks {path : Path} {index : Nat} {hole : String} {n m : Instance}
    (hold : live.prop? hole = some (.block n)) (hnew : fresh.prop? hole = some (.block m))
    (number node : Nat) :
    planEdit d (facingsOf live.props) fresh number (.child path index hole) (some node) =
      (n.plan d m).map (.nested hole) := by
  have hfacing : Bindings.get? (facingsOf live.props) hole = some (.block n.plan) := by
    rw [prop?] at hold
    rw [get?_facingsOf, hold]
    rfl
  simp only [planEdit, Edit.hole, hfacing, hnew, planSlot]

/-- A slot has a scalar before and after, or nested instances of which the first is patched
by the second wherever it stands. -/
inductive Fits (source : Block → Fragment) (d : Document) (live fresh : Instance)
    (after : String → Option Value) (hole : String) : Prop where
  | scalar {a b : Scalar} (hold : live.prop? hole = some (.scalar a))
      (hnew : fresh.prop? hole = some (.scalar b)) (hafter : after hole = some (.scalar b))
      (heq : a.equal b = true → a = b)
  | block {n m : Instance} (hold : live.prop? hole = some (.block n))
      (hnew : fresh.prop? hole = some (.block m)) (hafter : ∃ a, after hole = some (.block a))
      (hnest : ∀ K, n.Stands source d K → K.ids.Nodup → ∃ plan, n.plan d m = .ok plan ∧
        after hole = some (.block plan.adopted) ∧
        d.Redraws (plan.steps.map Step.change) K.ids fun e => plan.adopted.Stands source e K)

end Instance

/-- The values of slots as a rendering uses them. -/
def showingOf (source : Block → Fragment) (values : String → Option Value) (slot : String) :
    Option Showing :=
  (values slot).map (Value.showing source)

theorem PropList.bound_sublist {slots : String → Option Showing} : ∀ {props : PropList}
    {pairs : List (String × Scalar)}, props.bound slots = some pairs →
    (pairs.map Prod.fst).Sublist (props.map Prod.fst)
  | [], pairs, h => by
    obtain rfl := Option.some.inj h
    exact .refl _
  | (name, .fixed value) :: rest, pairs, h => (@bound_sublist slots rest pairs h).cons name
  | (name, .hole hole) :: rest, pairs, h => by
    simp only [bound] at h
    split at h
    · obtain ⟨pairs', hrest, rfl⟩ := Option.map_eq_some_iff.mp h
      exact (bound_sublist hrest).cons_cons name
    · simp at h

theorem PropList.get?_bound_eq_none {slots : String → Option Showing} {props : PropList}
    {pairs : List (String × Scalar)} {name : String} (hname : name ∉ props.map Prod.fst)
    (h : props.bound slots = some pairs) : Bindings.get? pairs name = none := by
  rw [Bindings.get?_eq_none]
  exact fun hm => hname ((bound_sublist h).subset hm)

theorem PropList.names_bound {slots slots' : String → Option Showing} : ∀ {props : PropList}
    {pairs pairs' : List (String × Scalar)}, props.bound slots = some pairs →
    props.bound slots' = some pairs' → Bindings.names pairs = Bindings.names pairs'
  | [], pairs, pairs', h, h' => by
    obtain rfl := Option.some.inj h
    obtain rfl := Option.some.inj h'
    rfl
  | (name, .fixed value) :: rest, pairs, pairs', h, h' =>
    @names_bound slots slots' rest pairs pairs' h h'
  | (name, .hole hole) :: rest, pairs, pairs', h, h' => by
    simp only [bound] at h h'
    split at h
    · split at h'
      · obtain ⟨ps, hps, rfl⟩ := Option.map_eq_some_iff.mp h
        obtain ⟨qs, hqs, rfl⟩ := Option.map_eq_some_iff.mp h'
        exact congrArg (name :: ·) (names_bound hps hqs)
      · simp at h'
    · simp at h

namespace Instance

variable {source : Block → Fragment} {d : Document} {live fresh : Instance}
  {after : String → Option Value}

theorem showing?_scalar {hole : String} {a : Scalar}
    (h : live.showing? source hole = some (.scalar a)) : live.prop? hole = some (.scalar a) := by
  simp only [showing?, Option.map_eq_some_iff] at h
  obtain ⟨value, hv, hshowing⟩ := h
  cases value with
  | block n => simp [Value.showing] at hshowing
  | scalar b =>
    obtain rfl : b = a := by simpa [Value.showing] using hshowing
    exact hv

theorem Fits.kind {hole : String} (h : Fits source d live fresh after hole) :
    (showingOf source after hole).map Showing.isBlock =
      (live.showing? source hole).map Showing.isBlock := by
  cases h with
  | scalar hold _ hafter _ => simp [showingOf, showing?, hold, hafter, Value.showing, Showing.isBlock]
  | block hold _ hafter _ =>
    obtain ⟨a, ha⟩ := hafter
    simp [showingOf, showing?, hold, ha, Value.showing, Showing.isBlock]

/-- What the steps for an element's properties make of its attributes: the new scalars are
written, and where a scalar was left alone it was the same. -/
structure Repaints (id : Nat) (tag : String) (held : Bindings Scalar)
    (new : List (String × Scalar)) (e f : Document) : Prop where
  redrawn : Document.Redrawn [id] e f
  kind : ∃ held', f.kind? id = some (.element tag held') ∧ held'.Sorted ∧ ∀ slot,
    held'.get? slot = match Bindings.get? new slot with
      | some value => Bindings.present value
      | none => held.get? slot

/-- A property whose scalar stays the same. -/
theorem Repaints.cons_same {id : Nat} {tag name : String} {held : Bindings Scalar} {b : Scalar}
    {new : List (String × Scalar)} {e f : Document} (h : Repaints id tag held new e f)
    (hname : Bindings.get? new name = none) (hheld : held.get? name = Bindings.present b) :
    Repaints id tag held ((name, b) :: new) e f := by
  obtain ⟨hredrawn, held', hkind, hsorted, hget⟩ := h
  refine ⟨hredrawn, held', hkind, hsorted, fun slot => ?_⟩
  rw [hget, Bindings.get?_cons]
  split
  · rename_i value hvalue
    rw [if_neg fun heq => by simp [heq, hname] at hvalue, hvalue]
  · by_cases hslot : slot = name
    · rw [if_pos hslot, hslot, hheld]
    · rename_i hnone
      rw [if_neg hslot, hnone]

/-- A property that is written. -/
theorem Repaints.cons_write {id : Nat} {tag name : String} {held : Bindings Scalar} {b : Scalar}
    {new : List (String × Scalar)} {e f : Document}
    (h : Repaints id tag (Bindings.write name b held) new (e.setAttribute id name b) f)
    (hname : Bindings.get? new name = none) :
    Repaints id tag held ((name, b) :: new) e f := by
  obtain ⟨hredrawn, held', hkind, hsorted, hget⟩ := h
  refine ⟨(Document.Redrawn.setAttribute e id name b).trans hredrawn, held', hkind, hsorted,
    fun slot => ?_⟩
  rw [hget, Bindings.get?_write, Bindings.get?_cons]
  split
  · rename_i value hvalue
    rw [if_neg fun heq => by simp [heq, hname] at hvalue, hvalue]
  · by_cases hslot : slot = name
    · rw [if_pos hslot, if_pos hslot]
    · rename_i hnone
      rw [if_neg hslot, if_neg hslot, hnone]

/-- Planning for the properties of an element starts with the first one that is bound. -/
theorem planEdits_attr {c : Cursor} {name hole : String} {rest : PropList} {number id : Nat}
    {plan : EditPlan} {plans : EditPlans}
    (hplan : planEdit d (facingsOf live.props) fresh number (.attr c.toPath name hole) (some id) =
      .ok plan)
    (hplans : planEdits d (facingsOf live.props) fresh (number + 1) (rest.edits c)
      ((rest.filterMap fun p => p.2.hole?).map fun _ => id) = .ok plans) :
    planEdits d (facingsOf live.props) fresh number
        (PropList.edits c ((name, .hole hole) :: rest))
        ((List.filterMap (fun p => p.2.hole?) ((name, PropValue.hole hole) :: rest)).map
          fun _ => id) =
      .ok (plan.before plans) :=
  planEdits_cons_iff.mpr ⟨plan, plans, hplan, hplans, rfl⟩

/-- Planning for the properties of an element, whose attributes are what the old scalars make
of them. -/
theorem replans_attrs {c : Cursor} {id : Nat} : ∀ {props : PropList} {number : Nat}
    {old : List (String × Scalar)}, (props.map Prod.fst).Nodup →
    props.bound (live.showing? source) = some old →
    (∀ hole ∈ props.filterMap fun p => p.2.hole?, Fits source d live fresh after hole) →
    ∃ new plans, props.bound (showingOf source after) = some new ∧
      planEdits d (facingsOf live.props) fresh number (props.edits c)
        ((props.filterMap fun p => p.2.hole?).map fun _ => id) = .ok plans ∧
      ∀ e tag held, e.kind? id = some (.element tag held) → held.Sorted → held.Bears old →
        Repaints id tag held new e (e.applyAll (plans.steps.map Step.change))
  | [], number, old, _, hold, _ => by
    refine ⟨[], ⟨[], [], 0, 0⟩, rfl, rfl, fun e tag held hk hsorted _ => ?_⟩
    exact ⟨.refl _ _, held, hk, hsorted, fun _ => rfl⟩
  | (name, .fixed value) :: rest, number, old, hnodup, hold, hfits => by
    simp only [List.map_cons, List.nodup_cons] at hnodup
    exact @replans_attrs c id rest number old hnodup.2 hold hfits
  | (name, .hole hole) :: rest, number, old, hnodup, hold, hfits => by
    simp only [List.map_cons, List.nodup_cons] at hnodup
    have hfits : Fits source d live fresh after hole ∧ ∀ slot ∈ rest.filterMap fun p => p.2.hole?,
        Fits source d live fresh after slot := List.forall_mem_cons.mp hfits
    simp only [PropList.bound] at hold
    split at hold
    · rename_i a hshowing
      obtain ⟨old', hold', rfl⟩ := Option.map_eq_some_iff.mp hold
      have hv := showing?_scalar hshowing
      cases hfits.1 with
      | block hblock _ _ _ => simp [hv] at hblock
      | scalar hold₁ hnew hafter heq =>
        rename_i a' b
        obtain rfl : a = a' := by simpa [hv] using hold₁
        obtain ⟨new, plans, hbound, hplans, hrepaints⟩ := @replans_attrs c id rest (number + 1)
          old' hnodup.2 hold' hfits.2
        have hshown : showingOf source after hole = some (.scalar b) := by
          simp [showingOf, hafter, Value.showing]
        have hbound' : PropList.bound (showingOf source after) ((name, .hole hole) :: rest) =
            some ((name, b) :: new) := by
          simp [PropList.bound, hshown, hbound]
        have hfree : Bindings.get? new name = none :=
          PropList.get?_bound_eq_none hnodup.1 hbound
        have hfree' : Bindings.get? old' name = none :=
          PropList.get?_bound_eq_none hnodup.1 hold'
        have hedit := planEdit_scalars (d := d) (e := .attr c.toPath name hole) hv hnew number id
        -- the dirty check: an equal scalar gives no step, any other one is written
        cases hequal : a.equal b with
        | true =>
          obtain rfl := heq hequal
          rw [hequal, if_pos rfl] at hedit
          refine ⟨_, _, hbound', planEdits_attr hedit hplans, fun e tag held hk hsorted hbears => ?_⟩
          rw [EditPlan.steps_before]
          exact (hrepaints e tag held hk hsorted (hbears.tail hfree')).cons_same hfree hbears.head
        | false =>
          rw [hequal, if_neg (by simp)] at hedit
          refine ⟨_, _, hbound', planEdits_attr hedit hplans, fun e tag held hk hsorted hbears => ?_⟩
          have hk' : (e.setAttribute id name b).kind? id =
              some (.element tag (Bindings.write name b held)) := by
            simp [Document.kind?_setAttribute, hk, NodeKind.writeAttribute]
          have hbears' := (hbears.tail hfree').write hfree' b
          rw [EditPlan.steps_before]
          exact (hrepaints _ tag _ hk' (hsorted.write name b) hbears').cons_write hfree
    · simp at hold

end Instance

end Stencil
