import Stencil.Instance.Basic
import Stencil.Instance.Error
import Stencil.Stage
/- Patching. A patch brings what a mounted instance shows in line with the values of
   a fresh instance of the same block, and then adopts them. It first plans, nested
   instances included, and changes nothing while it does; only a plan without a
   refusal is carried out. An edit whose scalar is equal to the one before is left
   alone, and all edits of a slot compare with the value before the patch. -/
namespace Stencil

/-- How many edits a patch looked at, how many of them it acted on, and how many it
left alone. The edits of nested instances do not count. -/
structure PatchStats where
  edits : Nat
  changed : Nat
  skipped : Nat
  deriving DecidableEq, Repr

/-- One step of a patch: a change, and the event that announces it. -/
structure Step where
  event : Event
  change : Change
  deriving DecidableEq, Repr

/-- What a patch will do: its steps in order, the instance as it will be, and the
counts. -/
structure Plan where
  steps : List Step
  adopted : Instance
  stats : PatchStats

/-- The value of a slot of a live instance as a patch uses it: a nested instance is
what plans its patch by a fresh one. -/
inductive Facing where
  | scalar (value : Scalar)
  | block (plan : Document → Instance → Except Failure Plan)

/-- What a patch will do about one edit. -/
inductive EditPlan where
  | skip
  | step (step : Step)
  | nested (hole : String) (plan : Plan)

/-- What a patch will do about several edits: the steps, the nested instances as they
will be, by slot, and how many edits it will act on and leave alone. -/
structure EditPlans where
  steps : List Step
  nested : List (String × Instance)
  changed : Nat
  skipped : Nat

namespace EditPlan

/-- Put the plan of one edit before those of the edits after it. -/
def before (plan : EditPlan) (rest : EditPlans) : EditPlans :=
  match plan with
  | skip => { rest with skipped := rest.skipped + 1 }
  | step s => { rest with steps := s :: rest.steps, changed := rest.changed + 1 }
  | nested hole plan =>
    { rest with
      steps := plan.steps ++ rest.steps
      nested := (hole, plan.adopted) :: rest.nested
      changed := rest.changed + 1 }

end EditPlan

/-- Plan to show a new scalar at the slot of an edit: as the attribute, or as the text
of the child that stands at the edit's index. -/
def planScalar (d : Document) (number : Nat) (edit : Edit) (node : NodeId) (value : Scalar) :
    Except Failure EditPlan :=
  match edit with
  | .attr _ name _ => .ok (.step ⟨.attributePatched node name, .setAttribute node name value⟩)
  | .child _ index _ =>
    if !d.issued node then .error .foreignNode
    else
      match d.childAt? node index with
      | none => .error (.refused (.childMissing number index))
      | some leaf => .ok (.step ⟨.textPatched leaf, .setText leaf value.text⟩)

/-- Plan for an edit at its node, from the value that its slot has and the one that
it gets. -/
def planSlot (d : Document) (number : Nat) (edit : Edit) (node : NodeId) (old : Facing)
    (new : Value) : Except Failure EditPlan :=
  match edit, old, new with
  | edit, .scalar value, .scalar value' =>
    if value.equal value' then .ok .skip else planScalar d number edit node value'
  | .attr path name hole, .block _, .scalar value =>
    planScalar d number (.attr path name hole) node value
  | .attr _ name hole, _, .block _ => .error (.refused (.blockInAttribute name hole))
  | .child _ _ hole, .block plan, .block fresh => (plan d fresh).map (.nested hole)
  | .child _ _ hole, .scalar _, .block _ => .error (.refused (.slotKindChanged hole))
  | .child _ _ hole, .block _, .scalar _ => .error (.refused (.slotKindChanged hole))

/-- Plan for an edit: its slot must have a value on both sides, and it must have been
made at a node. -/
def planEdit (d : Document) (facings : Bindings Facing) (fresh : Instance) (number : Nat)
    (edit : Edit) (node? : Option NodeId) : Except Failure EditPlan :=
  match facings.get? edit.hole, fresh.prop? edit.hole, node? with
  | none, _, _ => .error (.refused (.missingProp edit.hole))
  | some _, none, _ => .error (.refused (.missingProp edit.hole))
  | some _, some _, none => .error (.unresolvedEdit number)
  | some old, some new, some node => planSlot d number edit node old new

/-- Plan for edits in turn, numbered from `number` on, which were made at `nodes`. The
first that is refused decides. -/
def planEdits (d : Document) (facings : Bindings Facing) (fresh : Instance) (number : Nat) :
    List Edit → List NodeId → Except Failure EditPlans
  | [], _ => .ok ⟨[], [], 0, 0⟩
  | edit :: rest, nodes =>
    match planEdit d facings fresh number edit nodes.head? with
    | .error failure => .error failure
    | .ok plan =>
      (planEdits d facings fresh (number + 1) rest nodes.tail).map fun plans => plan.before plans

namespace Instance

/-- The values after a patch: the nested instances that were patched stay, each as its
own patch leaves it; every other slot takes its fresh value, if there is one. -/
def adopt (props fresh : Bindings Value) (nested : List (String × Instance)) : Bindings Value :=
  let kept := nested.foldl (fun acc n => acc.insert n.1 (.block n.2)) props
  let rest := nested.foldl (fun acc n => acc.erase n.1) fresh
  kept.overlay rest

/-- Plan the patch of an instance whose slots have these facings. -/
def planWith (live : Instance) (facings : Bindings Facing) (d : Document) (fresh : Instance) :
    Except Failure Plan :=
  if !live.block.sameAs fresh.block then .error (.refused .blockMismatch)
  else if !live.isMounted then .error (.refused .notMounted)
  else
    (planEdits d facings fresh 0 live.block.edits live.resolved).map fun plans =>
      { steps := plans.steps
        adopted := { live with props := adopt live.props fresh.props plans.nested }
        stats := ⟨live.block.edits.length, plans.changed, plans.skipped⟩ }

end Instance

mutual
/-- Plan the patch of a live instance by a fresh one. -/
def Instance.plan : Instance → Document → Instance → Except Failure Plan
  | ⟨block, props, resolved, root⟩, d, fresh =>
    Instance.planWith ⟨block, props, resolved, root⟩ (facingsOf props) d fresh

/-- A value as a patch uses it. -/
def Value.facing : Value → Facing
  | .scalar value => .scalar value
  | .block nested => .block nested.plan

/-- Values of slots as a patch uses them. -/
def facingsOf : List (String × Value) → List (String × Facing)
  | [] => []
  | (slot, value) :: rest => (slot, value.facing) :: facingsOf rest
end

/-- The facing of a slot is its value as a patch uses it. -/
theorem get?_facingsOf (props : Bindings Value) (slot : String) :
    Bindings.get? (facingsOf props) slot = (props.get? slot).map Value.facing := by
  induction props with
  | nil => rfl
  | cons entry rest ih =>
    obtain ⟨key, value⟩ := entry
    simp only [facingsOf, Bindings.get?, List.lookup_cons] at ih ⊢
    split
    · rfl
    · exact ih

theorem Instance.plan_eq (live : Instance) (d : Document) (fresh : Instance) :
    live.plan d fresh = live.planWith (facingsOf live.props) d fresh := by
  cases live
  rfl

/-- What a patch leaves behind. -/
structure Patching where
  stage : Stage
  live : Instance
  outcome : Except Failure PatchStats

/-- Announce and make the change of each step, if the document can make them all. -/
def Stage.carryOut? (s : Stage) : List Step → Option Stage
  | [] => some s
  | step :: rest => ((s.note step.event).perform? step.change).bind fun s => s.carryOut? rest

/-- Patch a live instance by a fresh one of the same block. -/
def Instance.patch (live fresh : Instance) (stage : Stage) : Patching :=
  match live.plan stage.document fresh with
  | .error failure => ⟨stage, live, .error failure⟩
  | .ok plan =>
    match stage.carryOut? plan.steps with
    | none => ⟨stage, live, .error .foreignNode⟩
    | some stage =>
      ⟨stage.note (.blockPatched plan.stats.changed plan.stats.skipped), plan.adopted,
        .ok plan.stats⟩

end Stencil
