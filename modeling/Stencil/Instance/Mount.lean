import Stencil.Instance.Basic
import Stencil.Instance.Error
import Stencil.Stage
/- Mounting. A mount copies the skeleton of a block under a target, in place of what
   was there, and fills the slots edit by edit: a scalar becomes an attribute or a
   text node, and a nested instance is mounted in its turn under the element that
   has the slot. A mount that fails leaves the document as far as it came, the
   nested instances mounted that it had mounted by then, and the instance itself
   not mounted. -/
namespace Stencil

/-- What a mount leaves behind: the stage, the instance, and the root of the copied
skeleton if it succeeds. -/
structure Mounting where
  stage : Stage
  mounted : Instance
  outcome : Except Failure NodeId

/-- The value of a slot as a mount uses it: a nested instance is what mounts it at a
given node. -/
inductive Filling where
  | scalar (value : Scalar)
  | block (mount : NodeId → Stage → Mounting)

/-- How far a mount has come: the stage, and the values of the slots with the nested
instances that are mounted so far. -/
structure Progress where
  stage : Stage
  props : Bindings Value

namespace Progress

/-- Report an event. -/
def note (p : Progress) (e : Event) : Progress :=
  let ⟨stage, props⟩ := p
  ⟨stage.note e, props⟩

/-- Make changes to the document. -/
def perform (p : Progress) (changes : List Change) : Progress :=
  let ⟨stage, props⟩ := p
  ⟨stage.performAll changes, props⟩

/-- Put a filling into the slot of an edit at its node. A nested instance mounts
once, so it cannot fill several edits, and it cannot be an attribute. -/
def fillSlot (p : Progress) (block : Block) (edit : Edit) (filling : Filling) (node : NodeId) :
    Progress × Except Failure Unit :=
  match edit, filling with
  | .attr _ name _, .scalar value => (p.perform [.setAttribute node name value], .ok ())
  | .attr _ name hole, .block _ => (p, .error (.refused (.blockInAttribute name hole)))
  | .child _ index _, .scalar value =>
    let leaf := p.stage.document.nextId
    (p.perform [.createText value.text leaf, .insertChild node index leaf], .ok ())
  | .child _ _ hole, .block mount =>
    if 1 < block.usesOf hole then
      (p, .error (.refused (.nestedBlockShared hole (block.usesOf hole))))
    else
      let ⟨stage, props⟩ := p
      let nested := mount node stage
      (⟨nested.stage, props.insert hole (.block nested.mounted)⟩, nested.outcome.map fun _ => ())

/-- Make one edit, and give the node that it is made at. -/
def fillEdit (p : Progress) (block : Block) (fillings : Bindings Filling) (root : NodeId)
    (number : Nat) (edit : Edit) : Progress × Except Failure NodeId :=
  match p.stage.document.resolve? root edit.path with
  | none => (p, .error (.refused (.pathUnresolved number edit.path)))
  | some node =>
    match fillings.get? edit.hole with
    | none => (p, .error (.refused (.missingProp edit.hole)))
    | some filling =>
      match p.fillSlot block edit filling node with
      | (p, .error failure) => (p, .error failure)
      | (p, .ok ()) => (p.note (.slotFilled number edit.hole node), .ok node)

/-- Make edits in turn, numbered from `number` on, up to the first that fails. -/
def fillEdits (p : Progress) (block : Block) (fillings : Bindings Filling) (root : NodeId)
    (number : Nat) : List Edit → Progress × Except Failure (List NodeId)
  | [] => (p, .ok [])
  | edit :: rest =>
    match p.fillEdit block fillings root number edit with
    | (p, .error failure) => (p, .error failure)
    | (p, .ok node) =>
      match p.fillEdits block fillings root (number + 1) rest with
      | (p, .error failure) => (p, .error failure)
      | (p, .ok nodes) => (p, .ok (node :: nodes))

end Progress

namespace Instance

/-- Mount an instance whose slots have these fillings. The skeleton is copied before
the target is looked at, so a node of the copy itself can be the target. -/
def mountWith (i : Instance) (fillings : Bindings Filling) (target : NodeId) (stage : Stage) :
    Mounting :=
  if i.isMounted then ⟨stage, i, .error (.refused .alreadyMounted)⟩
  else
    let root := stage.document.nextId
    let copied := stage.performAll (i.block.skeleton.copy root)
    if !copied.document.issued target then ⟨copied, i, .error .foreignNode⟩
    else
    let placed := copied.performAll [.clearChildren target, .appendChild target root]
    let start : Progress := ⟨placed, i.props⟩
    match start.fillEdits i.block fillings root 0 i.block.edits with
    | (⟨stage, props⟩, .error failure) => ⟨stage, { i with props := props }, .error failure⟩
    | (⟨stage, props⟩, .ok nodes) =>
      ⟨stage.note (.blockMounted root nodes.length),
        { i with props := props, resolved := nodes, root := some root }, .ok root⟩

end Instance

mutual
/-- Mount an instance under a target, in place of the target's children. -/
def Instance.mount : Instance → NodeId → Stage → Mounting
  | ⟨block, props, resolved, root⟩, target, stage =>
    Instance.mountWith ⟨block, props, resolved, root⟩ (fillingsOf props) target stage

/-- A value as a mount uses it. -/
def Value.filling : Value → Filling
  | .scalar value => .scalar value
  | .block nested => .block nested.mount

/-- Values of slots as a mount uses them. -/
def fillingsOf : List (String × Value) → List (String × Filling)
  | [] => []
  | (slot, value) :: rest => (slot, value.filling) :: fillingsOf rest
end

/-- The filling of a slot is its value as a mount uses it. -/
theorem get?_fillingsOf (props : Bindings Value) (slot : String) :
    Bindings.get? (fillingsOf props) slot = (props.get? slot).map Value.filling := by
  induction props with
  | nil => rfl
  | cons entry rest ih =>
    obtain ⟨key, value⟩ := entry
    simp only [fillingsOf, Bindings.get?, List.lookup_cons] at ih ⊢
    split
    · rfl
    · exact ih

theorem Instance.mount_eq (i : Instance) (target : NodeId) (stage : Stage) :
    i.mount target stage = i.mountWith (fillingsOf i.props) target stage := by
  cases i
  rfl

end Stencil
