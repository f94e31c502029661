import Stencil.Instance.Error
import Stencil.Proofs.Rendering
/- Why a mount is refused, said of fragments and values, without a document. An edit is
   refused for the value of its slot, or because a nested instance has put its node out
   of the tree: a fixed child that has edits and comes after a nested instance cannot be
   found. The first edit that is refused decides. -/
namespace Stencil

section

variable (uses : String → Nat) (slots : String → Option Showing)
  (faults : String → Option BlockError)

/-- Why an edit is refused whose node is found, when its slot is used so often, has this
value, and the nested instance in it is refused so. -/
def Edit.fault : Edit → Option BlockError
  | .attr _ name hole =>
    match slots hole with
    | none => some (.missingProp hole)
    | some (.scalar _) => none
    | some (.block _) => some (.blockInAttribute name hole)
  | .child _ _ hole =>
    match slots hole with
    | none => some (.missingProp hole)
    | some (.scalar _) => none
    | some (.block _) =>
      if 1 < uses hole then some (.nestedBlockShared hole (uses hole)) else faults hole

/-- Why edits are refused whose nodes are not in the tree: the first is. -/
def Edit.lost (number : Nat) : List Edit → Option BlockError
  | [] => none
  | e :: _ => some (.pathUnresolved number e.path)

mutual
/-- Why the edits of a fragment are refused, when they are numbered from `number` on. -/
def Fragment.fault (c : Cursor) (number : Nat) : Fragment → Option BlockError
  | .text _ => none
  | .hole _ => none
  | .element _ props children =>
    ((props.edits c).findSome? (Edit.fault uses slots faults)).or
      (Fragment.childFault c (number + (props.edits c).length) 0 false children)

/-- Why the edits of an element's children are refused, from the child of this index on.
The children are covered once a nested instance has put them out of the tree. -/
def Fragment.childFault (c : Cursor) (number index : Nat) (covered : Bool) :
    List Fragment → Option BlockError
  | [] => none
  | f :: rest =>
    match f.hole? with
    | some name =>
      (Edit.fault uses slots faults (.child c.toPath index name)).or
        (Fragment.childFault c (number + 1) (index + 1) (covered || f.isBlock slots) rest)
    | none =>
      (if covered then Edit.lost number (f.edits (c.down index))
        else f.fault (c.down index) number).or
        (Fragment.childFault c (number + (f.edits (c.down index)).length) (index + 1) covered rest)
end

end

mutual
/-- Why a mount of an instance is refused, if its blocks come of these fragments. -/
def Instance.mountFault (source : Block → Fragment) : Instance → Option BlockError
  | ⟨block, props, _, root⟩ =>
    if root.isSome then some .alreadyMounted
    else
      (source block).fault block.usesOf (Bindings.get? (showingsOf source props))
        (fun slot => (Bindings.get? (mountFaultsOf source props) slot).join) .root 0

/-- Why a mount of the value is refused: a scalar is not. -/
def Value.mountFault (source : Block → Fragment) : Value → Option BlockError
  | .scalar _ => none
  | .block nested => nested.mountFault source

/-- Why mounts of the values of slots are refused. -/
def mountFaultsOf (source : Block → Fragment) :
    List (String × Value) → List (String × Option BlockError)
  | [] => []
  | (slot, value) :: rest => (slot, value.mountFault source) :: mountFaultsOf source rest
end

theorem get?_mountFaultsOf (source : Block → Fragment) (props : Bindings Value) (slot : String) :
    Bindings.get? (mountFaultsOf source props) slot =
      (props.get? slot).map (Value.mountFault source) := by
  induction props with
  | nil => rfl
  | cons entry rest ih =>
    obtain ⟨key, value⟩ := entry
    rw [mountFaultsOf, Bindings.get?_cons, Bindings.get?_cons, ih]
    split <;> rfl

/-- Why a mount of the nested instance in a slot is refused. -/
def Instance.nestedFault (source : Block → Fragment) (i : Instance) (slot : String) :
    Option BlockError :=
  (i.prop? slot).bind (Value.mountFault source)

theorem Instance.mountFault_eq (source : Block → Fragment) (i : Instance) :
    i.mountFault source = if i.isMounted then some .alreadyMounted
      else (source i.block).fault i.block.usesOf (i.showing? source) (i.nestedFault source) .root 0 := by
  obtain ⟨block, props, resolved, root⟩ := i
  have hslots : Bindings.get? (showingsOf source props) =
      (Instance.mk block props resolved root).showing? source := by
    funext slot
    exact get?_showingsOf source props slot
  have hfaults : (fun slot => (Bindings.get? (mountFaultsOf source props) slot).join) =
      (Instance.mk block props resolved root).nestedFault source := by
    funext slot
    rw [get?_mountFaultsOf]
    simp only [nestedFault, prop?]
    cases Bindings.get? props slot <;> rfl
  rw [mountFault, hslots, hfaults]
  rfl

end Stencil
