import Stencil.Edit
import Stencil.Fragment
import Stencil.Skeleton
import Stencil.Template.Error
/- Splitting a fragment into the skeleton that its instances share and the edits
   that each of them makes. The skeleton leaves out the holes among the children;
   an edit counts them. So the index of a child edit is right in the tree at the
   time of its turn: the holes before it have been filled by then, and those after
   it do not matter. The edits of an element come in the order of its properties,
   then those of its children, each child's before the next child's. -/
namespace Stencil

/-- A fragment taken apart. -/
structure Parts where
  skeleton : Skeleton
  edits : List Edit
  deriving Repr

namespace PropList

/-- The properties that are fixed, with their values. -/
def fixed : PropList → List (String × Scalar)
  | [] => []
  | (name, .fixed value) :: rest => (name, value) :: fixed rest
  | (_, .hole _) :: rest => fixed rest

/-- One edit for each property that is a hole, at the element of the cursor. -/
def edits (cursor : Cursor) : PropList → List Edit
  | [] => []
  | (_, .fixed _) :: rest => edits cursor rest
  | (name, .hole hole) :: rest => .attr cursor.toPath name hole :: edits cursor rest

end PropList

namespace Fragment

/-- The hole that a fragment is. -/
def hole? : Fragment → Option String
  | hole name => some name
  | _ => none

mutual
/-- The skeleton of a fragment, or the name of the hole that it is. -/
def skeleton : Fragment → Except String Skeleton
  | text value => .ok (.text value.text)
  | hole name => .error name
  | element tag props children => .ok (.element tag props.fixed (skeletons children))

/-- The skeletons of those fragments that are not holes. -/
def skeletons : List Fragment → List Skeleton
  | [] => []
  | f :: rest =>
    match f.skeleton with
    | .ok s => s :: skeletons rest
    | .error _ => skeletons rest
end

mutual
/-- The edits of a fragment that stands at the cursor. A hole has none of its own:
it is an edit of the element that it is a child of. -/
def edits (cursor : Cursor) : Fragment → List Edit
  | text _ => []
  | hole _ => []
  | element _ props children => props.edits cursor ++ childEdits cursor 0 children

/-- The edits of an element's children, from the child of this index on. -/
def childEdits (cursor : Cursor) (index : Nat) : List Fragment → List Edit
  | [] => []
  | f :: rest =>
    match f.hole? with
    | some name => .child cursor.toPath index name :: childEdits cursor (index + 1) rest
    | none => f.edits (cursor.down index) ++ childEdits cursor (index + 1) rest
end

/-- Take a fragment apart. A hole at the root has no element to be filled in. -/
def split (f : Fragment) : Except TemplateError Parts :=
  match f.skeleton with
  | .ok skeleton => .ok ⟨skeleton, f.edits .root⟩
  | .error name => .error (.rootHole name)

end Fragment

end Stencil
