import Stencil.Scalar
/- Fragments: the trees that templates return. A fragment looks like the document
   tree that it describes, except that an attribute or a child may be a hole, to be
   filled anew for each instance. -/
namespace Stencil

/-- The value of a property of an element: fixed, or a hole. -/
inductive PropValue where
  | fixed (value : Scalar)
  | hole (name : String)
  deriving DecidableEq, Repr

/-- The properties of an element, in the order in which they are set. -/
abbrev PropList := List (String × PropValue)

/-- A tree with holes. -/
inductive Fragment where
  | text (value : Scalar)
  | element (tag : String) (props : PropList) (children : List Fragment)
  | hole (name : String)
  deriving Repr

/-- Whether two property values compare equal. -/
def PropValue.equal : PropValue → PropValue → Bool
  | fixed a, fixed b => a.equal b
  | hole a, hole b => a == b
  | _, _ => false

/-- The hole that a property value is. -/
def PropValue.hole? : PropValue → Option String
  | fixed _ => none
  | hole name => some name

namespace PropList

/-- The properties with `value` under `name`: in the place of the first of that
name, or at the end. -/
def set (name : String) (value : PropValue) : PropList → PropList
  | [] => [(name, value)]
  | (key, held) :: rest =>
    if key = name then (key, value) :: rest else (key, held) :: set name value rest

/-- The properties that result from setting the pairs in turn. -/
def ofPairs (pairs : List (String × PropValue)) : PropList :=
  pairs.foldl (fun props p => set p.1 p.2 props) []

/-- Whether two property lists compare equal, entry by entry. -/
def equal : PropList → PropList → Bool
  | [], [] => true
  | (a, v) :: rest, (b, w) :: rest' => a == b && v.equal w && equal rest rest'
  | _, _ => false

end PropList

namespace Fragment

/-- An element with its properties set from pairs, in which a repeated name
replaces the earlier value. -/
def build (tag : String) (pairs : List (String × PropValue)) (children : List Fragment) :
    Fragment :=
  element tag (PropList.ofPairs pairs) children

/-- The element with one more property set; other fragments have none. -/
def withProp : Fragment → String → PropValue → Fragment
  | element tag props children, name, value => element tag (PropList.set name value props) children
  | f, _, _ => f

/-- The element with one more child at the end; other fragments have none. -/
def withChild : Fragment → Fragment → Fragment
  | element tag props children, child => element tag props (children ++ [child])
  | f, _ => f

/-- `count` elements around a fragment, each holding the leaves `before` and then
the next one in. -/
def wrap (tag : String) (before : List Fragment) : Nat → Fragment → Fragment
  | 0, f => f
  | count + 1, f => wrap tag before count (element tag [] (before ++ [f]))

mutual
/-- Whether a fragment has a hole, among its properties or its descendants. -/
def hasHoles : Fragment → Bool
  | text _ => false
  | hole _ => true
  | element _ props children => props.any (fun p => p.2.hole?.isSome) || anyHasHoles children

/-- Whether one of the fragments has a hole. -/
def anyHasHoles : List Fragment → Bool
  | [] => false
  | f :: rest => f.hasHoles || anyHasHoles rest
end

mutual
/-- The holes of a fragment in reading order: those of an element's properties
first, then those of its children. -/
def holes : Fragment → List String
  | text _ => []
  | hole name => [name]
  | element _ props children => props.filterMap (fun p => p.2.hole?) ++ allHoles children

/-- The holes of the fragments in turn. -/
def allHoles : List Fragment → List String
  | [] => []
  | f :: rest => f.holes ++ allHoles rest
end

mutual
/-- Whether two fragments compare equal: of one shape and with equal scalars. -/
def equal : Fragment → Fragment → Bool
  | text a, text b => a.equal b
  | hole a, hole b => a == b
  | element tag props children, element tag' props' children' =>
    tag == tag' && props.equal props' && allEqual children children'
  | _, _ => false

/-- Whether two lists of fragments compare equal, one by one. -/
def allEqual : List Fragment → List Fragment → Bool
  | [], [] => true
  | f :: rest, g :: rest' => f.equal g && allEqual rest rest'
  | _, _ => false
end

end Fragment

end Stencil
