import Stencil.Document.Basic
/- Why a mount or a patch fails. -/
namespace Stencil

/-- Why a mount or a patch is refused. -/
inductive BlockError where
  | pathUnresolved (edit : Nat) (path : Path)
  | childMissing (edit index : Nat)
  | blockMismatch
  | slotKindChanged (hole : String)
  | blockInAttribute (name hole : String)
  | nestedBlockShared (hole : String) (count : Nat)
  | missingProp (hole : String)
  | notMounted
  | alreadyMounted
  deriving DecidableEq, Repr

/-- A path between square brackets. -/
def Path.text (path : Path) : String :=
  "[" ++ String.intercalate ", " (path.map toString) ++ "]"

namespace BlockError

/-- The wording of a refusal. -/
def message : BlockError → String
  | pathUnresolved edit path =>
    "path " ++ Path.text path ++ " of edit " ++ toString edit ++
      " does not resolve in the mounted tree"
  | childMissing edit index =>
    "child " ++ toString index ++ " of edit " ++ toString edit ++
      " is missing from the mounted tree"
  | blockMismatch => "cannot patch with an instance of a different compiled block"
  | slotKindChanged hole => "slot `" ++ hole ++ "` switched between a scalar and a nested block"
  | blockInAttribute name hole =>
    "attribute `" ++ name ++ "` cannot hold the nested block in slot `" ++ hole ++ "`"
  | nestedBlockShared hole count =>
    "nested block in slot `" ++ hole ++ "` is bound to " ++ toString count ++
      " edits but mounts once"
  | missingProp hole => "props are missing slot `" ++ hole ++ "`"
  | notMounted => "instance is not mounted"
  | alreadyMounted => "instance is already mounted"

/-- Whether the refusal means that the document or the block is not what the
instance expects. -/
def isStructural : BlockError → Bool
  | pathUnresolved _ _ => true
  | childMissing _ _ => true
  | blockMismatch => true
  | _ => false

end BlockError

/-- Why a mount or a patch does not finish: it is refused, it names a node that the
document never issued, or it has no node for one of its edits. A caller who keeps
to one document meets only refusals. -/
inductive Failure where
  | refused (error : BlockError)
  | foreignNode
  | unresolvedEdit (edit : Nat)
  deriving DecidableEq, Repr

end Stencil
