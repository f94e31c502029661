import Stencil.Scalar
/- Events: what compiling, mounting and patching report as they go. -/
namespace Stencil

/-- How much an event matters. -/
inductive Level where
  | trace
  | debug
  | warn
  deriving DecidableEq, Repr

/-- Something that happened. -/
inductive Event where
  | fragmentCompiled (nodes edits : Nat)
  | slotUnused (slot : String)
  | blockCompiled (slots edits : Nat)
  | slotFilled (edit : Nat) (hole : String) (node : Nat)
  | blockMounted (root edits : Nat)
  | attributePatched (node : Nat) (name : String)
  | textPatched (leaf : Nat)
  | blockPatched (changed skipped : Nat)
  | attributeIgnored (node : Nat) (name : String)
  deriving DecidableEq, Repr

namespace Event

/-- The level of an event. -/
def level : Event → Level
  | fragmentCompiled .. => .debug
  | slotUnused _ => .warn
  | blockCompiled .. => .debug
  | slotFilled .. => .trace
  | blockMounted .. => .debug
  | attributePatched .. => .trace
  | textPatched _ => .trace
  | blockPatched .. => .debug
  | attributeIgnored .. => .warn

/-- The sentence that reports an event. -/
def message : Event → String
  | fragmentCompiled .. => "compiled fragment"
  | slotUnused _ => "declared slot is never used by the template"
  | blockCompiled .. => "compiled block"
  | slotFilled .. => "filled slot"
  | blockMounted .. => "mounted block"
  | attributePatched .. => "patched attribute"
  | textPatched _ => "patched text"
  | blockPatched .. => "patched block"
  | attributeIgnored .. => "attribute set on a text node ignored"

/-- The text of a node id. -/
def nodeText (node : Nat) : String :=
  "n" ++ toString node

/-- The named details of an event, in order. -/
def fields : Event → List (String × String)
  | fragmentCompiled nodes edits => [("nodes", toString nodes), ("edits", toString edits)]
  | slotUnused slot => [("slot", slot)]
  | blockCompiled slots edits => [("slots", toString slots), ("edits", toString edits)]
  | slotFilled edit hole node =>
    [("edit", toString edit), ("hole", hole), ("node", nodeText node)]
  | blockMounted root edits => [("root", nodeText root), ("edits", toString edits)]
  | attributePatched node name => [("node", nodeText node), ("attribute", name)]
  | textPatched leaf => [("leaf", nodeText leaf)]
  | blockPatched changed skipped =>
    [("changed", toString changed), ("skipped", toString skipped)]
  | attributeIgnored node name => [("node", nodeText node), ("name", name)]

end Event

end Stencil
