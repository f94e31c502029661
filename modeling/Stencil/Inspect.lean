import Stencil.Event
import Stencil.Instance.Basic
import Stencil.Instance.Error
import Stencil.Template.Cell
import Stencil.Text.Quoted
/- The inspection texts of values: every field by its name, strings quoted. -/
namespace Stencil.Inspect

open Text (quoted)

/-- A name with its type. -/
def name (s : String) : String :=
  "Name(" ++ quoted s ++ ")"

/-- Texts between square brackets. -/
def listed (texts : List String) : String :=
  "[" ++ String.intercalate ", " texts ++ "]"

/-- Texts between braces, set off by blanks. -/
def braced (text : String) : String :=
  "\x7b " ++ text ++ " \x7d"

/-- An edit. -/
def edit : Edit → String
  | .attr path key hole =>
    "Attribute " ++ braced
      ("path: " ++ Path.text path ++ ", attribute: " ++ name key ++ ", hole: " ++ name hole)
  | .child path index hole =>
    "Child " ++ braced
      ("path: " ++ Path.text path ++ ", index: " ++ toString index ++ ", hole: " ++ name hole)

/-- A block, without its texts and tags. -/
def block (b : Block) : String :=
  "CompiledBlock " ++ braced
    ("slots: " ++ listed (b.slots.map name) ++ ", nodes: " ++ toString b.skeleton.nodeCount ++
      ", edits: " ++ listed (b.edits.map edit) ++ ", ..")

/-- A cell: its slots, and whether it has been compiled. -/
def cell {m : Type → Type} (c : Cell m) : String :=
  "BlockCell " ++ braced
    ("slots: " ++ listed (c.slots.map quoted) ++ ", compiled: " ++
      Scalar.boolText c.isCompiled ++ ", ..")

/-- A scalar. A callback shows its number. -/
def scalar : Scalar → String
  | .null => "Null"
  | .bool b => "Bool(" ++ Scalar.boolText b ++ ")"
  | .int n => "Int(" ++ Scalar.intText n ++ ")"
  | .float x => "Float(" ++ x.write Binary64.inspectLayout ++ ")"
  | .str s => "Str(" ++ quoted s ++ ")"
  | .callback n => "Callback(" ++ toString n ++ ")"

/-- An optional node. -/
def node? : Option NodeId → String
  | none => "None"
  | some id => "Some(" ++ Event.nodeText id ++ ")"

mutual
/-- An instance. -/
def inst : Instance → String
  | ⟨b, props, resolved, root⟩ =>
    "BlockInstance " ++ braced
      ("slots: " ++ listed (b.slots.map name) ++
        ", props: Props " ++ braced ("values: \x7b" ++ String.intercalate ", " (entries props) ++
          "\x7d") ++
        ", resolved: " ++ listed (resolved.map Event.nodeText) ++ ", root: " ++ node? root)

/-- The value of a slot. -/
def value : Value → String
  | .scalar s => "Scalar(" ++ scalar s ++ ")"
  | .block nested => "Block(" ++ inst nested ++ ")"

/-- The values of slots, each after its slot's name. -/
def entries : List (String × Value) → List String
  | [] => []
  | (slot, v) :: rest => (name slot ++ ": " ++ value v) :: entries rest
end

end Stencil.Inspect
