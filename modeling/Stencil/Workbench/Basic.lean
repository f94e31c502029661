import Stencil.Instance.Mount
import Stencil.Instance.Patch
import Stencil.Template.Cell
/- The workbench: documents by number, and blocks, cells, instances and values of
   slots under names, for work in several steps. It also counts how often each
   callback has been called. -/
namespace Stencil

/-- All that is kept from step to step. Compilations are numbered by `serial`. -/
structure Workbench where
  documents : Array Document := #[Document.blank]
  blocks : Bindings Block := []
  cells : Bindings (Cell Counted) := []
  instances : Bindings Instance := []
  tables : Bindings (Bindings Value) := []
  calls : List (Nat × Nat) := []
  serial : Nat := 0

/-- Why a step cannot be done at all: something it names is not on the workbench, it
names a node that the document never issued, or it meets an instance without a node
for one of its edits. -/
inductive Fault where
  | unknown (what name : String)
  | foreignNode
  | unresolvedEdit (edit : Nat)
  deriving DecidableEq, Repr

/-- Work that changes the workbench and reports events. -/
abbrev Bench := StateT Workbench (Except Fault)

/-- A count of the template runs and the events of a compilation, beside its result. -/
structure Compilation (α : Type) where
  runs : Nat
  events : List Event
  result : Except TemplateError α

namespace CallCount

/-- Counts that include the callback, which starts from zero, in the order of the
callbacks' numbers. -/
def mention (number : Nat) : List (Nat × Nat) → List (Nat × Nat)
  | [] => [(number, 0)]
  | (key, times) :: rest =>
    if number < key then (number, 0) :: (key, times) :: rest
    else if number = key then (key, times) :: rest
    else (key, times) :: mention number rest

/-- Counts with one more call of a callback. -/
def increment (number : Nat) (counts : List (Nat × Nat)) : List (Nat × Nat) :=
  (mention number counts).map fun c => if c.1 = number then (c.1, c.2 + 1) else c

end CallCount

namespace Workbench

/-- What a name stands for, or a fault. -/
def named {α : Type} (what : String) (table : Bindings α) (name : String) : Bench α :=
  match table.get? name with
  | some entry => pure entry
  | none => throw (.unknown what name)

/-- Note callbacks that a step mentions. -/
def mention (numbers : List Nat) : Bench Unit :=
  modify fun w => { w with calls := numbers.foldl (fun acc n => CallCount.mention n acc) w.calls }

/-- The document of this number. -/
def document (number : Nat) : Bench Document := do
  match (← get).documents[number]? with
  | some d => pure d
  | none => throw (.unknown "document" (toString number))

/-- Put a document in the place of this number. -/
def putDocument (number : Nat) (d : Document) : Bench Unit :=
  modify fun w => { w with documents := w.documents.setIfInBounds number d }

/-- Add a document, under the next number. -/
def addDocument (d : Document) : Bench Nat := do
  let number := (← get).documents.size
  modify fun w => { w with documents := w.documents.push d }
  return number

/-- A document that issued this node. -/
def documentOf (number : Nat) (node : NodeId) : Bench Document := do
  let d ← document number
  if d.issued node then pure d else throw .foreignNode

/-- Make changes to a document, and give the events that it reports. -/
def perform (number : Nat) (changes : List Change) : Bench (List Event) := do
  match changes.foldlM Stage.perform? (Stage.of (← document number)) with
  | some stage =>
    putDocument number stage.document
    return stage.events.toList
  | none => throw .foreignNode

/-- The node that a path leads to. A path without steps leads to where it starts. -/
def resolve (number : Nat) (node : NodeId) (path : Path) : Bench (Option NodeId) := do
  let d ← if path.isEmpty then document number else documentOf number node
  return d.resolve? node path

/-- Call the callback that an attribute holds, if it holds one. -/
def call (number : Nat) (node : NodeId) (name : String) : Bench Bool := do
  let d ← documentOf number node
  match (d.attribute? node name).bind Scalar.callback? with
  | some callback =>
    modify fun w => { w with calls := CallCount.increment callback w.calls }
    return true
  | none => return false

/-- A serial number that no compilation had before. -/
def nextSerial : Bench Nat :=
  modifyGet fun w => (w.serial, { w with serial := w.serial + 1 })

/-- Compile a template and keep the block under a name. -/
def compile (name : String) (slots : List String) (options : TemplateOptions)
    (template : Template Counted) : Bench (Compilation Block) := do
  let serial ← nextSerial
  let (report, runs) := (template.compile serial slots options).run 0
  if let .ok block := report.result then
    modify fun w => { w with blocks := w.blocks.insert name block }
  return ⟨runs, report.events, report.result⟩

/-- Keep a cell under a name. -/
def addCell (name : String) (cell : Cell Counted) : Bench Unit :=
  modify fun w => { w with cells := w.cells.insert name cell }

/-- The block of a cell, compiled by now. -/
def cellBlock (name : String) : Bench (Compilation Block) := do
  let cell ← named "cell" (← get).cells name
  let serial ← nextSerial
  let ((cell, report), runs) := (cell.block serial).run 0
  addCell name cell
  return ⟨runs, report.events, report.result⟩

/-- Keep the block of a cell under a name. -/
def keepCellBlock (cell name : String) : Bench (Compilation Block) := do
  let compilation ← cellBlock cell
  if let .ok block := compilation.result then
    modify fun w => { w with blocks := w.blocks.insert name block }
  return compilation

/-- Keep an instance under a name. -/
def keep (name : String) (inst : Instance) : Bench Unit :=
  modify fun w => { w with instances := w.instances.insert name inst }

/-- The instance under a name. -/
def lookUp (name : String) : Bench Instance := do
  named "instance" (← get).instances name

/-- Take an instance off the workbench. -/
def take (name : String) : Bench Instance := do
  let inst ← lookUp name
  modify fun w => { w with instances := w.instances.erase name }
  return inst

/-- The result of a mount or a patch: a failure that is no refusal is a fault. -/
def settle {α : Type} : Except Failure α → Bench (Except BlockError α)
  | .ok a => pure (.ok a)
  | .error (.refused e) => pure (.error e)
  | .error .foreignNode => throw .foreignNode
  | .error (.unresolvedEdit edit) => throw (.unresolvedEdit edit)

/-- Mount an instance into a document. -/
def mount (name : String) (number : Nat) (target : NodeId) :
    Bench (Stage × Except BlockError NodeId) := do
  let inst ← lookUp name
  let mounting := inst.mount target (Stage.of (← document number))
  putDocument number mounting.stage.document
  keep name mounting.mounted
  return (mounting.stage, ← settle mounting.outcome)

/-- Patch an instance by a fresh one. -/
def patch (name : String) (number : Nat) (fresh : Instance) :
    Bench (Stage × Except BlockError PatchStats) := do
  let live ← lookUp name
  let patching := live.patch fresh (Stage.of (← document number))
  putDocument number patching.stage.document
  keep name patching.live
  return (patching.stage, ← settle patching.outcome)

end Workbench

end Stencil
