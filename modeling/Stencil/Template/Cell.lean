import Stencil.Template.Compile
/- Cells: templates that are compiled on first use. -/
namespace Stencil

/-- A template with its slots and options, and the outcome of compiling it, once
it has been asked for. -/
structure Cell (m : Type → Type) where
  slots : List String
  options : TemplateOptions
  template : Template m
  outcome : Option (Except TemplateError Block)

namespace Cell

variable {m : Type → Type}

/-- A cell of which nothing is compiled yet. -/
def ofTemplate (slots : List String) (options : TemplateOptions) (template : Template m) :
    Cell m :=
  ⟨slots, options, template, none⟩

/-- Whether the cell's template has been compiled, with success or without. -/
def isCompiled (c : Cell m) : Bool :=
  c.outcome.isSome

/-- The cell's block, or why there is none. The first call compiles the template
under the serial number; later calls give the same answer and report nothing. -/
def block [Monad m] (c : Cell m) (serial : Nat) : m (Cell m × Report Block) :=
  match c.outcome with
  | some outcome => pure (c, ⟨[], outcome⟩)
  | none =>
    (fun report => ({ c with outcome := some report.result }, report)) <$>
      c.template.compile serial c.slots c.options

end Cell

end Stencil
