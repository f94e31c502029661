/- How strictly a template is checked. -/
namespace Stencil

/-- What is refused beyond what is always wrong. -/
structure TemplateOptions where
  /-- Refuse a hole that is bound at more than one position. -/
  rejectDuplicateHoles : Bool := false
  /-- Refuse a declared slot that is bound nowhere, rather than warn of it. -/
  rejectUnusedSlots : Bool := false
  deriving DecidableEq, Repr

/-- Refuse all that can be refused. -/
def TemplateOptions.strict : TemplateOptions :=
  { rejectDuplicateHoles := true, rejectUnusedSlots := true }

end Stencil
