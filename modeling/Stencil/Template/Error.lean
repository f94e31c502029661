/- What can be wrong with a template or with the slots declared for it. -/
namespace Stencil

/-- Why a template is refused. -/
inductive TemplateError where
  | duplicateSlot (slot : String)
  | undeclaredHole (hole : String)
  | unusedSlot (slot : String)
  | duplicateHole (hole : String) (count : Nat)
  | rootHole (hole : String)
  deriving DecidableEq, Repr

/-- The wording of a refusal. -/
def TemplateError.message : TemplateError → String
  | duplicateSlot slot => "slot `" ++ slot ++ "` is declared more than once"
  | undeclaredHole hole => "hole `" ++ hole ++ "` does not name a declared slot"
  | unusedSlot slot => "declared slot `" ++ slot ++ "` is never used by the template"
  | duplicateHole hole count =>
    "hole `" ++ hole ++ "` is bound at " ++ toString count ++ " positions"
  | rootHole hole => "hole `" ++ hole ++ "` cannot be the root of a template"

end Stencil
