import Stencil.Workbench.Table
/- Recipes: values and instances described by what is on the workbench. Making one
   takes what it uses off the workbench, so nothing is used twice. -/
namespace Stencil

mutual
/-- How to make the value of a slot. -/
inductive ValueRecipe where
  | scalar (value : Scalar)
  | nested (recipe : InstanceRecipe)
  | chain (block slot : String) (count : Nat) (innermost : ValueRecipe)

/-- How to make an instance. -/
inductive InstanceRecipe where
  | fresh (block : String) (props : List (String × ValueRecipe))
  | fromTable (block table : String)
  | taken (name : String)
  | chain (block slot : String) (count : Nat) (innermost : ValueRecipe)
end

namespace Workbench

/-- The instance that a value is, or a fault. -/
def asInstance : Value → Bench Instance
  | .block inst => pure inst
  | .scalar _ => throw (.unknown "instance" "")

mutual
/-- Make the value of a slot. -/
def makeValue : ValueRecipe → Bench Value
  | .scalar value => pure (.scalar value)
  | .nested recipe => do return .block (← makeInstance recipe)
  | .chain block slot count innermost => do
    let block ← named "block" (← get).blocks block
    return Instance.chain block slot count (← makeValue innermost)

/-- Make an instance. -/
def makeInstance : InstanceRecipe → Bench Instance
  | .fresh block props => do
    let block ← named "block" (← get).blocks block
    return .new block (← makeProps props)
  | .fromTable block table => do
    let block ← named "block" (← get).blocks block
    return .new block (← takeTable table)
  | .taken name => take name
  | .chain block slot count innermost => do
    let block ← named "block" (← get).blocks block
    asInstance (Instance.chain block slot count (← makeValue innermost))

/-- Make values of slots, in which the last of a slot wins. -/
def makeProps (props : List (String × ValueRecipe)) : Bench (Bindings Value) := do
  return Bindings.ofPairs (← makePairs props)

/-- Make values of slots in turn. -/
def makePairs : List (String × ValueRecipe) → Bench (List (String × Value))
  | [] => pure []
  | (slot, recipe) :: rest => do
    let value ← makeValue recipe
    return (slot, value) :: (← makePairs rest)
end

/-- Make an instance of a cell's block and keep it under a name, if there is a block. -/
def makeOfCell (cell name : String) (props : List (String × ValueRecipe)) :
    Bench (Compilation Instance) := do
  let props ← makeProps props
  let compilation ← cellBlock cell
  let result := compilation.result.map fun block => Instance.new block props
  if let .ok inst := result then keep name inst
  return ⟨compilation.runs, compilation.events, result⟩

end Workbench

end Stencil
