import Stencil.Workbench.Basic
/- Values of slots that stand on the workbench, apart from any instance. -/
namespace Stencil.Workbench

/-- The values of slots under a name. -/
def table (name : String) : Bench (Bindings Value) := do
  named "props" (← get).tables name

/-- Keep values of slots under a name. -/
def keepTable (name : String) (values : Bindings Value) : Bench Unit :=
  modify fun w => { w with tables := w.tables.insert name values }

/-- Take values of slots off the workbench. -/
def takeTable (name : String) : Bench (Bindings Value) := do
  let values ← table name
  modify fun w => { w with tables := w.tables.erase name }
  return values

/-- Give a slot a value, and tell which value it had. -/
def insertSlot (name slot : String) (value : Value) : Bench (Option Value) := do
  let values ← table name
  keepTable name (values.insert slot value)
  return values.get? slot

/-- Give a slot that has a value another one, and tell whether it had one. -/
def replaceSlot (name slot : String) (value : Value) : Bench Bool := do
  let values ← table name
  if values.contains slot then keepTable name (values.insert slot value)
  return values.contains slot

/-- Write values over those under a name. -/
def overlayTable (name : String) (more : Bindings Value) : Bench Unit := do
  keepTable name ((← table name).overlay more)

/-- Take the value of a slot away, and tell which it was. -/
def eraseSlot (name slot : String) : Bench (Option Value) := do
  let values ← table name
  keepTable name (values.erase slot)
  return values.get? slot

end Stencil.Workbench
