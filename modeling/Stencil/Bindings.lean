/- Bindings: finite maps from names, kept as a list in the order of the names, so
   that equal maps are equal lists. -/
namespace Stencil

/-- Values under names, in increasing order of the names. -/
abbrev Bindings (α : Type) := List (String × α)

namespace Bindings

variable {α : Type}

/-- The value under a name. -/
def get? (bs : Bindings α) (name : String) : Option α :=
  bs.lookup name

/-- Whether there is a value under a name. -/
def contains (bs : Bindings α) (name : String) : Bool :=
  (bs.get? name).isSome

/-- The bindings with `value` under `name`, in place of any earlier value. -/
def insert (name : String) (value : α) : Bindings α → Bindings α
  | [] => [(name, value)]
  | (key, held) :: rest =>
    if name < key then (name, value) :: (key, held) :: rest
    else if name = key then (name, value) :: rest
    else (key, held) :: insert name value rest

/-- The bindings without `name`. -/
def erase (bs : Bindings α) (name : String) : Bindings α :=
  bs.filter fun b => b.1 ≠ name

/-- The names, in order. -/
def names (bs : Bindings α) : List String :=
  bs.map fun b => b.1

/-- The bindings with those of `next` written over them. -/
def overlay (bs next : Bindings α) : Bindings α :=
  next.foldl (fun acc b => insert b.1 b.2 acc) bs

/-- The bindings of a list of pairs, in which the last pair of a name wins. -/
def ofPairs (pairs : List (String × α)) : Bindings α :=
  overlay [] pairs

end Bindings

end Stencil
