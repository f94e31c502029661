import Stencil.Block
import Stencil.Event
import Stencil.Template.Options
import Stencil.Template.Split
/- Compiling a template. A template is a function from the holes of its declared
   slots to a fragment; it runs in any monad, so that a run can be counted. It runs
   once, unless a slot is declared twice, and of several faults the first in this
   order is reported: a slot declared twice, a hole at the root, a hole bound twice
   (where that is refused), a hole that is no slot, a slot without a hole (where
   that is refused). -/
namespace Stencil

/-- A function from the holes of the declared slots to a fragment. -/
abbrev Template (m : Type → Type) := List String → m Fragment

/-- A computation that counts the runs of templates. -/
abbrev Counted := StateM Nat

/-- The template that counts a run and gives what the function gives. -/
def Template.counted (f : List String → Fragment) : Template Counted := fun holes => do
  modify (· + 1)
  return f holes

/-- What a compilation reports as it goes, and what comes of it. -/
structure Report (α : Type) where
  events : List Event
  result : Except TemplateError α

/-- The first slot that equals one before it, where `seen` are the slots before. -/
def duplicateSlot? (seen : List String) : List String → Option String
  | [] => none
  | slot :: rest =>
    if seen.contains slot then some slot else duplicateSlot? (slot :: seen) rest

/-- Run a template with one hole for each declared slot, in the order of their
declaration. -/
def Template.capture {m : Type → Type} [Monad m] (template : Template m) (slots : List String) :
    m (Except TemplateError Fragment) :=
  match duplicateSlot? [] slots with
  | some slot => pure (.error (.duplicateSlot slot))
  | none => Except.ok <$> template slots

namespace Edit

/-- The first hole that fills more than one of the edits, and how many it fills. -/
def duplicateHole? (edits : List Edit) : Option (String × Nat) :=
  (edits.find? fun e => 1 < usesOf edits e.hole).map fun e => (e.hole, usesOf edits e.hole)

/-- The first hole that is none of the slots. -/
def undeclaredHole? (slots : List String) (edits : List Edit) : Option String :=
  (edits.find? fun e => !slots.contains e.hole).map Edit.hole

/-- The slots that fill none of the edits. -/
def unusedSlots (slots : List String) (edits : List Edit) : List String :=
  slots.filter fun slot => usesOf edits slot == 0

end Edit

/-- Split a fragment and refuse, if so asked, a hole bound twice. -/
def Fragment.compile (f : Fragment) (options : TemplateOptions) : Report Parts :=
  match f.split with
  | .error e => ⟨[], .error e⟩
  | .ok parts =>
    match if options.rejectDuplicateHoles then Edit.duplicateHole? parts.edits else none with
    | some (name, count) => ⟨[], .error (.duplicateHole name count)⟩
    | none =>
      ⟨[.fragmentCompiled parts.skeleton.nodeCount parts.edits.length], .ok parts⟩

/-- Make a block of the parts of a fragment, if its holes fit the slots. -/
def Parts.toBlock (parts : Parts) (serial : Nat) (slots : List String)
    (options : TemplateOptions) : Report Block :=
  match Edit.undeclaredHole? slots parts.edits with
  | some hole => ⟨[], .error (.undeclaredHole hole)⟩
  | none =>
    match Edit.unusedSlots slots parts.edits, options.rejectUnusedSlots with
    | slot :: _, true => ⟨[], .error (.unusedSlot slot)⟩
    | unused, _ =>
      ⟨unused.map .slotUnused ++ [.blockCompiled slots.length parts.edits.length],
        .ok ⟨serial, slots, parts.skeleton, parts.edits⟩⟩

/-- Carry on from a report, unless it reports a refusal. -/
def Report.andThen {α β : Type} (r : Report α) (next : α → Report β) : Report β :=
  match r.result with
  | .error e => ⟨r.events, .error e⟩
  | .ok a => ⟨r.events ++ (next a).events, (next a).result⟩

/-- Compile the fragment of a template into a block. -/
def Fragment.toBlock (f : Fragment) (serial : Nat) (slots : List String)
    (options : TemplateOptions) : Report Block :=
  (f.compile options).andThen fun parts => parts.toBlock serial slots options

/-- Compile a template into a block of the given serial number. -/
def Template.compile {m : Type → Type} [Monad m] (template : Template m) (serial : Nat)
    (slots : List String) (options : TemplateOptions) : m (Report Block) :=
  (fun captured => match captured with
    | .error e => ⟨[], .error e⟩
    | .ok f => f.toBlock serial slots options) <$> template.capture slots

end Stencil
