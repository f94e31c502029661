import Stencil.Document.Change
import Stencil.Event
/- The stage: a document while it is worked on, with the changes made to it and the
   events reported, both in order. -/
namespace Stencil

/-- A document at work. -/
structure Stage where
  document : Document
  changes : Array Change
  events : Array Event

namespace Stage

/-- A document before any work on it. -/
def of (d : Document) : Stage :=
  ⟨d, #[], #[]⟩

/-- Report an event. -/
def note (s : Stage) (e : Event) : Stage :=
  { s with events := s.events.push e }

/-- What a document reports of a change: an attribute set on a text node is lost. -/
def warning? (d : Document) : Change → Option Event
  | .setAttribute node name _ => if d.isText node then some (.attributeIgnored node name) else none
  | _ => none

/-- Make a change. -/
def perform (s : Stage) (change : Change) : Stage :=
  let ⟨document, changes, events⟩ := s
  let events := match warning? document change with
    | none => events
    | some warning => events.push warning
  ⟨document.apply change, changes.push change, events⟩

/-- Make several changes in turn. -/
def performAll (s : Stage) (changes : List Change) : Stage :=
  changes.foldl perform s

/-- Make a change, if the document can. -/
def perform? (s : Stage) (change : Change) : Option Stage :=
  if s.document.admits change then some (s.perform change) else none

end Stage

end Stencil
