import Mathlib.Data.List.Basic
import Stencil.Document.Change
import Stencil.Proofs.Bindings
/- What each write does to a document, seen through the views: the kind of a node,
   its children and its parent. After these lemmas no proof opens the array of
   nodes. A text node that gets an attribute and an element that gets a content stay
   as they are, and so does everything when the id was never issued. -/
namespace Stencil

/-- An element with an attribute written; a text has none. -/
def NodeKind.writeAttribute (name : String) (value : Scalar) : NodeKind → NodeKind
  | .element tag attributes => .element tag (Bindings.write name value attributes)
  | .text content => .text content

/-- A text with other content; an element has none. -/
def NodeKind.writeText (content : String) : NodeKind → NodeKind
  | .element tag attributes => .element tag attributes
  | .text _ => .text content

namespace Document

theorem issued_iff {d : Document} {id : Nat} : d.issued id = true ↔ id < d.size := by
  simp [issued, size]

@[simp] theorem nextId_eq (d : Document) : d.nextId = d.size := rfl

theorem kind?_eq_none {d : Document} {id : Nat} : d.kind? id = none ↔ d.size ≤ id := by
  simp [kind?, node?, size]

theorem lt_size_of_kind? {d : Document} {id : Nat} {kind : NodeKind}
    (h : d.kind? id = some kind) : id < d.size := by
  by_contra hge
  rw [kind?_eq_none.mpr (Nat.le_of_not_lt hge)] at h
  simp at h

theorem node?_of_size_le {d : Document} {id : Nat} (h : d.size ≤ id) : d.node? id = none := by
  simpa [node?, size] using h

theorem children_of_size_le {d : Document} {id : Nat} (h : d.size ≤ id) :
    d.children id = [] := by
  simp [children, node?_of_size_le h]

theorem parent?_of_size_le {d : Document} {id : Nat} (h : d.size ≤ id) :
    d.parent? id = none := by
  simp [parent?, node?_of_size_le h]

/-! Changing one node. -/

theorem node?_update (d : Document) (id : Nat) (change : Node → Node) (x : Nat) :
    (d.update id change).node? x = if x = id then (d.node? x).map change else d.node? x := by
  simp only [update, node?, Array.getElem?_modify, eq_comm (a := id)]

@[simp] theorem size_update (d : Document) (id : Nat) (change : Node → Node) :
    (d.update id change).size = d.size := by
  simp [update, size]

/-! Views of the nodes that a change of a node does not touch. -/

theorem kind?_update {change : Node → Node} (h : ∀ node, (change node).kind = node.kind)
    (d : Document) (id x : Nat) : (d.update id change).kind? x = d.kind? x := by
  simp only [kind?, node?_update]
  split
  · cases d.node? x <;> simp [h]
  · rfl

theorem children_update {change : Node → Node} (h : ∀ node, (change node).children = node.children)
    (d : Document) (id x : Nat) : (d.update id change).children x = d.children x := by
  simp only [children, node?_update]
  by_cases hx : x = id
  · cases d.node? x <;> simp [hx, h]
  · simp [hx]

theorem parent?_update {change : Node → Node} (h : ∀ node, (change node).parent = node.parent)
    (d : Document) (id x : Nat) : (d.update id change).parent? x = d.parent? x := by
  simp only [parent?, node?_update]
  split
  · cases d.node? x <;> simp [h]
  · rfl

@[simp] theorem kind?_setParent (d : Document) (id : Nat) (p : Option Nat) (x : Nat) :
    (d.setParent id p).kind? x = d.kind? x := by
  unfold setParent
  apply kind?_update
  intro node
  rfl

@[simp] theorem children_setParent (d : Document) (id : Nat) (p : Option Nat) (x : Nat) :
    (d.setParent id p).children x = d.children x := by
  unfold setParent
  apply children_update
  intro node
  rfl

@[simp] theorem size_setParent (d : Document) (id : Nat) (p : Option Nat) :
    (d.setParent id p).size = d.size :=
  size_update ..

theorem parent?_setParent (d : Document) (id : Nat) (p : Option Nat) (x : Nat) :
    (d.setParent id p).parent? x = if x = id ∧ id < d.size then p else d.parent? x := by
  by_cases hx : x = id
  · subst hx
    by_cases hs : x < d.size
    · obtain ⟨node, hn⟩ : ∃ node, d.node? x = some node :=
        Option.ne_none_iff_exists'.mp (by simpa [node?, size] using hs)
      simp [setParent, parent?, node?_update, hn, hs]
    · simp [setParent, parent?, node?_update, node?_of_size_le (Nat.le_of_not_lt hs), hs]
  · simp [setParent, parent?, node?_update, hx]

@[simp] theorem kind?_setChildren (d : Document) (id : Nat) (change : List Nat → List Nat)
    (x : Nat) : (d.setChildren id change).kind? x = d.kind? x := by
  unfold setChildren
  apply kind?_update
  intro node
  rfl

@[simp] theorem parent?_setChildren (d : Document) (id : Nat)
    (change : List Nat → List Nat) (x : Nat) :
    (d.setChildren id change).parent? x = d.parent? x := by
  unfold setChildren
  apply parent?_update
  intro node
  rfl

@[simp] theorem size_setChildren (d : Document) (id : Nat)
    (change : List Nat → List Nat) : (d.setChildren id change).size = d.size :=
  size_update ..

theorem children_setChildren (d : Document) (id : Nat) (change : List Nat → List Nat)
    (x : Nat) : (d.setChildren id change).children x =
      if x = id ∧ id < d.size then change (d.children x) else d.children x := by
  by_cases hx : x = id
  · subst hx
    by_cases hs : x < d.size
    · obtain ⟨node, hn⟩ : ∃ node, d.node? x = some node :=
        Option.ne_none_iff_exists'.mp (by simpa [node?, size] using hs)
      simp [setChildren, children, node?_update, hn, hs]
    · simp [setChildren, children, node?_update, node?_of_size_le (Nat.le_of_not_lt hs), hs]
  · simp [setChildren, children, node?_update, hx]

/-! Creating and counting. -/

theorem node?_create (d : Document) (kind : NodeKind) (x : Nat) :
    (d.create kind).node? x = if x = d.size then some kind.alone else d.node? x := by
  simp only [create, node?, size, Array.getElem?_push]
  rfl

@[simp] theorem size_create (d : Document) (kind : NodeKind) :
    (d.create kind).size = d.size + 1 := by
  simp [create, size]

theorem kind?_create (d : Document) (kind : NodeKind) (x : Nat) :
    (d.create kind).kind? x = if x = d.size then some kind else d.kind? x := by
  simp only [kind?, node?_create]
  split <;> simp [NodeKind.alone]

@[simp] theorem children_create (d : Document) (kind : NodeKind) (x : Nat) :
    (d.create kind).children x = d.children x := by
  by_cases hx : x = d.size
  · subst hx
    simp [children, node?_create, NodeKind.alone, node?_of_size_le]
  · simp [children, node?_create, hx]

@[simp] theorem parent?_create (d : Document) (kind : NodeKind) (x : Nat) :
    (d.create kind).parent? x = d.parent? x := by
  by_cases hx : x = d.size
  · subst hx
    simp [parent?, node?_create, NodeKind.alone, node?_of_size_le]
  · simp [parent?, node?_create, hx]

@[simp] theorem node?_count (d : Document) (x : Nat) : d.count.node? x = d.node? x := rfl
@[simp] theorem kind?_count (d : Document) (x : Nat) : d.count.kind? x = d.kind? x := rfl
@[simp] theorem children_count (d : Document) (x : Nat) : d.count.children x = d.children x := rfl
@[simp] theorem parent?_count (d : Document) (x : Nat) : d.count.parent? x = d.parent? x := rfl
@[simp] theorem size_count (d : Document) : d.count.size = d.size := rfl

/-! Attributes and texts. -/

theorem kind?_writeAttribute (d : Document) (id : Nat) (name : String) (value : Scalar)
    (x : Nat) : (d.writeAttribute id name value).kind? x =
      if x = id then (d.kind? x).map (NodeKind.writeAttribute name value) else d.kind? x := by
  simp only [writeAttribute, kind?, node?_update]
  split
  · cases d.node? x with
    | none => rfl
    | some node => cases hk : node.kind <;> simp [NodeKind.writeAttribute, Bindings.write, hk]
  · rfl

@[simp] theorem children_writeAttribute (d : Document) (id : Nat) (name : String)
    (value : Scalar) (x : Nat) : (d.writeAttribute id name value).children x = d.children x := by
  unfold writeAttribute
  apply children_update
  intro node
  split <;> rfl

@[simp] theorem parent?_writeAttribute (d : Document) (id : Nat) (name : String)
    (value : Scalar) (x : Nat) : (d.writeAttribute id name value).parent? x = d.parent? x := by
  unfold writeAttribute
  apply parent?_update
  intro node
  split <;> rfl

@[simp] theorem size_writeAttribute (d : Document) (id : Nat) (name : String)
    (value : Scalar) : (d.writeAttribute id name value).size = d.size :=
  size_update ..

theorem kind?_writeText (d : Document) (id : Nat) (content : String) (x : Nat) :
    (d.writeText id content).kind? x =
      if x = id then (d.kind? x).map (NodeKind.writeText content) else d.kind? x := by
  simp only [writeText, kind?, node?_update]
  split
  · cases d.node? x with
    | none => rfl
    | some node => cases hk : node.kind <;> simp [NodeKind.writeText, hk]
  · rfl

@[simp] theorem children_writeText (d : Document) (id : Nat) (content : String) (x : Nat) :
    (d.writeText id content).children x = d.children x := by
  unfold writeText
  apply children_update
  intro node
  split <;> rfl

@[simp] theorem parent?_writeText (d : Document) (id : Nat) (content : String) (x : Nat) :
    (d.writeText id content).parent? x = d.parent? x := by
  unfold writeText
  apply parent?_update
  intro node
  split <;> rfl

@[simp] theorem size_writeText (d : Document) (id : Nat) (content : String) :
    (d.writeText id content).size = d.size :=
  size_update ..

/-! Releasing, detaching and attaching. -/

/-- The links up that clearing the children of a node takes away. -/
def orphan (d : Document) (ids : List Nat) : Document :=
  ids.foldl (fun doc child => doc.setParent child none) d

theorem release_eq (d : Document) (id : Nat) :
    d.release id = (d.setChildren id fun _ => []).orphan (d.children id) := rfl

@[simp] theorem kind?_orphan (d : Document) (ids : List Nat) (x : Nat) :
    (d.orphan ids).kind? x = d.kind? x := by
  induction ids generalizing d with
  | nil => rfl
  | cons id rest ih => exact (ih _).trans (kind?_setParent ..)

@[simp] theorem children_orphan (d : Document) (ids : List Nat) (x : Nat) :
    (d.orphan ids).children x = d.children x := by
  induction ids generalizing d with
  | nil => rfl
  | cons id rest ih => exact (ih _).trans (children_setParent ..)

@[simp] theorem size_orphan (d : Document) (ids : List Nat) : (d.orphan ids).size = d.size := by
  induction ids generalizing d with
  | nil => rfl
  | cons id rest ih => exact (ih _).trans (size_setParent ..)

theorem parent?_orphan (d : Document) (ids : List Nat) (x : Nat) :
    (d.orphan ids).parent? x = if x ∈ ids then none else d.parent? x := by
  induction ids generalizing d with
  | nil => rfl
  | cons id rest ih =>
    have hstep := ih (d.setParent id none)
    simp only [orphan, List.foldl_cons] at hstep ⊢
    rw [hstep, parent?_setParent]
    by_cases hr : x ∈ rest
    · simp [hr]
    · by_cases hx : x = id
      · subst hx
        by_cases hs : x < d.size
        · simp [hs]
        · simp [hs, parent?_of_size_le (Nat.le_of_not_lt hs)]
      · simp [hr, hx]

@[simp] theorem kind?_release (d : Document) (id x : Nat) :
    (d.release id).kind? x = d.kind? x := by
  simp [release_eq]

@[simp] theorem size_release (d : Document) (id : Nat) : (d.release id).size = d.size := by
  simp [release_eq]

theorem children_release (d : Document) (id x : Nat) :
    (d.release id).children x = if x = id then [] else d.children x := by
  rw [release_eq, children_orphan, children_setChildren]
  by_cases hx : x = id
  · subst hx
    by_cases hs : x < d.size
    · simp [hs]
    · simp [hs, children_of_size_le (Nat.le_of_not_lt hs)]
  · simp [hx]

theorem parent?_release (d : Document) (id x : Nat) :
    (d.release id).parent? x = if x ∈ d.children id then none else d.parent? x := by
  rw [release_eq, parent?_orphan, parent?_setChildren]

@[simp] theorem kind?_detach (d : Document) (id x : Nat) :
    (d.detach id).kind? x = d.kind? x := by
  unfold detach
  split <;> simp

@[simp] theorem size_detach (d : Document) (id : Nat) : (d.detach id).size = d.size := by
  unfold detach
  split <;> simp

/-- Detaching a node takes only itself out of a list of children. -/
theorem mem_children_detach {d : Document} {id x c : Nat} (h : c ∈ (d.detach id).children x) :
    c ∈ d.children x := by
  unfold detach at h
  split at h
  · exact h
  · rw [children_setChildren] at h
    split at h
    · simp only [children_setParent, List.mem_filter] at h
      exact h.1
    · simpa using h

theorem parent?_detach (d : Document) (id x : Nat) :
    (d.detach id).parent? x = if x = id then none else d.parent? x := by
  unfold detach
  split
  · rename_i h
    split
    · rename_i hx
      rw [hx, h]
    · rfl
  · rename_i p h
    have hs : id < d.size := by
      by_contra hge
      rw [parent?_of_size_le (Nat.le_of_not_lt hge)] at h
      simp at h
    simp [parent?_setParent, hs]

theorem detach_of_parent?_eq_none {d : Document} {id : Nat} (h : d.parent? id = none) :
    d.detach id = d := by
  simp [detach, h]

@[simp] theorem kind?_attach (d : Document) (parent id : Nat)
    (place : List Nat → List Nat) (x : Nat) :
    (d.attach parent id place).kind? x = d.kind? x := by
  simp [attach]

@[simp] theorem size_attach (d : Document) (parent id : Nat)
    (place : List Nat → List Nat) : (d.attach parent id place).size = d.size := by
  simp [attach]

theorem parent?_attach {d : Document} {id : Nat} (hid : id < d.size) (parent : Nat)
    (place : List Nat → List Nat) (x : Nat) :
    (d.attach parent id place).parent? x = if x = id then some parent else d.parent? x := by
  simp only [attach, parent?_setChildren, parent?_setParent, parent?_detach, size_detach]
  by_cases hx : x = id <;> simp [hx, hid]

/-- Attaching a node that has no parent. -/
theorem children_attach {d : Document} {parent id : Nat} (hfree : d.parent? id = none)
    (hparent : parent < d.size) (place : List Nat → List Nat) (x : Nat) :
    (d.attach parent id place).children x =
      if x = parent then place (d.children x) else d.children x := by
  simp only [attach, detach_of_parent?_eq_none hfree, children_setChildren, children_setParent,
    size_setParent, hparent, and_true]

/-! Nodes that a write does not name stay as they are. -/

theorem node?_update_of_ne {id x : Nat} (h : x ≠ id) (d : Document) (change : Node → Node) :
    (d.update id change).node? x = d.node? x := by
  rw [node?_update, if_neg h]

theorem node?_attach_of_ne {d : Document} {parent id x : Nat} (hfree : d.parent? id = none)
    (hp : x ≠ parent) (hi : x ≠ id) (place : List Nat → List Nat) :
    (d.attach parent id place).node? x = d.node? x := by
  simp only [attach, detach_of_parent?_eq_none hfree]
  exact (node?_update_of_ne hp _ _).trans (node?_update_of_ne hi _ _)

theorem node?_create_of_lt {d : Document} {x : Nat} (h : x < d.size) (kind : NodeKind) :
    (d.create kind).node? x = d.node? x := by
  rw [node?_create, if_neg (Nat.ne_of_lt h)]

theorem kind?_eq_of_node? {d e : Document} {x : Nat} (h : e.node? x = d.node? x) :
    e.kind? x = d.kind? x := by
  simp [kind?, h]

theorem children_eq_of_node? {d e : Document} {x : Nat} (h : e.node? x = d.node? x) :
    e.children x = d.children x := by
  simp [children, h]

theorem parent?_eq_of_node? {d e : Document} {x : Nat} (h : e.node? x = d.node? x) :
    e.parent? x = d.parent? x := by
  simp [parent?, h]

/-! The changes. A node is put under a parent only when it is new, so the laws of
putting one there are for nodes without a parent. -/

section Changes

variable (d : Document)

@[simp] theorem size_createElement (tag : String) : (d.createElement tag).size = d.size + 1 := by
  simp [createElement]

theorem kind?_createElement (tag : String) (x : Nat) :
    (d.createElement tag).kind? x = if x = d.size then some (.element tag []) else d.kind? x := by
  simp [createElement, kind?_create]

@[simp] theorem children_createElement (tag : String) (x : Nat) :
    (d.createElement tag).children x = d.children x := by
  simp [createElement]

@[simp] theorem parent?_createElement (tag : String) (x : Nat) :
    (d.createElement tag).parent? x = d.parent? x := by
  simp [createElement]

theorem node?_createElement_of_lt {x : Nat} (h : x < d.size) (tag : String) :
    (d.createElement tag).node? x = d.node? x := by
  rw [createElement, node?_count, node?_create_of_lt h]

@[simp] theorem size_createText (content : String) : (d.createText content).size = d.size + 1 := by
  simp [createText]

theorem kind?_createText (content : String) (x : Nat) :
    (d.createText content).kind? x = if x = d.size then some (.text content) else d.kind? x := by
  simp [createText, kind?_create]

@[simp] theorem children_createText (content : String) (x : Nat) :
    (d.createText content).children x = d.children x := by
  simp [createText]

@[simp] theorem parent?_createText (content : String) (x : Nat) :
    (d.createText content).parent? x = d.parent? x := by
  simp [createText]

theorem node?_createText_of_lt {x : Nat} (h : x < d.size) (content : String) :
    (d.createText content).node? x = d.node? x := by
  rw [createText, node?_count, node?_create_of_lt h]

@[simp] theorem size_setAttribute (node : Nat) (name : String) (value : Scalar) :
    (d.setAttribute node name value).size = d.size := by
  simp [setAttribute]

theorem kind?_setAttribute (node : Nat) (name : String) (value : Scalar) (x : Nat) :
    (d.setAttribute node name value).kind? x =
      if x = node then (d.kind? x).map (NodeKind.writeAttribute name value) else d.kind? x := by
  simp [setAttribute, kind?_writeAttribute]

@[simp] theorem children_setAttribute (node : Nat) (name : String) (value : Scalar) (x : Nat) :
    (d.setAttribute node name value).children x = d.children x := by
  simp [setAttribute]

@[simp] theorem parent?_setAttribute (node : Nat) (name : String) (value : Scalar) (x : Nat) :
    (d.setAttribute node name value).parent? x = d.parent? x := by
  simp [setAttribute]

theorem node?_setAttribute_of_ne {node x : Nat} (h : x ≠ node) (name : String) (value : Scalar) :
    (d.setAttribute node name value).node? x = d.node? x := by
  rw [setAttribute, node?_count, writeAttribute, node?_update_of_ne h]

@[simp] theorem size_clearChildren (node : Nat) : (d.clearChildren node).size = d.size := by
  simp [clearChildren]

@[simp] theorem kind?_clearChildren (node x : Nat) :
    (d.clearChildren node).kind? x = d.kind? x := by
  simp [clearChildren]

theorem children_clearChildren (node x : Nat) :
    (d.clearChildren node).children x = if x = node then [] else d.children x := by
  simp [clearChildren, children_release]

theorem parent?_clearChildren (node x : Nat) :
    (d.clearChildren node).parent? x = if x ∈ d.children node then none else d.parent? x := by
  simp [clearChildren, parent?_release]

@[simp] theorem size_appendChild (parent child : Nat) : (d.appendChild parent child).size = d.size := by
  simp [appendChild]

@[simp] theorem kind?_appendChild (parent child x : Nat) :
    (d.appendChild parent child).kind? x = d.kind? x := by
  simp [appendChild]

@[simp] theorem size_insertChild (parent index child : Nat) :
    (d.insertChild parent index child).size = d.size := by
  simp [insertChild]

@[simp] theorem kind?_insertChild (parent index child x : Nat) :
    (d.insertChild parent index child).kind? x = d.kind? x := by
  simp [insertChild]

variable {d} {parent child : Nat}

theorem parent?_appendChild (hchild : child < d.size) (parent x : Nat) :
    (d.appendChild parent child).parent? x = if x = child then some parent else d.parent? x := by
  simp [appendChild, parent?_attach hchild]

theorem children_appendChild (hfree : d.parent? child = none) (hparent : parent < d.size) (x : Nat) :
    (d.appendChild parent child).children x =
      if x = parent then d.children x ++ [child] else d.children x := by
  simp [appendChild, children_attach hfree hparent]

theorem node?_appendChild_of_ne {x : Nat} (hfree : d.parent? child = none) (hp : x ≠ parent)
    (hc : x ≠ child) : (d.appendChild parent child).node? x = d.node? x := by
  rw [appendChild, node?_count, node?_attach_of_ne hfree hp hc]

theorem parent?_insertChild (hchild : child < d.size) (parent index x : Nat) :
    (d.insertChild parent index child).parent? x =
      if x = child then some parent else d.parent? x := by
  simp [insertChild, parent?_attach hchild]

theorem children_insertChild (hfree : d.parent? child = none) (hparent : parent < d.size)
    (index x : Nat) : (d.insertChild parent index child).children x =
      if x = parent then insertAt index child (d.children x) else d.children x := by
  simp [insertChild, children_attach hfree hparent]

theorem node?_insertChild_of_ne {x : Nat} (hfree : d.parent? child = none) (hp : x ≠ parent)
    (hc : x ≠ child) (index : Nat) : (d.insertChild parent index child).node? x = d.node? x := by
  rw [insertChild, node?_count, node?_attach_of_ne hfree hp hc]

end Changes

/-! A node that is no text gets a new text for its only child when a content is set. -/

section SetText

variable {d : Document} {node : Nat}

theorem setText_of_element (h : d.isText node = false) (content : String) :
    d.setText node content =
      ((d.clearChildren node).createText content).appendChild node d.size := by
  simp [setText, h]

theorem size_setText_of_element (h : d.isText node = false) (content : String) :
    (d.setText node content).size = d.size + 1 := by
  simp [setText_of_element h]

theorem kind?_setText_of_element (h : d.isText node = false) (content : String) (x : Nat) :
    (d.setText node content).kind? x =
      if x = d.size then some (.text content) else d.kind? x := by
  simp [setText_of_element h, kind?_createText]

theorem children_setText_of_element (h : d.isText node = false) (hnode : node < d.size)
    (content : String) (x : Nat) : (d.setText node content).children x =
      if x = node then [d.size] else d.children x := by
  have hfree : ((d.clearChildren node).createText content).parent? d.size = none := by
    rw [parent?_createText]
    exact parent?_of_size_le (by simp)
  have hlt : node < ((d.clearChildren node).createText content).size := by
    rw [size_createText, size_clearChildren]
    omega
  rw [setText_of_element h, children_appendChild hfree hlt, children_createText,
    children_clearChildren]
  split <;> rfl

theorem parent?_setText_of_element (h : d.isText node = false) (content : String) (x : Nat) :
    (d.setText node content).parent? x = if x = d.size then some node
      else if x ∈ d.children node then none else d.parent? x := by
  rw [setText_of_element h, parent?_appendChild (by simp), parent?_createText,
    parent?_clearChildren]

end SetText

end Document

end Stencil
