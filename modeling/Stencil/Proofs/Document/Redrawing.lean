import Stencil.Proofs.Document.Evolution
import Stencil.Proofs.Document.Shown
/- Redrawing: attributes and texts are written, and no link changes (`Redrawn`). The tree
   below a node then keeps all its ids (`Shows.redrawn`). `Redraws` says of a list of
   changes what it makes of certain nodes, whatever has been written to the others before,
   so that changes to different nodes can be put one after another (`Redraws.append`). -/
namespace Stencil

/-- The tag of an element; a text has none. -/
def NodeKind.tag? : NodeKind → Option String
  | .element tag _ => some tag
  | .text _ => none

namespace Document

/-- Nodes among `ids` have been written to. No link has changed, and no node is another kind
of node. -/
structure Redrawn (ids : List Nat) (d e : Document) : Prop where
  size : e.size = d.size
  children : ∀ x, e.children x = d.children x
  parent : ∀ x, e.parent? x = d.parent? x
  kind : ∀ x, x ∉ ids → e.kind? x = d.kind? x
  tag : ∀ x, (e.kind? x).map NodeKind.tag? = (d.kind? x).map NodeKind.tag?

namespace Redrawn

variable {ids ids' : List Nat} {d e f : Document}

theorem refl (ids : List Nat) (d : Document) : Redrawn ids d d :=
  ⟨rfl, fun _ => rfl, fun _ => rfl, fun _ _ => rfl, fun _ => rfl⟩

theorem trans (h : Redrawn ids d e) (h' : Redrawn ids e f) : Redrawn ids d f where
  size := h'.size.trans h.size
  children x := (h'.children x).trans (h.children x)
  parent x := (h'.parent x).trans (h.parent x)
  kind x hx := (h'.kind x hx).trans (h.kind x hx)
  tag x := (h'.tag x).trans (h.tag x)

theorem mono (h : Redrawn ids d e) (hsub : ids ⊆ ids') : Redrawn ids' d e :=
  ⟨h.size, h.children, h.parent, fun x hx => h.kind x fun hm => hx (hsub hm), h.tag⟩

theorem same (h : Redrawn ids d e) {x : Nat} (hx : x ∉ ids) : d.SameAt e x :=
  ⟨h.kind x hx, h.children x⟩

theorem setAttribute (d : Document) (node : Nat) (name : String) (value : Scalar) :
    Redrawn [node] d (d.setAttribute node name value) where
  size := size_setAttribute ..
  children x := children_setAttribute ..
  parent x := parent?_setAttribute ..
  kind x hx := by
    rw [kind?_setAttribute, if_neg (by simpa using hx)]
  tag x := by
    rw [kind?_setAttribute]
    split
    · cases d.kind? x with
      | none => rfl
      | some kind => cases kind <;> rfl
    · rfl

/-- Elements have the tags that they had. -/
theorem tag? (h : Redrawn ids d e) (x : Nat) : e.tag? x = d.tag? x := by
  have htag := h.tag x
  simp only [Document.tag?]
  cases he : e.kind? x <;> cases hd : d.kind? x <;> simp_all
  rename_i a b
  cases a <;> cases b <;> simp_all [NodeKind.tag?]

theorem isText (h : Redrawn ids d e) (x : Nat) : e.isText x = d.isText x := by
  have htag := h.tag x
  simp only [Document.isText, Document.text?]
  cases he : e.kind? x <;> cases hd : d.kind? x <;> simp_all
  rename_i a b
  cases a <;> cases b <;> simp_all [NodeKind.tag?]

theorem childAt? (h : Redrawn ids d e) (x index : Nat) : e.childAt? x index = d.childAt? x index := by
  rw [Document.childAt?, Document.childAt?, h.children]

/-- Nodes have the ancestors that they had. -/
theorem isOwnAncestor (h : Redrawn ids d e) (x : Nat) : e.isOwnAncestor x = d.isOwnAncestor x := by
  have hancestors : ∀ steps y, e.ancestorsWithin steps y = d.ancestorsWithin steps y := by
    intro steps
    induction steps with
    | zero => exact fun _ => rfl
    | succ steps ih =>
      intro y
      simp only [ancestorsWithin, h.parent, ih]
  simp only [Document.isOwnAncestor, ancestors, h.size, hancestors]

end Redrawn

section SetText

variable {d : Document} {leaf : Nat} {held : String}

theorem setText_of_text (h : d.kind? leaf = some (.text held)) (content : String) :
    d.setText leaf content = (d.writeText leaf content).count := by
  have htext : d.isText leaf = true := by simp [isText, text?, h]
  rw [setText, if_pos htext]

theorem kind?_setText (h : d.kind? leaf = some (.text held)) (content : String) (x : Nat) :
    (d.setText leaf content).kind? x = if x = leaf then some (.text content) else d.kind? x := by
  rw [setText_of_text h, kind?_count, kind?_writeText]
  split
  · rename_i hx
    rw [hx, h]
    rfl
  · rfl

theorem Redrawn.setText (h : d.kind? leaf = some (.text held)) (content : String) :
    Redrawn [leaf] d (d.setText leaf content) where
  size := by rw [setText_of_text h, size_count, size_writeText]
  children x := by rw [setText_of_text h, children_count, children_writeText]
  parent x := by rw [setText_of_text h, parent?_count, parent?_writeText]
  kind x hx := by rw [kind?_setText h, if_neg (by simpa using hx)]
  tag x := by
    rw [kind?_setText h]
    split
    · rename_i hx
      rw [hx, h]
      rfl
    · rfl

end SetText

end Document

/-- The change writes an attribute, or the content of a text node. -/
def Change.Retouches (d : Document) : Change → Prop
  | .setAttribute _ _ _ => True
  | .setText leaf _ => d.isText leaf = true
  | _ => False

namespace Document

theorem redrawn_of_retouches {d : Document} {cs : List Change} (h : ∀ c ∈ cs, c.Retouches d) :
    ∃ ids, Redrawn ids d (d.applyAll cs) := by
  induction cs generalizing d with
  | nil => exact ⟨[], .refl [] d⟩
  | cons c rest ih =>
    rw [List.forall_mem_cons] at h
    have hfirst : ∃ ids, Redrawn ids d (d.apply c) := by
      cases c with
      | setAttribute node name value => exact ⟨[node], .setAttribute d node name value⟩
      | setText leaf content =>
        have htext : d.isText leaf = true := h.1
        cases hk : d.kind? leaf with
        | none => simp [isText, text?, hk] at htext
        | some kind =>
          cases kind with
          | element tag attributes => simp [isText, text?, hk] at htext
          | text held => exact ⟨[leaf], .setText hk content⟩
      | _ => exact absurd h.1 (by simp [Change.Retouches])
    obtain ⟨ids, hfirst⟩ := hfirst
    -- what was a text node for the first change is one for the others
    have hrest : ∀ c' ∈ rest, c'.Retouches (d.apply c) := by
      intro c' hc'
      have hbefore := h.2 c' hc'
      cases c' with
      | setText leaf content => exact (hfirst.isText leaf).trans hbefore
      | _ => exact hbefore
    obtain ⟨ids', hrest⟩ := ih hrest
    exact ⟨ids ++ ids', (hfirst.mono (List.subset_append_left ..)).trans
      (hrest.mono (List.subset_append_right ..))⟩

mutual
/-- The same nodes show a tree again. -/
theorem Shows.redrawn {ids : List Nat} {d e : Document} (h : Redrawn ids d e) :
    ∀ {t : Tree}, d.Shows t → ∃ u, e.Shows u ∧ u.ids = t.ids ∧ u.id = t.id
  | .text id content, ht => by
    simp only [Shows] at ht
    have htag := h.tag id
    rw [ht] at htag
    cases he : e.kind? id with
    | none => simp [he] at htag
    | some kind =>
      cases kind with
      | element tag attributes => simp [he, NodeKind.tag?] at htag
      | text content' => exact ⟨.text id content', he, rfl, rfl⟩
  | .element id tag attributes children, ht => by
    simp only [Shows] at ht
    obtain ⟨hk, hc, hall⟩ := ht
    obtain ⟨us, hus, hids, hmap⟩ := ShowsAll.redrawn h hall
    have htag := h.tag id
    rw [hk] at htag
    cases he : e.kind? id with
    | none => simp [he] at htag
    | some kind =>
      cases kind with
      | text content => simp [he, NodeKind.tag?] at htag
      | element tag' attributes' =>
        refine ⟨.element id tag' attributes' us, ⟨he, ?_, hus⟩, by simp [Tree.ids, hids], rfl⟩
        rw [h.children, hc, hmap]

theorem ShowsAll.redrawn {ids : List Nat} {d e : Document} (h : Redrawn ids d e) :
    ∀ {ts : List Tree}, d.ShowsAll ts → ∃ us, e.ShowsAll us ∧
      Tree.allIds us = Tree.allIds ts ∧ us.map Tree.id = ts.map Tree.id
  | [], _ => ⟨[], trivial, rfl, rfl⟩
  | t :: rest, ht => by
    obtain ⟨u, hu, hids, hid⟩ := Shows.redrawn h ht.1
    obtain ⟨us, hus, hallIds, hmap⟩ := ShowsAll.redrawn h ht.2
    exact ⟨u :: us, ⟨hu, hus⟩, by simp [Tree.allIds, hids, hallIds], by simp [hid, hmap]⟩
end

/-- Changes that write to the nodes `ids` only and leave something good, also when other nodes
have been written to before. -/
def Redraws (d : Document) (cs : List Change) (ids : List Nat) (good : Document → Prop) : Prop :=
  ∀ e, (∀ x ∈ ids, d.SameAt e x) → Redrawn ids e (e.applyAll cs) ∧ good (e.applyAll cs)

namespace Redraws

variable {d : Document} {cs cs' : List Change} {ids ids' : List Nat}
  {good good' : Document → Prop}

theorem nil (ids : List Nat) (h : ∀ e, (∀ x ∈ ids, d.SameAt e x) → good e) :
    d.Redraws [] ids good :=
  fun e he => ⟨.refl ids e, h e he⟩

theorem mono (h : d.Redraws cs ids good) (hsub : ids ⊆ ids') (himp : ∀ e, good e → good' e) :
    d.Redraws cs ids' good' := by
  intro e he
  obtain ⟨hredrawn, hgood⟩ := h e fun x hx => he x (hsub hx)
  exact ⟨hredrawn.mono hsub, himp _ hgood⟩

/-- What is good after the first changes must not depend on the nodes of the second. -/
theorem append (h : d.Redraws cs ids good) (h' : d.Redraws cs' ids' good')
    (hdisjoint : ∀ x ∈ ids, x ∉ ids')
    (hkeep : ∀ e f, good e → (∀ x ∈ ids, e.SameAt f x) → good f) :
    d.Redraws (cs ++ cs') (ids ++ ids') fun e => good e ∧ good' e := by
  intro e he
  obtain ⟨hfirst, hgood⟩ := h e fun x hx => he x (List.mem_append_left _ hx)
  -- the second changes find their nodes as they were
  have hsame : ∀ x ∈ ids', d.SameAt (e.applyAll cs) x := by
    intro x hx
    have hnot : x ∉ ids := fun hm => hdisjoint x hm hx
    exact (he x (List.mem_append_right _ hx)).trans (hfirst.same hnot)
  obtain ⟨hrest, hgood'⟩ := h' _ hsame
  rw [applyAll_append]
  refine ⟨(hfirst.mono ?_).trans (hrest.mono ?_), hkeep _ _ hgood fun x hx => ?_, hgood'⟩
  · exact List.subset_append_left _ _
  · exact List.subset_append_right _ _
  · exact hrest.same (hdisjoint x hx)

end Redraws

end Document

end Stencil
