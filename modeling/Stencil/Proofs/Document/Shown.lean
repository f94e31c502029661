import Mathlib.Data.List.Nodup
import Mathlib.Data.List.Range
import Stencil.Document.Tree
import Stencil.Proofs.Document.Views
/- What a document shows: a tree is shown if each of its nodes has the kind and the
   children that the tree says. A tree that is shown stays shown wherever its nodes
   keep kind and children (`Shows.congr`), and it is the tree that is read below its
   topmost node, if its ids are distinct and that node is not its own ancestor
   (`tree?_of_shows`). -/
namespace Stencil

mutual
/-- Each node of the tree has the kind and the children that the tree says. -/
def Document.Shows (d : Document) : Tree → Prop
  | .text id content => d.kind? id = some (.text content)
  | .element id tag attributes children =>
    d.kind? id = some (.element tag attributes) ∧ d.children id = children.map Tree.id ∧
      d.ShowsAll children

/-- Each of the trees is shown. -/
def Document.ShowsAll (d : Document) : List Tree → Prop
  | [] => True
  | t :: rest => d.Shows t ∧ d.ShowsAll rest
end

namespace Tree

theorem id_mem_ids (t : Tree) : t.id ∈ t.ids := by
  cases t <;> simp [Tree.id, Tree.ids]

theorem mem_allIds {ts : List Tree} {x : Nat} : x ∈ allIds ts ↔ ∃ t ∈ ts, x ∈ t.ids := by
  induction ts with
  | nil => simp [allIds]
  | cons t rest ih => simp [allIds, ih]

theorem map_id_subset_allIds (ts : List Tree) : ts.map Tree.id ⊆ allIds ts := by
  intro x hx
  obtain ⟨t, ht, rfl⟩ := List.mem_map.mp hx
  exact mem_allIds.mpr ⟨t, ht, t.id_mem_ids⟩

end Tree

namespace Document

/-- Two documents show the same at a node. -/
def SameAt (d e : Document) (x : Nat) : Prop :=
  e.kind? x = d.kind? x ∧ e.children x = d.children x

theorem SameAt.refl (d : Document) (x : Nat) : d.SameAt d x := ⟨rfl, rfl⟩

theorem SameAt.trans {d e f : Document} {x : Nat} (hde : d.SameAt e x) (hef : e.SameAt f x) :
    d.SameAt f x :=
  ⟨hef.1.trans hde.1, hef.2.trans hde.2⟩

theorem SameAt.of_node? {d e : Document} {x : Nat} (h : e.node? x = d.node? x) : d.SameAt e x :=
  ⟨kind?_eq_of_node? h, children_eq_of_node? h⟩

mutual
theorem Shows.congr {d e : Document} : ∀ {t : Tree}, d.Shows t →
    (∀ x ∈ t.ids, d.SameAt e x) → e.Shows t
  | .text id content, h, hs => by
    simp only [Shows] at h ⊢
    rw [(hs id (by simp [Tree.ids])).1, h]
  | .element id tag attributes children, h, hs => by
    simp only [Shows] at h ⊢
    obtain ⟨hk, hc, hall⟩ := h
    have hid := hs id (by simp [Tree.ids])
    refine ⟨hid.1.trans hk, hid.2.trans hc, ShowsAll.congr hall fun x hx => hs x ?_⟩
    simp [Tree.ids, hx]

theorem ShowsAll.congr {d e : Document} : ∀ {ts : List Tree}, d.ShowsAll ts →
    (∀ x ∈ Tree.allIds ts, d.SameAt e x) → e.ShowsAll ts
  | [], _, _ => trivial
  | t :: rest, h, hs =>
    ⟨Shows.congr h.1 fun x hx => hs x (by simp [Tree.allIds, hx]),
      ShowsAll.congr h.2 fun x hx => hs x (by simp [Tree.allIds, hx])⟩
end

mutual
theorem Shows.lt_size {d : Document} : ∀ {t : Tree}, d.Shows t → ∀ x ∈ t.ids, x < d.size
  | .text id content, h, x, hx => by
    simp only [Tree.ids, List.mem_singleton] at hx
    subst hx
    exact lt_size_of_kind? (by simpa only [Shows] using h)
  | .element id tag attributes children, h, x, hx => by
    simp only [Shows] at h
    rcases List.mem_cons.mp hx with rfl | hx
    · exact lt_size_of_kind? h.1
    · exact ShowsAll.lt_size h.2.2 x hx

theorem ShowsAll.lt_size {d : Document} : ∀ {ts : List Tree}, d.ShowsAll ts →
    ∀ x ∈ Tree.allIds ts, x < d.size
  | [], _, x, hx => by simp [Tree.allIds] at hx
  | t :: rest, h, x, hx => by
    rcases List.mem_append.mp hx with hx | hx
    · exact Shows.lt_size h.1 x hx
    · exact ShowsAll.lt_size h.2 x hx
end

mutual
/-- A tree that is shown is found with as many levels as it has nodes. -/
theorem treeWithin_of_shows {d : Document} : ∀ {t : Tree} {depth : Nat}, d.Shows t →
    t.ids.length ≤ depth → d.treeWithin depth t.id = some t
  | .text id content, depth, h, hlen => by
    obtain ⟨depth, rfl⟩ : ∃ n, depth = n + 1 := ⟨depth - 1, by simp [Tree.ids] at hlen; omega⟩
    simp only [Shows] at h
    simp [treeWithin, Tree.id, h]
  | .element id tag attributes children, depth, h, hlen => by
    simp only [Tree.ids, List.length_cons] at hlen
    obtain ⟨depth, rfl⟩ : ∃ n, depth = n + 1 := ⟨depth - 1, by omega⟩
    simp only [Shows] at h
    obtain ⟨hk, hc, hall⟩ := h
    have hbelow := mapM_treeWithin_of_shows hall (by omega : (Tree.allIds children).length ≤ depth)
    simp [treeWithin, Tree.id, hk, hc, hbelow]

theorem mapM_treeWithin_of_shows {d : Document} : ∀ {ts : List Tree} {depth : Nat},
    d.ShowsAll ts → (Tree.allIds ts).length ≤ depth →
    (ts.map Tree.id).mapM (d.treeWithin depth) = some ts
  | [], _, _, _ => rfl
  | t :: rest, depth, h, hlen => by
    simp only [Tree.allIds, List.length_append] at hlen
    have hfirst := treeWithin_of_shows h.1 (by omega : t.ids.length ≤ depth)
    have hrest := mapM_treeWithin_of_shows h.2 (by omega : (Tree.allIds rest).length ≤ depth)
    simp [List.mapM_cons, hfirst, hrest]
end

/-- Distinct ids that were issued are no more than the nodes of the document. -/
theorem length_le_size {d : Document} {ids : List Nat} (hnd : ids.Nodup)
    (hlt : ∀ x ∈ ids, x < d.size) : ids.length ≤ d.size := by
  have hsub : ids ⊆ List.range d.size := fun x hx => List.mem_range.mpr (hlt x hx)
  simpa using hnd.length_le_of_subset hsub

/-- A node outside a set that its parent is in, and that holds the parent of each of
its members, is not its own ancestor. -/
theorem isOwnAncestor_eq_false {d : Document} {r : Nat} (above : Nat → Prop) (hr : ¬ above r)
    (hparent : ∀ p, d.parent? r = some p → above p)
    (habove : ∀ x, above x → ∀ p, d.parent? x = some p → above p) : d.isOwnAncestor r = false := by
  -- by induction on the number of steps, since the links up may go round
  have hchain : ∀ steps x, (∀ p, d.parent? x = some p → above p) →
      ∀ y ∈ d.ancestorsWithin steps x, above y := by
    intro steps
    induction steps with
    | zero =>
      intro x _ y hy
      simp [ancestorsWithin] at hy
    | succ steps ih =>
      intro x hx y hy
      simp only [ancestorsWithin] at hy
      split at hy
      · simp at hy
      · rename_i p hp
        rcases List.mem_cons.mp hy with rfl | hy
        · exact hx _ hp
        · exact ih p (habove p (hx p hp)) y hy
  by_contra hown
  simp only [isOwnAncestor, ancestors, Bool.not_eq_false, List.contains_iff_mem] at hown
  exact hr (hchain _ r hparent r hown)

theorem tree?_of_shows {d : Document} {t : Tree} (h : d.Shows t) (hnd : t.ids.Nodup)
    (hroot : d.isOwnAncestor t.id = false) : d.tree? t.id = some t := by
  have hlen := length_le_size hnd h.lt_size
  simp [tree?, hroot, treeWithin_of_shows h hlen]

theorem treeWithin_of_tree? {d : Document} {x : Nat} {t : Tree} (h : d.tree? x = some t) :
    d.treeWithin d.size x = some t := by
  rw [tree?] at h
  split at h
  · simp at h
  · exact h

end Document

end Stencil
