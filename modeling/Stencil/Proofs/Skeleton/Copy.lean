import Mathlib.Data.List.Range
import Stencil.Proofs.Document.Evolution
import Stencil.Proofs.Document.Shown
/- Copies of skeletons. `plant` is the tree that a copy is meant to be: the skeleton's
   tags and texts under consecutive ids in reading order, with each attribute list
   written in order. `applyAll_copy` says that the changes of a copy make that tree,
   next to an old document in which no node changes. -/
namespace Stencil

namespace Skeleton

mutual
/-- The tree of a skeleton's copy whose nodes get the ids from `next` on. -/
def plant (next : Nat) : Skeleton → Tree
  | text content => .text next content
  | element tag attributes children =>
    .element next tag (Bindings.writeAll attributes []) (plants (next + 1) children)

/-- The trees of several skeletons' copies in turn. -/
def plants (next : Nat) : List Skeleton → List Tree
  | [] => []
  | s :: rest => s.plant next :: plants (next + s.nodeCount) rest
end

@[simp] theorem id_plant (next : Nat) (s : Skeleton) : (s.plant next).id = next := by
  cases s <;> rfl

mutual
theorem ids_plant (next : Nat) : ∀ s : Skeleton, (s.plant next).ids = List.range' next s.nodeCount
  | text content => by simp [plant, Tree.ids, nodeCount]
  | element tag attributes children => by
    simp only [plant, Tree.ids, nodeCount, allIds_plants, Nat.add_comm 1, List.range'_succ]

theorem allIds_plants (next : Nat) :
    ∀ ss : List Skeleton, Tree.allIds (plants next ss) = List.range' next (nodeCounts ss)
  | [] => by simp [plants, Tree.allIds, nodeCounts]
  | s :: rest => by
    simp only [plants, Tree.allIds, nodeCounts, ids_plant next s, allIds_plants _ rest]
    rw [← List.range'_append]
    simp
end

theorem mem_ids_plant {next x : Nat} {s : Skeleton} :
    x ∈ (s.plant next).ids ↔ next ≤ x ∧ x < next + s.nodeCount := by
  simp [ids_plant, List.mem_range'_1]

theorem mem_allIds_plants {next x : Nat} {ss : List Skeleton} :
    x ∈ Tree.allIds (plants next ss) ↔ next ≤ x ∧ x < next + nodeCounts ss := by
  simp [allIds_plants, List.mem_range'_1]

theorem nodeCount_pos (s : Skeleton) : 0 < s.nodeCount := by
  cases s <;> simp [nodeCount]

end Skeleton

namespace Document

open Skeleton

/-- Setting attributes one by one on the node that was created last. -/
theorem applyAll_attributes {node : Nat} {tag : String} (pairs : List (String × Scalar))
    {d : Document} {held : Bindings Scalar} (hk : d.kind? node = some (.element tag held)) :
    let e := d.applyAll (pairs.map fun a => .setAttribute node a.1 a.2)
    d.AdmitsAll (pairs.map fun a => .setAttribute node a.1 a.2) ∧ e.size = d.size ∧
      e.kind? node = some (.element tag (Bindings.writeAll pairs held)) ∧
      (∀ x, e.children x = d.children x) ∧ (∀ x, e.parent? x = d.parent? x) ∧
      ∀ x, x ≠ node → e.node? x = d.node? x := by
  induction pairs generalizing d held with
  | nil => exact ⟨trivial, rfl, hk, fun _ => rfl, fun _ => rfl, fun _ _ => rfl⟩
  | cons p rest ih =>
    have hk' : (d.apply (.setAttribute node p.1 p.2)).kind? node =
        some (.element tag (Bindings.write p.1 p.2 held)) := by
      simp [Document.apply, kind?_setAttribute, hk, NodeKind.writeAttribute]
    obtain ⟨hadmits, hsize, hkind, hchildren, hparent, hnode⟩ := ih hk'
    refine ⟨⟨?_, hadmits⟩, ?_, hkind, ?_, ?_, ?_⟩
    · exact admits_iff.mpr (by simpa [touched] using lt_size_of_kind? hk)
    · exact hsize.trans (size_setAttribute ..)
    · intro x
      exact (hchildren x).trans (children_setAttribute ..)
    · intro x
      exact (hparent x).trans (parent?_setAttribute ..)
    · intro x hx
      exact (hnode x hx).trans (node?_setAttribute_of_ne d hx ..)

/-- What the changes of a copy make of a document: they are admitted, they build the
tree `t` out of the new nodes, its root is below no node, and the old nodes stay as
they are. -/
structure Grows (d : Document) (cs : List Change) (count : Nat) (t : Tree) : Prop where
  admits : d.AdmitsAll cs
  size : (d.applyAll cs).size = d.size + count
  shows : (d.applyAll cs).Shows t
  free : (d.applyAll cs).parent? d.size = none
  below : ∀ x, d.size ≤ x → ∀ c : Nat, c ∈ (d.applyAll cs).children x → d.size < c
  old : ∀ x, x < d.size → (d.applyAll cs).node? x = d.node? x

/-- What copies do that become the last children of one node. -/
structure GrowsBelow (d : Document) (parent : Nat) (cs : List Change) (count : Nat)
    (ts : List Tree) : Prop where
  admits : d.AdmitsAll cs
  size : (d.applyAll cs).size = d.size + count
  shows : (d.applyAll cs).ShowsAll ts
  kind : (d.applyAll cs).kind? parent = d.kind? parent
  above : (d.applyAll cs).parent? parent = d.parent? parent
  children : (d.applyAll cs).children parent = d.children parent ++ ts.map Tree.id
  below : ∀ x, d.size ≤ x → ∀ c : Nat, c ∈ (d.applyAll cs).children x → d.size ≤ c
  old : ∀ x, x < d.size → x ≠ parent → (d.applyAll cs).node? x = d.node? x

theorem GrowsBelow.size_le {d : Document} {parent count : Nat} {cs : List Change} {ts : List Tree}
    (h : d.GrowsBelow parent cs count ts) : d.size ≤ (d.applyAll cs).size := by
  rw [h.size]
  exact Nat.le_add_right ..

/-- A copy becomes the last child of an older node. -/
theorem Grows.appended {d : Document} {cs : List Change} {count parent : Nat} {t : Tree}
    (h : d.Grows cs count t) (hid : t.id = d.size) (hids : ∀ x ∈ t.ids, d.size ≤ x)
    (hcount : 0 < count) (hparent : parent < d.size) :
    d.GrowsBelow parent (cs ++ [.appendChild parent d.size]) count [t] := by
  let d₁ := d.applyAll cs
  have hsize : d₁.size = d.size + count := h.size
  have hparent₁ : parent < d₁.size := by omega
  have hroot : d.size < d₁.size := by omega
  have hfree : d₁.parent? d.size = none := h.free
  have happly : d.applyAll (cs ++ [.appendChild parent d.size]) = d₁.appendChild parent d.size :=
    applyAll_append ..
  have hchildren : ∀ x, (d₁.appendChild parent d.size).children x =
      if x = parent then d₁.children x ++ [d.size] else d₁.children x := by
    intro x
    rw [children_appendChild hfree hparent₁]
  constructor
  · rw [admitsAll_append]
    refine ⟨h.admits, admits_iff.mpr ?_, trivial⟩
    simp only [touched, show (d.applyAll cs).parent? d.size = none from hfree, Option.toList,
      List.forall_mem_cons]
    exact ⟨hroot, hparent₁, by simp⟩
  · rw [happly, size_appendChild, hsize]
  · rw [happly]
    refine ⟨h.shows.congr fun x hx => ⟨kind?_appendChild .., ?_⟩, trivial⟩
    rw [hchildren, if_neg (Nat.ne_of_gt (Nat.lt_of_lt_of_le hparent (hids x hx)))]
  · rw [happly, kind?_appendChild]
    exact kind?_eq_of_node? (h.old parent hparent)
  · rw [happly, parent?_appendChild hroot, if_neg (Nat.ne_of_lt hparent)]
    exact parent?_eq_of_node? (h.old parent hparent)
  · rw [happly, hchildren, if_pos rfl, children_eq_of_node? (h.old parent hparent)]
    simp [hid]
  · intro x hx c hc
    rw [happly, hchildren, if_neg (Nat.ne_of_gt (Nat.lt_of_lt_of_le hparent hx))] at hc
    exact Nat.le_of_lt (h.below x hx c hc)
  · intro x hx hne
    rw [happly, node?_appendChild_of_ne hfree hne (Nat.ne_of_lt hx)]
    exact h.old x hx

/-- A first child is followed by others, which leave it as it is. -/
theorem GrowsBelow.cons {d : Document} {parent count count' : Nat} {cs cs' : List Change}
    {t : Tree} {ts : List Tree} (h : d.GrowsBelow parent cs count [t])
    (hids : ∀ x ∈ t.ids, d.size ≤ x ∧ x < d.size + count) (hparent : parent < d.size)
    (h' : (d.applyAll cs).GrowsBelow parent cs' count' ts) :
    d.GrowsBelow parent (cs ++ cs') (count + count') (t :: ts) := by
  have hold : ∀ x, x < d.size + count → x ≠ parent →
      (d.applyAll (cs ++ cs')).node? x = (d.applyAll cs).node? x := by
    intro x hx hne
    rw [applyAll_append]
    exact h'.old x (h.size ▸ hx) hne
  constructor
  · exact admitsAll_append.mpr ⟨h.admits, h'.admits⟩
  · rw [applyAll_append, h'.size, h.size, Nat.add_assoc]
  · refine ⟨h.shows.1.congr fun x hx => .of_node? (hold x (hids x hx).2 ?_), ?_⟩
    · exact Nat.ne_of_gt (Nat.lt_of_lt_of_le hparent (hids x hx).1)
    · rw [applyAll_append]
      exact h'.shows
  · rw [applyAll_append, h'.kind, h.kind]
  · rw [applyAll_append, h'.above, h.above]
  · rw [applyAll_append, h'.children, h.children]
    simp
  · intro x hx c hc
    rcases Nat.lt_or_ge x (d.size + count) with hlt | hge
    · rw [children_eq_of_node? (hold x hlt (by omega))] at hc
      exact h.below x hx c hc
    · rw [applyAll_append] at hc
      have := h'.below x (h.size ▸ hge) c hc
      exact Nat.le_trans h.size_le this
  · intro x hx hne
    rw [hold x (by omega) hne]
    exact h.old x hx hne

mutual
theorem applyAll_copy : ∀ (s : Skeleton) (d : Document),
    d.Grows (s.copy d.size) s.nodeCount (s.plant d.size)
  | .text content, d => by
    constructor
    · exact ⟨admits_iff.mpr (by simp [touched]), trivial⟩
    · exact size_createText ..
    · simp [copy, applyAll, Document.apply, plant, Shows, kind?_createText]
    · simp [copy, applyAll, Document.apply, parent?_of_size_le]
    · intro x hx c hc
      simp [copy, applyAll, Document.apply, children_of_size_le hx] at hc
    · intro x hx
      exact node?_createText_of_lt d hx _
  | .element tag attributes children, d => by
    -- the element is created, then it gets its attributes, then its children
    let d₁ := d.createElement tag
    have hsize₁ : d₁.size = d.size + 1 := size_createElement ..
    have hk₁ : d₁.kind? d.size = some (.element tag []) := by simp [d₁, kind?_createElement]
    have hadmits₁ : d.admits (.createElement tag d.size) = true := by simp [admits, touched]
    obtain ⟨hadmits₂, hsize₂, hk₂, hchildren₂, hparent₂, hnode₂⟩ :=
      applyAll_attributes attributes hk₁
    let d₂ := d₁.applyAll (attributes.map fun a => .setAttribute d.size a.1 a.2)
    have hsize : d₂.size = d.size + 1 := hsize₂.trans hsize₁
    have hold : ∀ x, x < d.size → d₂.node? x = d.node? x := fun x hx =>
      (hnode₂ x (Nat.ne_of_lt hx)).trans (node?_createElement_of_lt d hx tag)
    have hbare : ∀ x, d.size ≤ x → d₂.children x = [] := by
      intro x hx
      simp [d₂, hchildren₂ x, d₁, children_of_size_le hx]
    have hgrows : d₂.GrowsBelow d.size (copies d.size d₂.size children) (nodeCounts children)
        (plants d₂.size children) := applyAll_copies children (by omega)
    have hcs : (Skeleton.element tag attributes children).copy d.size =
        (.createElement tag d.size :: attributes.map fun a => .setAttribute d.size a.1 a.2) ++
          copies d.size d₂.size children := by
      rw [hsize]
      rfl
    have happly : d.applyAll ((Skeleton.element tag attributes children).copy d.size) =
        d₂.applyAll (copies d.size d₂.size children) := by
      rw [hcs, applyAll_append]
      rfl
    constructor
    · rw [hcs, admitsAll_append]
      exact ⟨⟨hadmits₁, hadmits₂⟩, hgrows.admits⟩
    · rw [happly, hgrows.size, hsize, nodeCount, Nat.add_assoc]
    · rw [happly]
      refine ⟨hgrows.kind.trans hk₂, ?_, ?_⟩
      · rw [hgrows.children, hbare _ (Nat.le_refl _), hsize, List.nil_append]
      · exact hsize ▸ hgrows.shows
    · rw [happly, hgrows.above]
      simp [d₂, hparent₂ d.size, d₁, parent?_of_size_le]
    · intro x hx c hc
      rw [happly] at hc
      rcases Nat.lt_or_ge x d₂.size with hlt | hge
      · obtain rfl : x = d.size := by omega
        rw [hgrows.children, hbare _ (Nat.le_refl _), List.nil_append] at hc
        have hm := mem_allIds_plants.mp (Tree.map_id_subset_allIds _ hc)
        omega
      · have := hgrows.below x hge c hc
        omega
    · intro x hx
      rw [happly, hgrows.old x (by omega) (Nat.ne_of_lt hx)]
      exact hold x hx

theorem applyAll_copies : ∀ (ss : List Skeleton) {parent : Nat} {d : Document}, parent < d.size →
    d.GrowsBelow parent (copies parent d.size ss) (nodeCounts ss) (plants d.size ss)
  | [], parent, d, hparent => by
    refine ⟨trivial, rfl, trivial, rfl, rfl, ?_, ?_, fun _ _ _ => rfl⟩
    · simp [copies, applyAll, plants]
    · intro x hx c hc
      simp [copies, applyAll, children_of_size_le hx] at hc
  | s :: rest, parent, d, hparent => by
    have hfirst := (applyAll_copy s d).appended (id_plant d.size s)
      (fun x hx => (mem_ids_plant.mp hx).1) s.nodeCount_pos hparent
    have hrest := applyAll_copies rest (Nat.lt_of_lt_of_le hparent hfirst.size_le)
    rw [hfirst.size] at hrest
    have hcs : copies parent d.size (s :: rest) =
        (s.copy d.size ++ [.appendChild parent d.size]) ++
          copies parent (d.size + s.nodeCount) rest := by
      simp [copies]
    rw [hcs]
    exact hfirst.cons (fun x hx => mem_ids_plant.mp hx) hparent hrest
end

end Document

end Stencil
