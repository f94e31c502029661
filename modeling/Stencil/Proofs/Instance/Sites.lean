import Stencil.Proofs.Instance.Anchoring
/- The sites of an instance. Its layout has a site for each element of the fragment, at the node
   where the edits of the element are made (`site_of_mem_edits`), and the document has there the
   children that stay. So what an edit finds can be read off the fragment and the kinds of the
   slots, and an instance that is `Steady` is anchored wherever it stands (`Stands.anchored`). -/
namespace Stencil

namespace Fragment

/-- An element of a fragment in a document: the node of the element, its children in the
fragment, and the layouts of these. -/
structure Site where
  node : Nat
  children : List Fragment
  kids : List Layout

mutual
/-- The sites of a fragment in reading order. -/
def sites : Fragment → Layout → List Site
  | element _ _ children, .node id kids => ⟨id, children, kids⟩ :: allSites children kids
  | _, _ => []

/-- The sites of several fragments. -/
def allSites : List Fragment → List Layout → List Site
  | f :: rest, L :: Ls => f.sites L ++ allSites rest Ls
  | _, _ => []
end

section Sites

variable {d : Document} {slots : String → Option Showing} {values : String → Option Value}
  {node index : Nat} {path : Path} {name : String}

/-- What a document has at a site. -/
structure Site.Built (d : Document) (slots : String → Option Showing) (site : Site) : Prop where
  children : d.children site.node = staying slots site.children (site.kids.map Layout.id)
  placed : AllPlaced d slots site.children site.kids

mutual
theorem Placed.built : ∀ {f : Fragment} {L : Layout}, f.Placed d slots L → ∀ site ∈ f.sites L,
    site.Built d slots ∧ site.children ∈ f.families
  | .text _, _, _, site, hm => by simp [sites] at hm
  | .hole _, _, _, site, hm => by simp [sites] at hm
  | .element tag props children, .node id kids, h, site, hm => by
    obtain ⟨-, hc, hall⟩ := h
    rw [families]
    rcases List.mem_cons.mp hm with rfl | hm
    · exact ⟨⟨hc, hall⟩, List.mem_cons_self⟩
    · obtain ⟨hbuilt, hfamily⟩ := AllPlaced.built hall site hm
      exact ⟨hbuilt, List.mem_cons_of_mem _ hfamily⟩

theorem AllPlaced.built : ∀ {fs : List Fragment} {Ls : List Layout}, AllPlaced d slots fs Ls →
    ∀ site ∈ allSites fs Ls, site.Built d slots ∧ site.children ∈ allFamilies fs
  | [], _, _, site, hm => by simp [allSites] at hm
  | _ :: _, [], _, site, hm => by simp [allSites] at hm
  | f :: rest, L :: Ls, h, site, hm => by
    rw [allFamilies]
    rcases List.mem_append.mp hm with hm | hm
    · obtain ⟨hbuilt, hfamily⟩ := Placed.built h.1 site hm
      exact ⟨hbuilt, List.mem_append_left _ hfamily⟩
    · obtain ⟨hbuilt, hfamily⟩ := AllPlaced.built h.2 site hm
      exact ⟨hbuilt, List.mem_append_right _ hfamily⟩
end

mutual
/-- There is a node for each edit. -/
theorem Placed.length_nodes (c : Cursor) : ∀ {f : Fragment} {L : Layout}, f.Placed d slots L →
    (f.edits c).length = (f.nodes L).length
  | .text _, _, _ => rfl
  | .hole _, _, _ => rfl
  | .element tag props children, .node id kids, h => by
    have hprops := congrArg List.length (PropList.map_hole_edits c props)
    rw [List.length_map] at hprops
    rw [edits, nodes, List.length_append, List.length_append, List.length_map, hprops,
      AllPlaced.length_nodes c 0 id h.2.2]

theorem AllPlaced.length_nodes (c : Cursor) (start id : Nat) : ∀ {fs : List Fragment}
    {Ls : List Layout}, AllPlaced d slots fs Ls →
    (childEdits c start fs).length = (childNodes id fs Ls).length
  | [], _, _ => rfl
  | _ :: _, [], h => by simp [AllPlaced] at h
  | f :: rest, L :: Ls, h => by
    have hrest := AllPlaced.length_nodes c (start + 1) id h.2
    cases hf : f.hole? with
    | some name => simp [childEdits, childNodes, hf, hrest]
    | none =>
      simp [childEdits, childNodes, hf, hrest, Placed.length_nodes (c.down start) h.1]
end

theorem child_notMem_edits {c : Cursor} {props : PropList} :
    Edit.child path index name ∉ props.edits c := by
  induction props with
  | nil => simp [PropList.edits]
  | cons p rest ih =>
    obtain ⟨key, value⟩ := p
    cases value with
    | fixed value => exact ih
    | hole hole => simpa [PropList.edits] using ih

mutual
/-- An edit of a child is made at the site of an element that has the hole at its index. -/
theorem site_of_mem_edits {c : Cursor} : ∀ {f : Fragment} {L : Layout}, f.Placed d slots L →
    (Edit.child path index name, node) ∈ (f.edits c).zip (f.nodes L) →
    ∃ site ∈ f.sites L, site.node = node ∧ site.children[index]? = some (.hole name)
  | .text _, _, _, hm => by simp [edits] at hm
  | .hole _, _, _, hm => by simp [edits] at hm
  | .element tag props children, .node id kids, h, hm => by
    have hprops := congrArg List.length (PropList.map_hole_edits c props)
    rw [List.length_map] at hprops
    rw [edits, nodes, List.zip_append (by rw [List.length_map, hprops])] at hm
    rcases List.mem_append.mp hm with hm | hm
    · exact absurd (List.of_mem_zip hm).1 child_notMem_edits
    · rcases site_of_mem_childEdits h.2.2 hm with ⟨rfl, -, hname⟩ | ⟨site, hsite, hfound⟩
      · exact ⟨_, List.mem_cons_self, rfl, hname⟩
      · exact ⟨site, List.mem_cons_of_mem _ hsite, hfound⟩

theorem site_of_mem_childEdits {c : Cursor} {start id : Nat} : ∀ {fs : List Fragment}
    {Ls : List Layout}, AllPlaced d slots fs Ls →
    (Edit.child path index name, node) ∈ (childEdits c start fs).zip (childNodes id fs Ls) →
    (id = node ∧ start ≤ index ∧ fs[index - start]? = some (.hole name)) ∨
      ∃ site ∈ allSites fs Ls, site.node = node ∧ site.children[index]? = some (.hole name)
  | [], _, _, hm => by simp [childEdits] at hm
  | _ :: _, [], h, _ => by simp [AllPlaced] at h
  | f :: rest, L :: Ls, h, hm => by
    have hnext : ∀ {k : Nat}, start + 1 ≤ k → (f :: rest)[k - start]? = rest[k - (start + 1)]? := by
      intro k hk
      rw [show k - start = (k - (start + 1)) + 1 by omega, List.getElem?_cons_succ]
    have hrest : (Edit.child path index name, node) ∈
          (childEdits c (start + 1) rest).zip (childNodes id rest Ls) →
        (id = node ∧ start ≤ index ∧ (f :: rest)[index - start]? = some (.hole name)) ∨
          ∃ site ∈ allSites (f :: rest) (L :: Ls), site.node = node ∧
            site.children[index]? = some (.hole name) := by
      intro hm
      rcases site_of_mem_childEdits h.2 hm with ⟨hid, hle, hname⟩ | ⟨site, hsite, hfound⟩
      · exact .inl ⟨hid, Nat.le_of_succ_le hle, by rw [hnext hle, hname]⟩
      · exact .inr ⟨site, List.mem_append_right _ hsite, hfound⟩
    cases hf : f.hole? with
    | some slot =>
      obtain rfl : f = .hole slot := by cases f <;> simp_all [hole?]
      simp only [childEdits, childNodes, hf, Option.isSome_some, if_true, List.singleton_append,
        List.zip_cons_cons] at hm
      rcases List.mem_cons.mp hm with hsame | hm
      · obtain ⟨hedit, rfl⟩ := Prod.mk.inj hsame
        obtain ⟨-, rfl, rfl⟩ := Edit.child.inj hedit
        exact .inl ⟨rfl, Nat.le_refl _, by simp⟩
      · exact hrest hm
    | none =>
      simp only [childEdits, childNodes, hf, Option.isSome_none, Bool.false_eq_true, if_false] at hm
      rw [List.zip_append (Placed.length_nodes _ h.1)] at hm
      rcases List.mem_append.mp hm with hm | hm
      · obtain ⟨site, hsite, hfound⟩ := site_of_mem_edits h.1 hm
        exact .inr ⟨site, List.mem_append_left _ hsite, hfound⟩
      · exact hrest hm
end

theorem Placed.isText {f : Fragment} {L : Layout} (h : f.Placed d slots L)
    (hf : f.isLeaf slots = true) : d.isText L.id = true := by
  obtain ⟨id, kids⟩ := L
  cases f with
  | element tag props children => simp [isLeaf] at hf
  | text value =>
    rw [Placed] at h
    simp [Document.isText, Document.text?, Layout.id, h]
  | hole name =>
    rw [Placed] at h
    cases hv : slots name with
    | none => simp [hv] at h
    | some showing =>
      cases showing with
      | block shape => simp [isLeaf, isBlock, hv, Showing.isBlock] at hf
      | scalar value =>
        simp only [hv] at h
        simp [Document.isText, Document.text?, Layout.id, h]

theorem AllPlaced.of_mem_zip : ∀ {fs : List Fragment} {Ls : List Layout}, AllPlaced d slots fs Ls →
    ∀ {f : Fragment} {L : Layout}, (f, L) ∈ fs.zip Ls → f.Placed d slots L
  | [], _, _, _, _, hm => by simp at hm
  | _ :: _, [], _, _, _, hm => by simp at hm
  | g :: rest, K :: Ls, h, f, L, hm => by
    rcases List.mem_cons.mp hm with heq | hm
    · obtain ⟨rfl, rfl⟩ := Prod.mk.inj heq
      exact h.1
    · exact AllPlaced.of_mem_zip h.2 hm

/-- What stands at an index of a site is one of the children that stay. -/
theorem Site.Built.childAt? {site : Site} (h : site.Built d slots) (index : Nat) :
    match (staying slots site.children site.children)[index]? with
    | none => d.childAt? site.node index = none
    | some f => ∃ L, d.childAt? site.node index = some (Layout.id L) ∧ f.Placed d slots L := by
  have hlen := h.placed.length
  have hfst : (site.children.zip site.kids).map Prod.fst = site.children :=
    List.map_fst_zip (Nat.le_of_eq hlen.symm)
  have hsnd : (site.children.zip site.kids).map Prod.snd = site.kids :=
    List.map_snd_zip (Nat.le_of_eq hlen)
  -- the children that stay, each with its layout
  have hchildren : staying slots site.children site.children =
      (staying slots site.children (site.children.zip site.kids)).map Prod.fst := by
    rw [← staying_map, hfst]
  have hids : d.children site.node =
      (staying slots site.children (site.children.zip site.kids)).map fun c => c.2.id := by
    have hnodes := congrArg (List.map Layout.id) hsnd
    rw [List.map_map] at hnodes
    rw [h.children, ← hnodes, staying_map]
    rfl
  rw [Document.childAt?, hids, hchildren, List.getElem?_map, List.getElem?_map]
  cases hc : (staying slots site.children (site.children.zip site.kids))[index]? with
  | none => rfl
  | some c => exact ⟨c.2, rfl,
      h.placed.of_mem_zip ((staying_sublist ..).subset (List.mem_of_getElem? hc))⟩

theorem PropList.scalar_of_bound {props : PropList} {pairs : List (String × Scalar)}
    (h : props.bound slots = some pairs) (hm : name ∈ props.filterMap fun p => p.2.hole?) :
    ∃ value, slots name = some (.scalar value) := by
  induction props generalizing pairs with
  | nil => simp at hm
  | cons p rest ih =>
    obtain ⟨key, value⟩ := p
    cases value with
    | fixed value => exact ih h (by simpa [PropValue.hole?] using hm)
    | hole hole =>
      simp only [PropList.bound] at h
      split at h
      · rename_i value hv
        obtain ⟨pairs', hbound, -⟩ := Option.map_eq_some_iff.mp h
        simp only [List.filterMap_cons, PropValue.hole?] at hm
        rcases List.mem_cons.mp hm with rfl | hm
        · exact ⟨value, hv⟩
        · exact ih hbound hm
      · simp at h

mutual
/-- A nested instance in a slot of what is placed has a layout. -/
theorem Placed.held {n : Instance} (hvalue : values name = some (.block n))
    (hblock : ∀ value, slots name ≠ some (.scalar value)) : ∀ {f : Fragment} {L : Layout},
    f.Placed d slots L → name ∈ f.holes → ∃ K, (n, K) ∈ f.held values L
  | .text _, _, _, hm => by simp [holes] at hm
  | .hole slot, L, _, hm => by
    obtain rfl := List.mem_singleton.mp hm
    exact ⟨L, by simp [Fragment.held, hvalue]⟩
  | .element tag props children, .node id kids, h, hm => by
    obtain ⟨⟨attributes, hattributes, -⟩, -, hall⟩ := h
    rcases List.mem_append.mp hm with hm | hm
    · obtain ⟨pairs, hbound, -⟩ := Option.map_eq_some_iff.mp hattributes
      obtain ⟨value, hv⟩ := PropList.scalar_of_bound hbound hm
      exact absurd hv (hblock value)
    · exact AllPlaced.held hvalue hblock hall hm

theorem AllPlaced.held {n : Instance} (hvalue : values name = some (.block n))
    (hblock : ∀ value, slots name ≠ some (.scalar value)) : ∀ {fs : List Fragment}
    {Ls : List Layout}, AllPlaced d slots fs Ls → name ∈ allHoles fs →
    ∃ K, (n, K) ∈ allHeld values fs Ls
  | [], _, _, hm => by simp [allHoles] at hm
  | _ :: _, [], h, _ => by simp [AllPlaced] at h
  | f :: rest, L :: Ls, h, hm => by
    rcases List.mem_append.mp hm with hm | hm
    · obtain ⟨K, hK⟩ := Placed.held hvalue hblock h.1 hm
      exact ⟨K, List.mem_append_left _ hK⟩
    · obtain ⟨K, hK⟩ := AllPlaced.held hvalue hblock h.2 hm
      exact ⟨K, List.mem_append_right _ hK⟩
end

end Sites

end Fragment

namespace Instance

variable {source : Block → Fragment} {d : Document} {i j : Instance} {L : Layout}

/-- The text of a scalar is looked for at an element of the fragment, at the index of its hole. -/
theorem Stands.site (h : i.Stands source d L) (hmade : i.block.IsOf (source i.block))
    {path : Path} {index node : Nat} {hole : String} {value : Scalar}
    (he : (Edit.child path index hole, node) ∈ i.block.edits.zip i.resolved)
    (hv : i.prop? hole = some (.scalar value)) :
    ∃ site : Fragment.Site, site.Built d (i.showing? source) ∧ site.node = node ∧
      site.children ∈ (source i.block).families ∧
      index ∈ Fragment.scalarsAt (i.showing? source) site.children := by
  cases h with
  | intro _ resolved placed _ =>
    rw [hmade.edits, resolved] at he
    obtain ⟨site, hsite, hnode, hname⟩ := Fragment.site_of_mem_edits placed he
    obtain ⟨hbuilt, hfamily⟩ := placed.built site hsite
    refine ⟨site, hbuilt, hnode, hfamily, Fragment.mem_scalarsAt.mpr ⟨hole, hname, ?_⟩⟩
    simp [Fragment.isBlock, showing?, hv, Value.showing, Showing.isBlock]

theorem Stands.anchored (h : i.Stands source d L) (hmade : i.block.IsOf (source i.block))
    (hsteady : i.Steady source) : i.Anchored d := by
  intro path index hole node value leaf he hv hleaf
  obtain ⟨site, hbuilt, rfl, hfamily, hindex⟩ := h.site hmade he hv
  have hchild := hbuilt.childAt? index
  split at hchild
  · rw [hchild] at hleaf
    simp at hleaf
  · rename_i f hf
    obtain ⟨K, hK, hplaced⟩ := hchild
    obtain rfl := Option.some.inj (hK.symm.trans hleaf)
    exact hplaced.isText (hsteady site.children hfamily index hindex f hf)

theorem Stands.reaching (h : i.Stands source d L) (hmade : i.block.IsOf (source i.block))
    (hroomy : i.Roomy source) : i.Reaching d := by
  intro path index hole node value he hv hnone
  obtain ⟨site, hbuilt, rfl, hfamily, hindex⟩ := h.site hmade he hv
  have hchild := hbuilt.childAt? index
  rw [List.getElem?_eq_getElem (hroomy site.children hfamily index hindex)] at hchild
  obtain ⟨K, hK, -⟩ := hchild
  rw [hK] at hnone
  simp at hnone

/-- A nested instance that an edit reads stands in the instance that does. -/
theorem Stands.uses {n : Instance} (h : i.Stands source d L) (hmade : i.block.IsOf (source i.block))
    (hn : i.Uses n) : ∃ K, n.Stands source d K ∧ K.ids ⊆ L.ids := by
  obtain ⟨e, he, hv⟩ := hn
  cases h with
  | intro _ _ placed nested =>
    have hscalar : ∀ value, i.showing? source e.hole ≠ some (.scalar value) := by
      simp [showing?, hv, Value.showing]
    obtain ⟨K, hK⟩ := placed.held hv hscalar (hmade.mem_holes.mpr ⟨e, he, rfl⟩)
    exact ⟨K, nested n K hK, (Fragment.ids_of_mem_held hK).1⟩

/-- What follows for an instance from where it stands follows for all that it uses. -/
theorem Stands.throughout {P Q : Instance → Prop} (h : i.Stands source d L)
    (hmade : i.MadeFrom source) (hP : i.Throughout P)
    (himp : ∀ j K, j.Stands source d K → j.block.IsOf (source j.block) → P j → Q j) :
    i.Throughout Q := by
  induction hP generalizing L with
  | @intro i hi _ ih =>
    refine .intro (himp i L h hmade.here hi) fun n hn => ?_
    obtain ⟨K, hK, -⟩ := h.uses hmade.here hn
    exact ih n hn hK (hmade.nested hn)

/-- The nodes that the instance knows, at any depth, are those at which it stands. -/
theorem Stands.resolved (h : i.Stands source d L) (hmade : i.MadeFrom source) :
    i.Throughout fun j => ∀ x ∈ j.resolved, x ∈ L.ids := by
  induction hmade generalizing L with
  | @intro i hi _ ih =>
    refine .intro (fun x hx => ?_) fun n hn => ?_
    · cases h with
      | intro _ resolved _ _ =>
        rw [resolved] at hx
        exact Fragment.nodes_subset _ _ hx
    · obtain ⟨K, hK, hsub⟩ := h.uses hi hn
      exact (ih n hn hK).mono fun _ hj x hx => hsub (hj x hx)

end Instance

end Stencil
