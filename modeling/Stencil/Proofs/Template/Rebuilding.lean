import Stencil.Document.Basic
import Stencil.Proofs.Template.Crossing
/- Compiling a fragment loses nothing. The fragment is rebuilt from the skeleton by putting
   the edits back in their order, each at the end of its path in what is rebuilt so far
   (`rebuild?`). What comes of it is the fragment with its texts rendered and the holes of
   each element's properties behind its fixed ones (`normal`). An edit of a child is the
   child's own edit with one step more on its path (`edits_under`), and putting it back in the
   element changes this child only (`rebuild?_under`), so the induction on the fragment keeps
   paths that start at the element in hand. -/
namespace Stencil

mutual
/-- The skeleton as a fragment, which has no holes. -/
def Skeleton.toFragment : Skeleton → Fragment
  | .text content => .text (.str content)
  | .element tag attributes children =>
    .element tag (attributes.map fun p => (p.1, .fixed p.2)) (toFragments children)

/-- The skeletons as fragments. -/
def Skeleton.toFragments : List Skeleton → List Fragment
  | [] => []
  | s :: rest => s.toFragment :: toFragments rest
end

namespace Edit

/-- The edit as the elements above see it, from which these steps lead down. -/
def under (above : Path) : Edit → Edit
  | attr path name hole => attr (above ++ path) name hole
  | child path index hole => child (above ++ path) index hole

/-- Whether the edit is for a child. -/
def isChild : Edit → Bool
  | attr .. => false
  | child .. => true

end Edit

namespace PropList

/-- The fixed properties, and behind them the holes, each in their order. -/
def normal (props : PropList) : PropList :=
  props.filter (fun p => p.2.hole?.isNone) ++ props.filter (fun p => p.2.hole?.isSome)

theorem fixed_eq_filter (props : PropList) :
    (props.fixed.map fun p => (p.1, PropValue.fixed p.2)) =
      props.filter fun p => p.2.hole?.isNone := by
  induction props with
  | nil => rfl
  | cons p rest ih =>
    obtain ⟨name, value⟩ := p
    cases value <;> simp [fixed, PropValue.hole?, ih]

theorem edits_under (above path : Path) (props : PropList) :
    props.edits (.ofPath (above ++ path)) = (props.edits (.ofPath path)).map (Edit.under above) := by
  induction props with
  | nil => rfl
  | cons p rest ih =>
    obtain ⟨name, value⟩ := p
    cases value with
    | fixed value => exact ih
    | hole slot => simp [edits, Cursor.toPath_ofPath, Edit.under, ih]

theorem countP_edits (c : Cursor) (props : PropList) : (props.edits c).countP Edit.isChild = 0 := by
  induction props with
  | nil => rfl
  | cons p rest ih =>
    obtain ⟨name, value⟩ := p
    cases value with
    | fixed value => exact ih
    | hole slot => simp [edits, Edit.isChild, ih]

theorem mem_edits_iff {c : Cursor} {props : PropList} {e : Edit} :
    e ∈ props.edits c ↔ ∃ name slot, (name, PropValue.hole slot) ∈ props ∧
      e = .attr c.toPath name slot := by
  induction props with
  | nil => simp [edits]
  | cons p rest ih =>
    obtain ⟨name, value⟩ := p
    cases value with
    | fixed value => simp [edits, ih]
    | hole slot =>
      simp only [edits, List.mem_cons, ih]
      grind

end PropList

namespace Fragment

mutual
/-- The fragment with its texts rendered and its properties in normal order. -/
def normal : Fragment → Fragment
  | text value => text (.str value.text)
  | hole name => hole name
  | element tag props children => element tag props.normal (normals children)

/-- The fragments in normal form. -/
def normals : List Fragment → List Fragment
  | [] => []
  | f :: rest => f.normal :: normals rest
end

mutual
/-- The number of nodes, holes among the children included. -/
def nodeCount : Fragment → Nat
  | text _ => 1
  | hole _ => 1
  | element _ _ children => 1 + nodeCounts children

/-- The number of nodes of a list of fragments. -/
def nodeCounts : List Fragment → Nat
  | [] => 0
  | f :: rest => f.nodeCount + nodeCounts rest
end

/-- The fragment with a change made at the end of a path, unless the path leads nowhere. -/
def alter? (change : Fragment → Option Fragment) : Path → Fragment → Option Fragment
  | [], f => change f
  | index :: rest, element tag props children => do
    let child ← children[index]?
    let altered ← alter? change rest child
    return element tag props (children.set index altered)
  | _ :: _, _ => none

/-- The element with a hole as one more property. -/
def addProp? (name slot : String) : Fragment → Option Fragment
  | element tag props children => some (element tag (props ++ [(name, .hole slot)]) children)
  | _ => none

/-- The element with a hole as one more child, at an index that is in range. -/
def addChild? (index : Nat) (slot : String) : Fragment → Option Fragment
  | element tag props children =>
    if index ≤ children.length then
      some (element tag props (Document.insertAt index (hole slot) children))
    else none
  | _ => none

/-- The fragment with the slot of an edit put back as a hole. -/
def putBack? (f : Fragment) : Edit → Option Fragment
  | .attr path name slot => f.alter? (addProp? name slot) path
  | .child path index slot => f.alter? (addChild? index slot) path

/-- The fragment with the slots of the edits put back in turn. -/
def rebuild? (f : Fragment) (edits : List Edit) : Option Fragment :=
  edits.foldlM putBack? f

/-- The edit names a place of the fragment that is a hole: a property, a child, or a place
within a child. -/
inductive HasSlot : Fragment → Edit → Prop
  | prop {tag : String} {props : PropList} {children : List Fragment} {name slot : String}
      (h : (name, .hole slot) ∈ props) :
      HasSlot (element tag props children) (.attr [] name slot)
  | child {tag : String} {props : PropList} {children : List Fragment} {index : Nat}
      {slot : String} (h : children[index]? = some (hole slot)) :
      HasSlot (element tag props children) (.child [] index slot)
  | under {tag : String} {props : PropList} {children : List Fragment} {index : Nat}
      {f : Fragment} {e : Edit} (h : children[index]? = some f) (hslot : HasSlot f e) :
      HasSlot (element tag props children) (e.under [index])

section Under

/-! The edits of a fragment that stands further down are its own edits, further down. -/

mutual
theorem edits_under (above path : Path) : ∀ f : Fragment,
    f.edits (.ofPath (above ++ path)) = (f.edits (.ofPath path)).map (Edit.under above)
  | text _ => rfl
  | hole _ => rfl
  | element _ props children => by
    rw [edits, edits, List.map_append, PropList.edits_under, childEdits_under above path 0 children]

theorem childEdits_under (above path : Path) (index : Nat) : ∀ fs : List Fragment,
    childEdits (.ofPath (above ++ path)) index fs =
      (childEdits (.ofPath path) index fs).map (Edit.under above)
  | [] => rfl
  | f :: rest => by
    have hrest := childEdits_under above path (index + 1) rest
    cases hf : f.hole? with
    | some slot => simp [childEdits, hf, hrest, Cursor.toPath_ofPath, Edit.under]
    | none =>
      have hchild := edits_under above (path ++ [index]) f
      rw [childEdits_fixed hf, childEdits_fixed hf, List.append_assoc, hchild, hrest,
        List.map_append]
end

/-- The edits of the children of the root, where a fixed one has its own, one step down. -/
theorem childEdits_root {f : Fragment} (hf : f.hole? = none) (index : Nat) (rest : List Fragment) :
    childEdits .root index (f :: rest) =
      (f.edits .root).map (Edit.under [index]) ++ childEdits .root (index + 1) rest := by
  have hchild : f.edits (.ofPath [index]) = (f.edits .root).map (Edit.under [index]) :=
    edits_under [index] [] f
  calc childEdits .root index (f :: rest)
      = f.edits (.ofPath [index]) ++ childEdits .root (index + 1) rest :=
        childEdits_fixed hf [] index rest
    _ = (f.edits .root).map (Edit.under [index]) ++ childEdits .root (index + 1) rest := by
        rw [hchild]

end Under

section Rebuild

variable {f g : Fragment} {tag : String} {props : PropList} {pre post : List Fragment}

theorem rebuild?_append (es es' : List Edit) :
    f.rebuild? (es ++ es') = (f.rebuild? es).bind fun g => g.rebuild? es' :=
  List.foldlM_append

/-- A change below a child changes this child only. -/
theorem alter?_child (change : Fragment → Option Fragment) (path : Path) :
    (element tag props (pre ++ f :: post)).alter? change (pre.length :: path) =
      (f.alter? change path).map fun g => element tag props (pre ++ g :: post) := by
  cases h : f.alter? change path <;> simp [alter?, h]

theorem putBack?_under (e : Edit) :
    (element tag props (pre ++ f :: post)).putBack? (e.under [pre.length]) =
      (f.putBack? e).map fun g => element tag props (pre ++ g :: post) := by
  cases e <;> exact alter?_child ..

/-- Edits below a child rebuild this child only. -/
theorem rebuild?_under : ∀ (es : List Edit) (f : Fragment),
    (element tag props (pre ++ f :: post)).rebuild? (es.map (Edit.under [pre.length])) =
      (f.rebuild? es).map fun g => element tag props (pre ++ g :: post)
  | [], f => rfl
  | e :: es, f => by
    simp only [rebuild?, List.map_cons, List.foldlM_cons, putBack?_under]
    cases f.putBack? e with
    | none => rfl
    | some g => exact rebuild?_under es g

/-- The edits of an element's properties put its holes behind the properties it has. -/
theorem rebuild?_props (held : PropList) (children : List Fragment) : ∀ props : PropList,
    (element tag held children).rebuild? (props.edits .root) =
      some (element tag (held ++ props.filter fun p => p.2.hole?.isSome) children)
  | [] => by simp [PropList.edits, rebuild?]
  | (name, .fixed value) :: rest => by
    simpa [PropList.edits, PropValue.hole?] using rebuild?_props held children rest
  | (name, .hole slot) :: rest => by
    have hrest := rebuild?_props (held ++ [(name, .hole slot)]) children rest
    simpa [PropList.edits, PropValue.hole?, rebuild?, putBack?, alter?, addProp?, Cursor.toPath,
      Cursor.frames, Cursor.fill, Cursor.depth] using hrest

mutual
/-- **The edits of a fragment rebuild it from its skeleton.** -/
theorem rebuild?_edits : ∀ {f : Fragment} {s : Skeleton}, f.skeleton = .ok s →
    s.toFragment.rebuild? (f.edits .root) = some f.normal
  | text value, _, h => by
    obtain rfl := Except.ok.inj h
    rfl
  | hole name, _, h => by simp [skeleton] at h
  | element tag props children, _, h => by
    obtain rfl := Except.ok.inj h
    have hchildren := rebuild?_childEdits tag props.normal [] children
    rw [edits, rebuild?_append, Skeleton.toFragment, PropList.fixed_eq_filter, rebuild?_props]
    exact hchildren

/-- When the children before these are rebuilt, the edits of these rebuild the rest: the index
of each is the number of children that are done. -/
theorem rebuild?_childEdits (tag : String) (props : PropList) (done : List Fragment) :
    ∀ fs : List Fragment,
      (element tag props (done ++ Skeleton.toFragments (skeletons fs))).rebuild?
          (childEdits .root done.length fs) = some (element tag props (done ++ normals fs))
  | [] => rfl
  | f :: rest => by
    have hlength (g : Fragment) : (done ++ [g]).length = done.length + 1 := by simp
    cases hf : f.skeleton with
    | error name =>
      obtain rfl : f = .hole name := by cases f <;> simp_all [skeleton]
      have hrest := rebuild?_childEdits tag props (done ++ [.hole name]) rest
      rw [hlength] at hrest
      simpa [skeletons, skeleton, childEdits, hole?, rebuild?, putBack?, alter?, addChild?, normals,
        normal, Document.insertAt, Cursor.toPath, Cursor.frames, Cursor.fill, Cursor.depth] using hrest
    | ok s =>
      have hrest := rebuild?_childEdits tag props (done ++ [f.normal]) rest
      rw [hlength, List.append_assoc, List.append_assoc] at hrest
      let unbuilt := Skeleton.toFragments (skeletons rest)
      let own := (f.edits .root).map (Edit.under [done.length])
      let others := childEdits .root (done.length + 1) rest
      calc (element tag props (done ++ Skeleton.toFragments (skeletons (f :: rest)))).rebuild?
            (childEdits .root done.length (f :: rest))
          = (element tag props (done ++ s.toFragment :: unbuilt)).rebuild? (own ++ others) := by
            rw [childEdits_root (hole?_eq_none hf), skeletons, hf]
            rfl
        _ = (element tag props (done ++ f.normal :: unbuilt)).rebuild? others := by
            rw [rebuild?_append, rebuild?_under, rebuild?_edits hf]
            rfl
        _ = some (element tag props (done ++ normals (f :: rest))) := hrest
end

end Rebuild

section Counts

mutual
theorem nodeCount_skeleton : ∀ {f : Fragment} {s : Skeleton}, f.skeleton = .ok s → ∀ c : Cursor,
    s.nodeCount + (f.edits c).countP Edit.isChild = f.nodeCount
  | text value, _, h, _ => by
    obtain rfl := Except.ok.inj h
    rfl
  | hole name, _, h, _ => by simp [skeleton] at h
  | element tag props children, _, h, c => by
    obtain rfl := Except.ok.inj h
    have := nodeCounts_skeletons c 0 children
    simp only [Skeleton.nodeCount, edits, List.countP_append, PropList.countP_edits, nodeCount]
    omega

theorem nodeCounts_skeletons (c : Cursor) (index : Nat) : ∀ fs : List Fragment,
    Skeleton.nodeCounts (skeletons fs) + (childEdits c index fs).countP Edit.isChild = nodeCounts fs
  | [] => rfl
  | f :: rest => by
    have hrest := nodeCounts_skeletons c (index + 1) rest
    cases hf : f.skeleton with
    | error name =>
      obtain rfl : f = .hole name := by cases f <;> simp_all [skeleton]
      simp only [skeletons, skeleton, childEdits, hole?, List.countP_cons, Edit.isChild, if_true,
        nodeCounts, nodeCount]
      omega
    | ok s =>
      have hchild := nodeCount_skeleton hf (c.down index)
      simp only [skeletons, hf, childEdits, hole?_eq_none hf, Skeleton.nodeCounts, nodeCounts,
        List.countP_append]
      omega
end

mutual
theorem hasHoles_eq_false_iff : ∀ f : Fragment, f.hasHoles = false ↔ f.holes = []
  | text _ => by simp [hasHoles, holes]
  | hole _ => by simp [hasHoles, holes]
  | element _ props children => by
    simp [hasHoles, holes, List.filterMap_eq_nil_iff, anyHasHoles_eq_false_iff children]

theorem anyHasHoles_eq_false_iff : ∀ fs : List Fragment,
    anyHasHoles fs = false ↔ allHoles fs = []
  | [] => by simp [anyHasHoles, allHoles]
  | f :: rest => by
    simp [anyHasHoles, allHoles, hasHoles_eq_false_iff f, anyHasHoles_eq_false_iff rest]
end

end Counts

section Slots

variable {f : Fragment} {fs : List Fragment} {e : Edit} {slot : String}

mutual
/-- Every edit names a hole of the fragment. -/
theorem hasSlot_of_mem_edits : ∀ {f : Fragment} {e : Edit}, e ∈ f.edits .root → f.HasSlot e
  | text _, _, h => by simp [edits] at h
  | hole _, _, h => by simp [edits] at h
  | element tag props children, e, h => by
    rcases List.mem_append.mp h with h | h
    · obtain ⟨name, slot, hmem, rfl⟩ := PropList.mem_edits_iff.mp h
      exact .prop hmem
    · exact hasSlot_of_mem_childEdits tag props [] h

theorem hasSlot_of_mem_childEdits (tag : String) (props : PropList) (before : List Fragment) :
    ∀ {fs : List Fragment} {e : Edit}, e ∈ childEdits .root before.length fs →
      (element tag props (before ++ fs)).HasSlot e
  | [], e, h => by simp [childEdits] at h
  | f :: rest, e, h => by
    have hrest : e ∈ childEdits .root (before.length + 1) rest →
        (element tag props (before ++ f :: rest)).HasSlot e := by
      intro h
      have h : e ∈ childEdits .root (before ++ [f]).length rest := by simpa using h
      simpa using hasSlot_of_mem_childEdits tag props (before ++ [f]) h
    have hat : (before ++ f :: rest)[before.length]? = some f := by simp
    cases hf : f.hole? with
    | some name =>
      obtain rfl : f = .hole name := by cases f <;> simp_all [hole?]
      rcases List.mem_cons.mp (childEdits_hole [] before.length name rest ▸ h) with rfl | h
      · exact .child hat
      · exact hrest h
    | none =>
      rw [childEdits_root hf, List.mem_append] at h
      rcases h with h | h
      · obtain ⟨e, he, rfl⟩ := List.mem_map.mp h
        exact .under hat (hasSlot_of_mem_edits he)
      · exact hrest h
end

theorem child_mem_childEdits : ∀ {fs : List Fragment} {k : Nat} (index : Nat),
    fs[k]? = some (hole slot) → .child [] (index + k) slot ∈ childEdits .root index fs
  | [], _, _, h => by simp at h
  | f :: rest, 0, index, h => by
    obtain rfl : f = hole slot := by simpa using h
    exact List.mem_cons_self
  | f :: rest, k + 1, index, h => by
    have h : rest[k]? = some (hole slot) := by simpa using h
    have hrest := child_mem_childEdits (index + 1) h
    rw [childEdits, show index + (k + 1) = index + 1 + k by omega]
    split
    · exact List.mem_cons_of_mem _ hrest
    · exact List.mem_append_right _ hrest

theorem under_mem_childEdits (he : e ∈ f.edits .root) : ∀ {fs : List Fragment} {k : Nat}
    (index : Nat), fs[k]? = some f → e.under [index + k] ∈ childEdits .root index fs
  | [], _, _, h => by simp at h
  | g :: rest, 0, index, h => by
    obtain rfl : g = f := by simpa using h
    have hf : g.hole? = none := by
      cases g <;> first | rfl | simp [edits] at he
    rw [childEdits_root hf]
    exact List.mem_append_left _ (List.mem_map_of_mem he)
  | g :: rest, k + 1, index, h => by
    have h : rest[k]? = some f := by simpa using h
    have hrest := under_mem_childEdits he (index + 1) h
    rw [childEdits, show index + (k + 1) = index + 1 + k by omega]
    split
    · exact List.mem_cons_of_mem _ hrest
    · exact List.mem_append_right _ hrest

/-- The edits of a fragment name its holes, and nothing else. -/
theorem mem_edits_iff : e ∈ f.edits .root ↔ f.HasSlot e := by
  refine ⟨hasSlot_of_mem_edits, fun h => ?_⟩
  induction h with
  | prop h => exact List.mem_append_left _ (PropList.mem_edits_iff.mpr ⟨_, _, h, rfl⟩)
  | @child _ _ _ index _ h =>
    have hmem := child_mem_childEdits 0 h
    rw [Nat.zero_add] at hmem
    exact List.mem_append_right _ hmem
  | @under _ _ _ index _ _ h _ ih =>
    have hmem := under_mem_childEdits ih 0 h
    rw [Nat.zero_add] at hmem
    exact List.mem_append_right _ hmem

end Slots

/-- Where no check is asked for beyond the necessary ones, every fragment that is no hole is
taken apart. -/
theorem compile_of_skeleton {f : Fragment} {s : Skeleton} (h : f.skeleton = .ok s) :
    (f.compile {}).result = .ok ⟨s, f.edits .root⟩ := by
  simp [compile, split, h]

theorem split_of_compile {f : Fragment} {parts : Parts}
    (h : (f.compile {}).result = .ok parts) : f.skeleton = .ok parts.skeleton ∧
      f.edits .root = parts.edits := by
  cases hs : f.skeleton with
  | error name => simp [compile, split, hs] at h
  | ok s =>
    rw [compile_of_skeleton hs] at h
    obtain rfl := Except.ok.inj h
    exact ⟨rfl, rfl⟩

/-- **Compiling loses nothing.** A fragment that is no hole compiles, and its edits, put back
in turn, rebuild it from its skeleton in normal form. So the edits are the holes of the
fragment, one for each and in their order; there are none only if the fragment has no holes;
each node is in the skeleton or an edit for a child; and fragments that compile to the same
parts have the same normal form. -/
theorem compile_rebuilds {f : Fragment} (h : f.hole? = none) :
    ∃ parts, (f.compile {}).result = .ok parts ∧
      parts.skeleton.toFragment.rebuild? parts.edits = some f.normal ∧
      parts.edits.map Edit.hole = f.holes ∧ (∀ e, e ∈ parts.edits ↔ f.HasSlot e) ∧
      (parts.edits = [] ↔ f.hasHoles = false) ∧
      parts.skeleton.nodeCount + parts.edits.countP Edit.isChild = f.nodeCount ∧
      ∀ g : Fragment, (g.compile {}).result = .ok parts → g.normal = f.normal := by
  obtain ⟨s, hs⟩ : ∃ s, f.skeleton = .ok s := by
    cases f with
    | hole name => simp [hole?] at h
    | text value => exact ⟨_, rfl⟩
    | element tag props children => exact ⟨_, rfl⟩
  have hholes : (f.edits .root).map Edit.hole = f.holes := map_hole_edits .root h
  have hrebuilt : s.toFragment.rebuild? (f.edits .root) = some f.normal := rebuild?_edits hs
  refine ⟨_, compile_of_skeleton hs, hrebuilt, hholes, fun e => mem_edits_iff, ?_,
    nodeCount_skeleton hs .root, fun g hg => ?_⟩
  · rw [hasHoles_eq_false_iff, ← hholes, List.map_eq_nil_iff]
  · obtain ⟨hskeleton, hedits⟩ := split_of_compile hg
    have hg := rebuild?_edits hskeleton
    rw [hedits, hrebuilt] at hg
    exact (Option.some.inj hg).symm

/-- A card, with an element that stands before a hole. -/
theorem compile_rebuilds_card :
    Sample.card.hole? = none ∧ ∃ parts, (Sample.card.compile {}).result = .ok parts ∧
      parts.skeleton.toFragment.rebuild? parts.edits = some Sample.card.normal ∧
      parts.edits.map Edit.hole = ["tip", "remark", "badge"] := by
  obtain ⟨parts, hparts, hrebuilt, hholes, -⟩ := compile_rebuilds (f := Sample.card) rfl
  exact ⟨rfl, parts, hparts, hrebuilt, hholes⟩

end Fragment

end Stencil
