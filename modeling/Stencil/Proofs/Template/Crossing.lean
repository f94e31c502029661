import Stencil.Proofs.Path
import Stencil.Proofs.Rendering
import Stencil.Proofs.Skeleton.Copy
/- Where the paths of edits lead. A path counts all children of an element, holes included,
   but the copy of a skeleton has no holes: what is at the end of a path in the fragment is, in
   the copy, at the end of the path that counts fixed children only (`sparse`,
   `exists_plant`). A nested instance puts the fixed children beside it out of the tree, so a
   path that takes a step past one of them is lost (`crosses`). `target` is the node that a
   path leads to at the time of its edit, or none; `childTarget` is the same for a step to one
   of the children that are still to come. -/
namespace Stencil

namespace Fragment

/-- What is at the end of a path. -/
def at? : Path → Fragment → Option Fragment
  | [], f => some f
  | index :: rest, element _ _ children => children[index]?.bind (at? rest)
  | _ :: _, _ => none

/-- The path to the same element when only fixed children are counted. -/
def sparse : Path → Fragment → Path
  | index :: rest, element _ _ children =>
    (children.take index).countP (fun f => f.hole?.isNone) ::
      match children[index]? with
      | some f => sparse rest f
      | none => rest
  | path, _ => path

/-- Whether some element on the path has a hole with a nested instance before the child that
the path goes on to. -/
def crosses (slots : String → Option Showing) : Path → Fragment → Bool
  | index :: rest, element _ _ children =>
    (children.take index).any (isBlock slots) || children[index]?.any (crosses slots rest)
  | _, _ => false

end Fragment

/-- The part of a tree at the end of a path. -/
def Tree.at? : Path → Tree → Option Tree
  | [], t => some t
  | index :: rest, .element _ _ _ children => children[index]?.bind (Tree.at? rest)
  | _ :: _, .text _ _ => none

namespace Document

theorem ShowsAll.of_getElem? {d : Document} : ∀ {ts : List Tree} {k : Nat} {t : Tree},
    d.ShowsAll ts → ts[k]? = some t → d.Shows t
  | [], _, _, _, ht => by simp at ht
  | u :: _, 0, t, h, ht => by
    obtain rfl : u = t := by simpa using ht
    exact h.1
  | _ :: rest, k + 1, t, h, ht => h.2.of_getElem? (by simpa using ht)

/-- Where a tree is shown, a path leads to the parts of the tree. -/
theorem Shows.resolve? {d : Document} {path : Path} : ∀ {t u : Tree}, d.Shows t →
    t.at? path = some u → d.resolve? t.id path = some u.id ∧ d.Shows u := by
  induction path with
  | nil =>
    intro t u h hu
    obtain rfl : t = u := by simpa [Tree.at?] using hu
    exact ⟨rfl, h⟩
  | cons index rest ih =>
    intro t u h hu
    cases t with
    | text id content => simp [Tree.at?] at hu
    | element id tag attributes children =>
      obtain ⟨c, hc, hu⟩ := Option.bind_eq_some_iff.mp hu
      obtain ⟨-, hchildren, hall⟩ := h
      obtain ⟨hresolve, hshows⟩ := ih (hall.of_getElem? hc) hu
      have hchild : d.childAt? id index = some c.id := by
        rw [childAt?, hchildren, List.getElem?_map, hc]
        rfl
      refine ⟨?_, hshows⟩
      rw [Tree.id, Document.resolve?, hchild]
      exact hresolve

end Document

namespace Fragment

open Skeleton (plant plants)

section Copies

/-- The copy of a fixed child is among the copies of the children. -/
theorem exists_plants {c : Fragment} {s : Skeleton} (hs : c.skeleton = .ok s) :
    ∀ {fs : List Fragment} {k y : Nat}, fs[k]? = some c →
      ∃ x, (plants y (skeletons fs))[(fs.take k).countP fun f => f.hole?.isNone]? =
          some (s.plant x) ∧ y ≤ x ∧ x + s.nodeCount ≤ y + Skeleton.nodeCounts (skeletons fs)
  | [], _, _, h => by simp at h
  | f :: rest, 0, y, h => by
    obtain rfl : f = c := by simpa using h
    refine ⟨y, by simp [skeletons, hs, plants], Nat.le_refl y, ?_⟩
    simp only [skeletons, hs, Skeleton.nodeCounts]
    omega
  | f :: rest, k + 1, y, h => by
    have hrest : rest[k]? = some c := by simpa using h
    cases hf : f.skeleton with
    | error name =>
      obtain rfl : f = .hole name := by cases f <;> simp_all [skeleton]
      obtain ⟨x, hx, hle, hcount⟩ := exists_plants hs (y := y) hrest
      exact ⟨x, by simpa [skeletons, hf, hole?] using hx, hle, by simpa [skeletons, hf] using hcount⟩
    | ok t =>
      obtain ⟨x, hx, hle, hcount⟩ := exists_plants hs (y := y + t.nodeCount) hrest
      refine ⟨x, by simpa [skeletons, hf, hole?_eq_none hf, plants] using hx, by omega, ?_⟩
      simp only [skeletons, hf, Skeleton.nodeCounts]
      omega

/-- **The copy has every element of the fragment**, at the path that counts fixed children
only. -/
theorem exists_plant {path : Path} : ∀ {f g : Fragment} {s t : Skeleton} {x : Nat},
    f.skeleton = .ok s → f.at? path = some g → g.skeleton = .ok t →
    ∃ y, (s.plant x).at? (sparse path f) = some (t.plant y) ∧ x ≤ y ∧
      y + t.nodeCount ≤ x + s.nodeCount := by
  induction path with
  | nil =>
    intro f g s t x hs hg ht
    obtain rfl : f = g := by simpa [at?] using hg
    obtain rfl : s = t := by simpa [hs] using ht
    exact ⟨x, by simp [sparse, Tree.at?], Nat.le_refl x, Nat.le_refl _⟩
  | cons index rest ih =>
    intro f g s t x hs hg ht
    cases f with
    | text value => simp [at?] at hg
    | hole name => simp [at?] at hg
    | element tag props children =>
      obtain rfl := Except.ok.inj hs
      obtain ⟨c, hc, hg⟩ := Option.bind_eq_some_iff.mp hg
      -- no path goes on from a hole, and none that leads to an element ends there
      obtain ⟨sc, hsc⟩ : ∃ sc, c.skeleton = .ok sc := by
        cases c with
        | hole name =>
          cases rest with
          | nil =>
            obtain rfl : .hole name = g := by simpa [at?] using hg
            simp [skeleton] at ht
          | cons => simp [at?] at hg
        | text value => exact ⟨_, rfl⟩
        | element tag props kids => exact ⟨_, rfl⟩
      obtain ⟨z, hz, hlez, hcountz⟩ := exists_plants hsc (y := x + 1) hc
      obtain ⟨y, hy, hle, hcount⟩ := ih (x := z) hsc hg ht
      refine ⟨y, ?_, by omega, ?_⟩
      · simp [sparse, hc, plant, Tree.at?, hz, hy]
      · simp only [Skeleton.nodeCount]
        omega

end Copies

section Edits

/-- A hole among the children is an edit of the element. -/
theorem childEdits_hole (path : Path) (index : Nat) (name : String) (rest : List Fragment) :
    childEdits (.ofPath path) index (.hole name :: rest) =
      .child path index name :: childEdits (.ofPath path) (index + 1) rest := by
  simp [childEdits, hole?, Cursor.toPath_ofPath]

/-- A fixed child has its own edits. -/
theorem childEdits_fixed {f : Fragment} (hf : f.hole? = none) (path : Path) (index : Nat)
    (rest : List Fragment) :
    childEdits (.ofPath path) index (f :: rest) =
      f.edits (.ofPath (path ++ [index])) ++ childEdits (.ofPath path) (index + 1) rest := by
  simp [childEdits, hf, Cursor.ofPath_append]

theorem PropList.path_of_mem_edits {c : Cursor} {props : PropList} {e : Edit}
    (h : e ∈ props.edits c) : e.path = c.toPath := by
  induction props with
  | nil => simp [PropList.edits] at h
  | cons p rest ih =>
    obtain ⟨name, value⟩ := p
    cases value with
    | fixed value => exact ih h
    | hole hole =>
      rcases List.mem_cons.mp h with rfl | h
      · rfl
      · exact ih h

/-- The path goes on to an element of the fragment. -/
def Reaches (path : Path) (f : Fragment) (e : Edit) (more : Path) : Prop :=
  e.path = path ++ more ∧ ∃ tag props children, f.at? more = some (element tag props children)

mutual
/-- Every edit of a fragment is at an element of it. -/
theorem reaches_of_mem_edits (path : Path) : ∀ {f : Fragment} {e : Edit},
    e ∈ f.edits (.ofPath path) → ∃ more, Reaches path f e more
  | .text _, e, h => by simp [edits] at h
  | .hole _, e, h => by simp [edits] at h
  | .element tag props children, e, h => by
    rcases List.mem_append.mp h with h | h
    · refine ⟨[], ?_, tag, props, children, rfl⟩
      rw [PropList.path_of_mem_edits h, Cursor.toPath_ofPath, List.append_nil]
    · rcases reaches_of_mem_childEdits path 0 h with hpath | ⟨k, c, more, hc, hmore, hat⟩
      · exact ⟨[], by rw [hpath, List.append_nil], tag, props, children, rfl⟩
      · rw [Nat.zero_add] at hmore
        exact ⟨k :: more, by simpa using hmore, by simpa [at?, hc] using hat⟩

/-- Every edit of the children of an element, from some child on, is at the element, or at an
element of one of these children. -/
theorem reaches_of_mem_childEdits (path : Path) (index : Nat) : ∀ {fs : List Fragment} {e : Edit},
    e ∈ childEdits (.ofPath path) index fs →
    e.path = path ∨ ∃ k f more, fs[k]? = some f ∧ Reaches (path ++ [index + k]) f e more
  | [], e, h => by simp [childEdits] at h
  | f :: rest, e, h => by
    have hrest : e ∈ childEdits (.ofPath path) (index + 1) rest → e.path = path ∨
        ∃ k g more, (f :: rest)[k]? = some g ∧ Reaches (path ++ [index + k]) g e more := by
      intro h
      rcases reaches_of_mem_childEdits path (index + 1) h with hpath | ⟨k, g, more, hg, hreaches⟩
      · exact .inl hpath
      · refine .inr ⟨k + 1, g, more, by simpa using hg, ?_⟩
        rwa [show index + (k + 1) = index + 1 + k by omega]
    simp only [childEdits] at h
    split at h
    · rcases List.mem_cons.mp h with rfl | h
      · exact .inl (by rw [Edit.path, Cursor.toPath_ofPath])
      · exact hrest h
    · rcases List.mem_append.mp h with h | h
      · rw [← Cursor.ofPath_append] at h
        obtain ⟨more, hreaches⟩ := reaches_of_mem_edits (path ++ [index]) h
        exact .inr ⟨0, f, more, rfl, by simpa using hreaches⟩
      · exact hrest h
end

end Edits

section Targets

variable {slots : String → Option Showing} {f : Fragment} {fs : List Fragment} {s : Skeleton}
  {x y k : Nat} {covered : Bool} {name : String} {path : Path}

/-- The node that a path leads to at the time of its edit, in a copy from the node `x` on. -/
def target (slots : String → Option Showing) (f : Fragment) (s : Skeleton) (x : Nat) (path : Path) :
    Option Nat :=
  if f.crosses slots path then none else ((s.plant x).at? (sparse path f)).map Tree.id

/-- The node that a path from the child `k` of these leads to at the time of its edit, when the
copies of the fixed ones have the nodes from `y` on, unless a nested instance has covered
them. -/
def childTarget (slots : String → Option Showing) (covered : Bool) (y : Nat) (fs : List Fragment)
    (k : Nat) (path : Path) : Option Nat :=
  if covered || (fs.take k).any (isBlock slots) || fs[k]?.any (crosses slots path) then none
  else
    ((plants y (skeletons fs))[(fs.take k).countP fun f => f.hole?.isNone]?.bind
      (Tree.at? (match fs[k]? with
        | some f => sparse path f
        | none => path))).map Tree.id

theorem target_nil : f.target slots s x [] = some x := by
  cases f <;> simp [target, crosses, sparse, Tree.at?]

theorem target_cons {tag : String} {props : PropList} {children : List Fragment}
    (hs : (element tag props children).skeleton = .ok s) :
    (element tag props children).target slots s x (k :: path) =
      childTarget slots false (x + 1) children k path := by
  obtain rfl := Except.ok.inj hs
  simp only [target, crosses, childTarget, sparse, plant, Tree.at?, Bool.false_or]

theorem childTarget_covered : childTarget slots true y fs k path = none := by
  simp [childTarget]

theorem childTarget_zero (hs : f.skeleton = .ok s) :
    childTarget slots false y (f :: fs) 0 path = f.target slots s y path := by
  simp [childTarget, target, skeletons, hs, plants]

theorem childTarget_hole : childTarget slots covered y (hole name :: fs) (k + 1) path =
    childTarget slots (covered || (hole name).isBlock slots) y fs k path := by
  simp [childTarget, skeletons, skeleton, hole?, Bool.or_assoc]

theorem childTarget_static (hs : f.skeleton = .ok s) :
    childTarget slots covered y (f :: fs) (k + 1) path =
      childTarget slots covered (y + s.nodeCount) fs k path := by
  have hhole := hole?_eq_none hs
  have hblock : f.isBlock slots = false := by
    cases f <;> simp_all [isBlock, hole?]
  simp [childTarget, skeletons, hs, plants, hhole, hblock]

end Targets

end Fragment

end Stencil
