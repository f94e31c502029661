import Stencil.Template.Compile
/- What compiling a fragment into a block keeps of it: the block has the fragment's
   skeleton and its edits from the root (`IsOf`), and the edits have the fragment's
   holes in reading order. -/
namespace Stencil

namespace Block

/-- The block comes of compiling the fragment, under some options. -/
def IsOf (b : Block) (f : Fragment) : Prop :=
  ∃ options, (f.toBlock b.serial b.slots options).result = .ok b

theorem parts_of_result {f : Fragment} {serial : Nat} {slots : List String}
    {options : TemplateOptions} {b : Block}
    (h : (f.toBlock serial slots options).result = .ok b) :
    f.split = .ok ⟨b.skeleton, b.edits⟩ := by
  simp only [Fragment.toBlock, Fragment.compile] at h
  cases hsplit : f.split with
  | error e => simp [hsplit, Report.andThen] at h
  | ok parts =>
    cases hdup : if options.rejectDuplicateHoles then Edit.duplicateHole? parts.edits else none with
    | some dup => simp [hsplit, hdup, Report.andThen] at h
    | none =>
      simp only [hsplit, hdup, Report.andThen, Parts.toBlock] at h
      split at h
      · simp at h
      · split at h
        · simp at h
        · simp only [Except.ok.injEq] at h
          subst h
          rfl

theorem IsOf.split {b : Block} {f : Fragment} (h : b.IsOf f) :
    f.split = .ok ⟨b.skeleton, b.edits⟩ := by
  obtain ⟨options, h⟩ := h
  exact parts_of_result h

theorem IsOf.skeleton {b : Block} {f : Fragment} (h : b.IsOf f) : f.skeleton = .ok b.skeleton := by
  have hsplit := h.split
  simp only [Fragment.split] at hsplit
  split at hsplit
  · rename_i s hs
    simp only [Except.ok.injEq, Parts.mk.injEq] at hsplit
    rw [hs, hsplit.1]
  · simp at hsplit

theorem IsOf.edits {b : Block} {f : Fragment} (h : b.IsOf f) : b.edits = f.edits .root := by
  have hsplit := h.split
  simp only [Fragment.split] at hsplit
  split at hsplit
  · simp only [Except.ok.injEq, Parts.mk.injEq] at hsplit
    exact hsplit.2.symm
  · simp at hsplit

end Block

theorem PropList.map_hole_edits (c : Cursor) (props : PropList) :
    (props.edits c).map Edit.hole = props.filterMap fun p => p.2.hole? := by
  induction props with
  | nil => rfl
  | cons p rest ih =>
    obtain ⟨name, value⟩ := p
    cases value with
    | fixed value => simpa [PropList.edits, PropValue.hole?] using ih
    | hole hole => simpa [PropList.edits, PropValue.hole?, Edit.hole] using ih

namespace Fragment

mutual
theorem map_hole_edits (c : Cursor) : ∀ {f : Fragment}, f.hole? = none →
    (f.edits c).map Edit.hole = f.holes
  | .text _, _ => rfl
  | .hole _, h => by simp [hole?] at h
  | .element tag props children, _ => by
    simp [edits, holes, PropList.map_hole_edits, map_hole_childEdits c 0 children]

theorem map_hole_childEdits (c : Cursor) (index : Nat) : ∀ fs : List Fragment,
    (childEdits c index fs).map Edit.hole = allHoles fs
  | [] => rfl
  | f :: rest => by
    have hrest := map_hole_childEdits c (index + 1) rest
    cases hf : f.hole? with
    | none =>
      simp [childEdits, hf, allHoles, hrest, map_hole_edits (c.down index) hf]
    | some name =>
      obtain rfl : f = .hole name := by
        cases f <;> simp_all [hole?]
      simp [childEdits, hole?, allHoles, hrest, holes, Edit.hole]
end

/-- A fragment that is no hole has a skeleton. -/
theorem hole?_eq_none {f : Fragment} {s : Skeleton} (h : f.skeleton = .ok s) : f.hole? = none := by
  cases f <;> simp_all [skeleton, hole?]

theorem mem_holes_iff {f : Fragment} (h : f.hole? = none) (c : Cursor) {hole : String} :
    hole ∈ f.holes ↔ ∃ e ∈ f.edits c, e.hole = hole := by
  rw [← map_hole_edits c h, List.mem_map]

end Fragment

/-- The edits of a block read the holes of its fragment. -/
theorem Block.IsOf.mem_holes {b : Block} {f : Fragment} (h : b.IsOf f) {hole : String} :
    hole ∈ f.holes ↔ ∃ e ∈ b.edits, e.hole = hole := by
  rw [h.edits]
  exact Fragment.mem_holes_iff (Fragment.hole?_eq_none h.skeleton) .root

end Stencil
