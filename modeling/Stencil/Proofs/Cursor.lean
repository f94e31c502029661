import Mathlib.Data.List.Range
import Stencil.Proofs.Path
/- What the cursors of a walk know of their paths. The frames of a cursor count down to one
   (`frames_ofPath`), so that the filling of the path finds a place for each frame and writes each
   place once, from the far end (`fill?_frames`). A walk derives cursors from cursors that it
   holds, and these stay what they are: the cursors along a path spell its prefixes, whatever else
   has been derived from them (`prefix_derive`). -/
namespace Stencil.Cursor

/-- The filling of a buffer that stops at a frame whose depth gives it no place. -/
def fill? (buffer : Array Nat) : List (Nat × Nat) → Option (Array Nat)
  | [] => some buffer
  | (depth, index) :: rest =>
    if 0 < depth ∧ depth - 1 < buffer.size then
      fill? (buffer.setIfInBounds (depth - 1) index) rest
    else none

theorem fill?_eq_some (frames : List (Nat × Nat)) (buffer : Array Nat)
    (h : ∀ f ∈ frames, 0 < f.1 ∧ f.1 ≤ buffer.size) :
    fill? buffer frames = some (fill buffer frames) := by
  induction frames generalizing buffer with
  | nil => rfl
  | cons f rest ih =>
    obtain ⟨depth, index⟩ := f
    obtain ⟨hpos, hle⟩ := h _ List.mem_cons_self
    rw [fill?, fill, if_pos ⟨hpos, by omega⟩]
    apply ih
    intro f hf
    rw [Array.size_setIfInBounds]
    exact h f (List.mem_cons_of_mem _ hf)

/-- The frames of a cursor are the indices of its path from the last to the first, each with its
place counted from one. -/
theorem frames_ofPath (path : Path) :
    (ofPath path).frames = ((path.zipIdx 1).map Prod.swap).reverse := by
  induction path using List.reverseRecOn with
  | nil => rfl
  | append_singleton path index ih =>
    rw [ofPath_append, down, frames, ih, depth_ofPath, List.zipIdx_append]
    simp [Nat.add_comm]

/-- The places that the frames of a cursor are written to: all that its path has, from the last
to the first. -/
theorem places_frames (path : Path) :
    (ofPath path).frames.map (fun f => f.1 - 1) = (List.range path.length).reverse := by
  have hplaces : (path.zipIdx 1).map (fun p => p.2 - 1) = List.range path.length := by
    calc (path.zipIdx 1).map (fun p => p.2 - 1)
        = ((path.zipIdx 1).map Prod.snd).map (· - 1) := by rw [List.map_map]; rfl
      _ = (List.range' 1 path.length).map (· - 1) := by rw [List.zipIdx_map_snd]
      _ = List.range' 0 path.length := List.map_sub_range' (Nat.le_refl 1) path.length
      _ = List.range path.length := List.range_eq_range'.symm
  rw [frames_ofPath, List.map_reverse, List.map_map, ← hplaces]
  rfl

/-- No frame of a cursor lacks its place. -/
theorem fill?_frames (path : Path) :
    fill? (Array.replicate path.length 0) (ofPath path).frames = some path.toArray := by
  have hfill : fill (Array.replicate path.length 0) (ofPath path).frames = path.toArray := by
    apply Array.toList_inj.mp
    rw [fill_frames _ _ (by simp)]
    simp
  rw [fill?_eq_some, hfill]
  intro f hf
  rw [frames_ofPath, List.mem_reverse, List.mem_map] at hf
  obtain ⟨p, hp, rfl⟩ := hf
  have hp := List.mem_zipIdx hp
  simp only [Prod.fst_swap, Array.size_replicate]
  omega

/-- The cursor stands at the end of the path: it is as deep as the path is long, and the path is
written out from its frames. Each frame has a place in the buffer that is as long as the cursor
is deep, and each place is written once, from the far end. -/
structure Spells (c : Cursor) (path : Path) : Prop where
  depth : c.depth = path.length
  toPath : c.toPath = path
  isEmpty : c.toPath.isEmpty = true ↔ path.length = 0
  fills : fill? (Array.replicate c.depth 0) c.frames = some c.toPath.toArray
  once : c.frames.map (fun f => f.1 - 1) = (List.range c.depth).reverse

theorem spells_ofPath (path : Path) : (ofPath path).Spells path where
  depth := depth_ofPath path
  toPath := toPath_ofPath path
  isEmpty := by rw [toPath_ofPath, List.isEmpty_iff_length_eq_zero]
  fills := by rw [depth_ofPath, toPath_ofPath, fill?_frames]
  once := by rw [depth_ofPath, places_frames]

/-- The cursors that are held after some more have been derived. Each step goes one down from the
cursor at a place, and puts the new cursor last. -/
def derive (held : List Cursor) : List (Nat × Nat) → List Cursor
  | [] => held
  | (place, index) :: rest => derive (held ++ (held[place]?.map (·.down index)).toList) rest

theorem prefix_derive (held : List Cursor) (steps : List (Nat × Nat)) :
    held <+: derive held steps := by
  induction steps generalizing held with
  | nil => exact List.prefix_refl _
  | cons step rest ih => exact (List.prefix_append _ _).trans (ih _)

theorem getElem?_along (c : Cursor) (path : Path) {k : Nat} (h : k ≤ path.length) :
    (c.along path)[k]? = some ((path.take k).foldl down c) := by
  induction path generalizing c k with
  | nil =>
    obtain rfl : k = 0 := Nat.le_zero.mp h
    rfl
  | cons index path ih =>
    cases k with
    | zero => rfl
    | succ k => exact ih (c.down index) (Nat.le_of_succ_le_succ h)

/-- **A cursor spells its path, and goes on spelling it.** The cursor that is reached from the root
by the steps of a path spells that path. Of the cursors on the way each spells the part of the path
that leads to it, and each cursor one step below it spells this part and the step, also when any
number of further cursors has been derived, from these or from one another. -/
theorem along_spells (path : Path) (steps : List (Nat × Nat)) :
    (ofPath path).Spells path ∧
    ∀ k ≤ path.length, ∃ c, (derive (root.along path) steps)[k]? = some c ∧
      c.Spells (path.take k) ∧ ∀ index, (c.down index).Spells (path.take k ++ [index]) := by
  refine ⟨spells_ofPath path, fun k hk => ?_⟩
  have halong : (root.along path)[k]? = some (ofPath (path.take k)) := getElem?_along root path hk
  obtain ⟨more, hmore⟩ := prefix_derive (root.along path) steps
  refine ⟨ofPath (path.take k), ?_, spells_ofPath _, fun index => ?_⟩
  · rw [← hmore, List.getElem?_append_left (List.getElem?_eq_some_iff.mp halong).1, halong]
  · rw [← ofPath_append]
    exact spells_ofPath _

/-- Two children are derived from the cursor in the middle of a path. -/
example : (derive (root.along [2, 0, 1]) [(1, 4), (1, 5)]).map toPath =
    [[], [2], [2, 0], [2, 0, 1], [2, 4], [2, 5]] := by decide

end Stencil.Cursor
