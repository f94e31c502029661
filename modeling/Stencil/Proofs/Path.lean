import Mathlib.Data.List.Induction
import Stencil.Document.Basic
import Stencil.Path
/- Cursors and paths. The cursor that a walk along a path ends at gives that path back
   (`toPath_ofPath`), and a path in two parts is followed one part after the other. -/
namespace Stencil

namespace Cursor

/-- The cursor at the end of a path from the root. -/
def ofPath (path : Path) : Cursor :=
  path.foldl down root

theorem ofPath_append (path : Path) (index : Nat) :
    ofPath (path ++ [index]) = (ofPath path).down index := by
  simp [ofPath]

theorem depth_ofPath (path : Path) : (ofPath path).depth = path.length := by
  induction path using List.reverseRecOn with
  | nil => rfl
  | append_singleton path index ih =>
    rw [ofPath_append]
    show (ofPath path).depth + 1 = _
    rw [ih]
    simp

/-- The frames of a cursor fill in the first places of a buffer that is long enough. -/
theorem fill_frames (path : Path) (buffer : Array Nat) (h : path.length ≤ buffer.size) :
    (fill buffer (ofPath path).frames).toList = path ++ buffer.toList.drop path.length := by
  induction path using List.reverseRecOn generalizing buffer with
  | nil => simp [ofPath, frames, fill]
  | append_singleton path index ih =>
    simp only [List.length_append, List.length_singleton] at h ⊢
    have hlt : path.length < (buffer.toList.set path.length index).length := by
      simp
      omega
    simp only [ofPath_append, down, frames, fill, depth_ofPath, Nat.add_sub_cancel]
    rw [ih _ (by simp; omega), Array.toList_setIfInBounds, List.drop_eq_getElem_cons hlt,
      List.drop_set_of_lt (Nat.lt_succ_self _)]
    simp

theorem toPath_ofPath (path : Path) : (ofPath path).toPath = path := by
  rw [toPath, depth_ofPath, fill_frames _ _ (by simp)]
  simp

end Cursor

theorem Document.resolve?_append (d : Document) (node : Nat) (path rest : Path) :
    d.resolve? node (path ++ rest) = (d.resolve? node path).bind fun x => d.resolve? x rest := by
  induction path generalizing node with
  | nil => simp [resolve?]
  | cons index path ih =>
    simp only [List.cons_append, resolve?]
    cases d.childAt? node index with
    | none => rfl
    | some child => exact ih child

end Stencil
