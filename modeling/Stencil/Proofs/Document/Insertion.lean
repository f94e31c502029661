import Mathlib.Data.List.Infix
import Mathlib.Data.List.Nodup
import Stencil.Proofs.Document.Linkage
/- Where an insertion puts a node. The index counts the children that are left once the node is
   detached, so it does not always count the children that were there before: a node that is moved
   towards the end of its own list comes to stand behind the one that had the index, and not
   before it (`insertChild_stands`). Wherever else the node was, it comes to stand before that
   one. The order of the others is kept in all cases. -/
namespace Stencil

namespace Document

section Insert

variable {α : Type} {left right ids : List α} {a b : α} {index : Nat}

theorem insertAt_length (left right : List α) (a : α) :
    insertAt left.length a (left ++ right) = left ++ a :: right := by
  simp [insertAt]

theorem insertAt_of_length_le (h : ids.length ≤ index) : insertAt index a ids = ids ++ [a] := by
  simp [insertAt, List.take_of_length_le h, List.drop_of_length_le h]

variable [DecidableEq α]

theorem filter_of_notMem (h : a ∉ ids) : ids.filter (· ≠ a) = ids := by
  refine List.filter_eq_self.mpr fun b hb => ?_
  simpa using fun hba : b = a => h (hba ▸ hb)

theorem filter_insertAt (index : Nat) (a : α) (ids : List α) :
    (insertAt index a ids).filter (· ≠ a) = ids.filter (· ≠ a) := by
  calc (insertAt index a ids).filter (· ≠ a)
      = (ids.take index ++ ids.drop index).filter (· ≠ a) := by
        rw [insertAt, List.filter_append, List.filter_append, List.filter_cons_of_neg (by simp)]
    _ = ids.filter (· ≠ a) := by rw [List.take_append_drop]

/-- An entry that is not among the first ones is put behind them. -/
theorem insertAt_filter_of_notMem (h : a ∉ left) :
    insertAt left.length a ((left ++ right).filter (· ≠ a)) =
      left ++ a :: right.filter (· ≠ a) := by
  rw [List.filter_append, filter_of_notMem h, insertAt_length]

/-- An entry that is among the first ones leaves a gap there, and is put behind one more. -/
theorem insertAt_filter_of_mem (hnodup : (left ++ b :: right).Nodup) (h : a ∈ left) :
    insertAt left.length a ((left ++ b :: right).filter (· ≠ a)) =
      left.filter (· ≠ a) ++ b :: a :: right := by
  obtain ⟨first, last, rfl⟩ := List.append_of_mem h
  rw [List.append_assoc, List.cons_append, List.nodup_middle, List.nodup_cons,
    ← List.append_assoc, List.mem_append, List.mem_append, not_or, not_or] at hnodup
  obtain ⟨⟨⟨hfirst, hlast⟩, hout⟩, -⟩ := hnodup
  have hgap : (first ++ a :: last).filter (· ≠ a) = first ++ last := by
    rw [List.filter_append, List.filter_cons_of_neg (by simp), filter_of_notMem hfirst,
      filter_of_notMem hlast]
  have hlen : (first ++ a :: last).length = (first ++ last ++ [b]).length := by
    simp only [List.length_append, List.length_cons, List.length_nil]
    omega
  calc insertAt (first ++ a :: last).length a ((first ++ a :: last ++ b :: right).filter (· ≠ a))
      = insertAt (first ++ last ++ [b]).length a (first ++ last ++ [b] ++ right) := by
        rw [List.filter_append, hgap, filter_of_notMem hout, hlen, List.append_assoc _ [b],
          List.singleton_append]
    _ = (first ++ a :: last).filter (· ≠ a) ++ b :: a :: right := by
        rw [insertAt_length, hgap, List.append_assoc _ [b], List.singleton_append]

/-- What stands next to each other in a list without repetition has consecutive indices. -/
theorem idxOf_of_infix (hnodup : ids.Nodup) (h : [a, b] <:+: ids) :
    ids.idxOf b = ids.idxOf a + 1 := by
  obtain ⟨left, right, rfl⟩ := h
  simp only [List.append_assoc, List.cons_append, List.nil_append] at hnodup ⊢
  rw [List.nodup_middle, List.nodup_cons, List.nodup_middle, List.nodup_cons] at hnodup
  obtain ⟨ha, hb, -⟩ := hnodup
  have hab : a ≠ b := by
    rintro rfl
    exact ha (by simp)
  rw [List.idxOf_append_of_notMem fun hm => hb (List.mem_append_left _ hm),
    List.idxOf_append_of_notMem fun hm => ha (List.mem_append_left _ hm)]
  simp [hab]

end Insert

section Insertion

variable {d : Document} {parent child : NodeId}

/-- The children after an insertion, in terms of those before it. -/
theorem Linked.children_insertChild (h : d.Linked) (hparent : parent < d.size) (index x : Nat) :
    (d.insertChild parent index child).children x =
      if x = parent then insertAt index child ((d.children x).filter (· ≠ child))
      else (d.children x).filter (· ≠ child) := by
  simp only [insertChild, Document.attach, children_count, children_setChildren, children_setParent,
    size_setParent, size_detach, hparent, and_true, h.children_detach]

/-- The node is next to the one that had the index: behind it if it has moved on in its own list,
and otherwise before it. -/
theorem Linked.insertChild_next (h : d.Linked) (hparent : parent < d.size) {index : Nat}
    {r : NodeId} (hr : d.childAt? parent index = some r) (hne : r ≠ child) :
    (child ∉ (d.children parent).take index →
      [child, r] <:+: (d.insertChild parent index child).children parent) ∧
    (child ∈ (d.children parent).take index →
      [r, child] <:+: (d.insertChild parent index child).children parent) := by
  obtain ⟨hlt, hget⟩ := List.getElem?_eq_some_iff.mp hr
  have hsplit : d.children parent =
      (d.children parent).take index ++ r :: (d.children parent).drop (index + 1) := by
    rw [← hget, List.cons_getElem_drop_succ, List.take_append_drop]
  have hlen : ((d.children parent).take index).length = index :=
    List.length_take_of_le (Nat.le_of_lt hlt)
  have hnodup := h.nodup parent
  rw [h.children_insertChild hparent, if_pos rfl]
  generalize (d.children parent).take index = left at hsplit hlen ⊢
  generalize (d.children parent).drop (index + 1) = right at hsplit
  rw [hsplit] at hnodup ⊢
  subst hlen
  constructor
  · intro hout
    rw [insertAt_filter_of_notMem hout, List.filter_cons_of_pos (by simpa using hne)]
    exact ⟨left, right.filter (· ≠ child), by simp⟩
  · intro hin
    rw [insertAt_filter_of_mem hnodup hin]
    exact ⟨left.filter (· ≠ child), right, by simp⟩

/-- **Where a node comes to stand that is put in at an index.** If another child of the parent
has the index at the call, the node comes to stand immediately before it, unless the node itself
was among the children before the index: then it comes to stand immediately behind. If no child
has the index, the node comes to stand last. All other children keep their order, and no other
list changes, but that the node is out of the list that it was in. -/
theorem insertChild_stands (hd : d.Reachable) (hparent : d.issued parent = true)
    (hchild : d.issued child = true) (index : Nat) :
    ∃ e, d.calls? [.insertChild parent index child] = some (e, []) ∧
      (∀ r, d.childAt? parent index = some r → r ≠ child →
        ([child, r] <:+: e.children parent ↔ child ∉ (d.children parent).take index) ∧
        (child ∈ (d.children parent).take index → [r, child] <:+: e.children parent)) ∧
      ((d.children parent).length ≤ index → [child] <:+ e.children parent) ∧
      (e.children parent).filter (· ≠ child) = (d.children parent).filter (· ≠ child) ∧
      (∀ x, x ≠ parent → d.parent? child = some x →
        e.children x = (d.children x).filter (· ≠ child)) ∧
      ∀ x, x ≠ parent → d.parent? child ≠ some x → e.children x = d.children x := by
  have hparent := issued_iff.mp hparent
  have hchild := issued_iff.mp hchild
  have hmakes := hd.closed.makes (.insertChild parent index child)
    (List.forall_mem_cons.mpr ⟨hparent, List.forall_mem_singleton.mpr hchild⟩)
  let e := d.insertChild parent index child
  have hchildren := @Linked.children_insertChild d parent child hd.linked hparent index
  have hlinked : e.Linked := hd.linked.apply hmakes.admits.1
  refine ⟨e, ?_, fun r hr hne => ?_, fun hle => ?_, ?_, fun x hx _ => ?_, fun x hx hout => ?_⟩
  · rw [hmakes.calls?]
    simp [e, Call.changes, applyAll, Document.apply]
  · obtain ⟨hbefore, hbehind⟩ := hd.linked.insertChild_next hparent hr hne
    refine ⟨⟨fun hinfix hin => ?_, hbefore⟩, hbehind⟩
    have hfirst := idxOf_of_infix (hlinked.nodup parent) hinfix
    have hlast := idxOf_of_infix (hlinked.nodup parent) (hbehind hin)
    omega
  · have hle' := (List.length_filter_le (· ≠ child) (d.children parent)).trans hle
    rw [hchildren, if_pos rfl, insertAt_of_length_le hle']
    exact List.suffix_append _ _
  · rw [hchildren, if_pos rfl, filter_insertAt, List.filter_filter]
    simp
  · rw [hchildren, if_neg hx]
  · rw [hchildren, if_neg hx]
    exact filter_of_notMem fun hm => hout (hd.linked.mem_children.mp hm)

/-- A body with two elements. -/
def couple : Document :=
  blank.applyAll [.createElement "a" 1, .createElement "b" 2, .appendChild 0 1, .appendChild 0 2]

theorem reachable_couple : couple.Reachable :=
  AdmitsAll.evolves ⟨rfl, rfl, rfl, rfl, trivial⟩

/-- The second element is moved to the front, before the first. -/
theorem insertChild_stands_couple : couple.Reachable ∧ couple.issued 0 = true ∧
    couple.issued 2 = true ∧ ∃ e, couple.calls? [.insertChild 0 0 2] = some (e, []) ∧
      e.children 0 = [2, 1] ∧ [2, 1] <:+: e.children 0 := by
  obtain ⟨e, hcalls, hnext, -⟩ := @insertChild_stands couple 0 2 reachable_couple rfl rfl 0
  obtain ⟨rfl, -⟩ := Prod.mk.inj (Option.some.inj hcalls)
  exact ⟨reachable_couple, rfl, rfl, _, rfl, rfl, (hnext 1 rfl (by decide)).1.mpr (by decide)⟩

/-- The first element is put in at the index of the second, and comes to stand behind it. -/
theorem insertChild_behind : couple.childAt? 0 1 = some 2 ∧ ∃ e,
    couple.calls? [.insertChild 0 1 1] = some (e, []) ∧ e.children 0 = [2, 1] ∧
      ¬[1, 2] <:+: e.children 0 :=
  ⟨rfl, _, rfl, rfl, by decide⟩

end Insertion

end Document

end Stencil
