import Stencil.Proofs.Document.Forest
/- Moving nodes in a forest. A node that is put under another takes along all that is below it.
   So a new way up that leads through the new link leads from below the node to above its new
   parent (`above_of_move`), and it is no circle unless the parent was below the node already
   (`Forest.move`). All other changes only cut links or grow the document at its ends; so
   calls that are grounded leave a forest (`Forest.call`). -/
namespace Stencil

/-- A node is not put under itself, or under a node below it. -/
def Call.Grounded (d : Document) : Call → Prop
  | .appendChild parent child => parent ≠ child ∧ ¬d.Above parent child
  | .insertChild parent _ child => parent ≠ child ∧ ¬d.Above parent child
  | _ => True

namespace Document

section Move

variable {d e : Document} {parent child x y : NodeId}

/-- A way up in the new document is a way up in the old one, or it leads through the new link. -/
theorem above_of_move (hmove : ∀ x, e.parent? x = if x = child then some parent else d.parent? x)
    (h : e.Above x y) :
    d.Above x y ∨ (x = child ∨ d.Above x child) ∧ (y = parent ∨ d.Above parent y) := by
  induction h with
  | @single y hy =>
    rw [hmove] at hy
    split at hy
    · rename_i hx
      exact .inr ⟨.inl hx, .inl (Option.some.inj hy).symm⟩
    · exact .inl (.single hy)
  | @tail y z _ hz ih =>
    rw [hmove] at hz
    split at hz
    · rename_i hy
      subst hy
      have hz : z = parent := (Option.some.inj hz).symm
      rcases ih with h | ⟨h, -⟩
      · exact .inr ⟨.inr h, .inl hz⟩
      · exact .inr ⟨h, .inl hz⟩
    · rcases ih with h | ⟨h, rfl | hy⟩
      · exact .inl (h.tail hz)
      · exact .inr ⟨h, .inr (.single hz)⟩
      · exact .inr ⟨h, .inr (hy.tail hz)⟩

/-- **A forest stays one if a node is put under another that is not below it.** -/
theorem Forest.move (hf : d.Forest)
    (hmove : ∀ x, e.parent? x = if x = child then some parent else d.parent? x)
    (hne : parent ≠ child) (habove : ¬d.Above parent child) : e.Forest := by
  intro x hx
  rcases above_of_move hmove hx with h | ⟨rfl | hchild, rfl | hparent⟩
  · exact hf x h
  · exact hne rfl
  · exact habove hparent
  · exact habove hchild
  · exact habove (hparent.trans hchild)

/-- An element that is put under itself is above itself. -/
example : ((blank.createElement "p").appendChild 1 1).isOwnAncestor 1 = true := by decide

end Move

section Call

variable {d : Document}

theorem Sprouts.clearChildren (d : Document) (node : NodeId) : d.Sprouts (d.clearChildren node) where
  size_le := Nat.le_of_eq (size_clearChildren d node).symm
  old x _ p hp := by
    rw [parent?_clearChildren] at hp
    split at hp
    · cases hp
    · exact hp
  new x hx p hp := by
    rw [parent?_clearChildren, parent?_of_size_le hx] at hp
    split at hp <;> cases hp

/-- A copy of a skeleton is a tree of its own. -/
theorem Sprouts.copy (hl : d.Linked) (skeleton : Skeleton) :
    d.Sprouts (d.applyAll (skeleton.copy d.size)) := by
  have hcopy := applyAll_copy skeleton d
  have hdescends : d.Descends (d.applyAll (skeleton.copy d.size)) :=
    .applyAll hcopy.admits fun _ hc => skeleton.descends_copy d.size hc
  refine (hdescends.rises (rises_size d)).sprouts (hdescends.evolves.linked hl)
    hdescends.evolves.size_le fun x hx p hp => ?_
  rwa [parent?_eq_of_node? (hcopy.old x hx)] at hp

/-- **A grounded call leaves a forest.** -/
theorem Forest.call (hf : d.Forest) (hd : d.Closed) (hl : d.Linked) {c : Call} (hc : c.Grounded d)
    (hnames : ∀ x ∈ c.names, x < d.size) : (d.applyAll (c.changes d.size)).Forest := by
  cases c with
  | createElement tag =>
    refine hf.sprouts hd (.of_parent ?_ ?_)
    · simp [applyAll, Call.changes, Document.apply]
    · simp [applyAll, Call.changes, Document.apply]
  | createText content =>
    refine hf.sprouts hd (.of_parent ?_ ?_)
    · simp [applyAll, Call.changes, Document.apply]
    · simp [applyAll, Call.changes, Document.apply]
  | cloneSkeleton skeleton => exact hf.sprouts hd (.copy hl skeleton)
  | setAttribute node name value =>
    exact hf.sprouts hd (.of_parent (Nat.le_of_eq (size_setAttribute d node name value).symm)
      (parent?_setAttribute d node name value))
  | appendChild parent child =>
    have hchild : child < d.size := hnames child (by simp [Call.names])
    exact hf.move (parent?_appendChild hchild parent) hc.1 hc.2
  | insertChild parent index child =>
    have hchild : child < d.size := hnames child (by simp [Call.names])
    exact hf.move (parent?_insertChild hchild parent index) hc.1 hc.2
  | clearChildren node => exact hf.sprouts hd (.clearChildren d node)
  | setText node content =>
    exact hf.sprouts hd (.setText d (hnames node (by simp [Call.names])) content)

end Call

end Document

end Stencil
