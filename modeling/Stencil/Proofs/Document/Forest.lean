import Mathlib.Logic.Relation
import Stencil.Proofs.Document.Linkage
/- Forests: documents in which no node is above itself. The links up from an old node stay
   among the old nodes, and new nodes have parents that came before them, so a document that
   only grows at its ends stays a forest (`Forest.sprouts`). In a forest there is a tree below
   every node (`Forest.exists_tree`). -/
namespace Stencil

namespace Document

/-- The links up lead from the first node to the second. -/
def Above (d : Document) : Nat → Nat → Prop :=
  Relation.TransGen fun x p => d.parent? x = some p

/-- No node is above itself. -/
def Forest (d : Document) : Prop :=
  ∀ x, ¬ d.Above x x

/-- Old nodes have the parent that they had or none, and a new node has one that came before
it. -/
structure Sprouts (d e : Document) : Prop where
  size_le : d.size ≤ e.size
  old : ∀ x, x < d.size → ∀ p : Nat, e.parent? x = some p → d.parent? x = some p
  new : ∀ x, d.size ≤ x → ∀ p : Nat, e.parent? x = some p → p < x

namespace Sprouts

variable {d e f : Document}

theorem refl (d : Document) : d.Sprouts d where
  size_le := Nat.le_refl _
  old _ _ _ h := h
  new x hx p h := by
    rw [parent?_of_size_le hx] at h
    simp at h

theorem trans (h : d.Sprouts e) (h' : e.Sprouts f) : d.Sprouts f where
  size_le := Nat.le_trans h.size_le h'.size_le
  old x hx p hp := h.old x hx p (h'.old x (Nat.lt_of_lt_of_le hx h.size_le) p hp)
  new x hx p hp := by
    rcases Nat.lt_or_ge x e.size with hlt | hge
    · exact h.new x hx p (h'.old x hlt p hp)
    · exact h'.new x hge p hp

/-- No link up is written. -/
theorem of_parent (hsize : d.size ≤ e.size) (h : ∀ x, e.parent? x = d.parent? x) :
    d.Sprouts e where
  size_le := hsize
  old x _ p hp := h x ▸ hp
  new x hx p hp := by
    rw [h, parent?_of_size_le hx] at hp
    simp at hp

theorem setText (d : Document) {node : Nat} (hnode : node < d.size) (content : String) :
    d.Sprouts (d.setText node content) := by
  cases htext : d.isText node with
  | true =>
    rw [Document.setText, if_pos htext]
    exact of_parent (Nat.le_of_eq (size_writeText ..).symm) (parent?_writeText d node content)
  | false =>
    constructor
    · rw [size_setText_of_element htext]
      exact Nat.le_succ _
    · intro x hx p hp
      rw [parent?_setText_of_element htext, if_neg (Nat.ne_of_lt hx)] at hp
      split at hp
      · simp at hp
      · exact hp
    · intro x hx p hp
      rw [parent?_setText_of_element htext, parent?_of_size_le hx] at hp
      split at hp
      · obtain rfl := Option.some.inj hp
        exact Nat.lt_of_lt_of_le hnode hx
      · split at hp <;> simp at hp

end Sprouts

section Forest

variable {d e : Document} {x y : Nat}

theorem not_above_of_parent? (h : d.parent? x = none) :
    ¬d.Above x y := by
  intro hxy
  obtain ⟨p, hp, -⟩ := Relation.TransGen.head'_iff.mp hxy
  rw [h] at hp
  cases hp

theorem forest_blank : blank.Forest := by
  intro x hx
  obtain ⟨p, hp, -⟩ := Relation.TransGen.head'_iff.mp hx
  have hlinked := linked_blank.mem_children.mpr hp
  rcases Nat.eq_zero_or_pos p with rfl | hpos
  · simp [Document.children, node?, blank, NodeKind.alone] at hlinked
  · rw [children_of_size_le hpos] at hlinked
    simp at hlinked

/-- From an old node the links up lead where they led before. -/
theorem Sprouts.above_old (h : d.Sprouts e) (hd : d.Closed) (hx : x < d.size)
    (hxy : e.Above x y) : d.Above x y ∧ y < d.size := by
  induction hxy with
  | single hp =>
    have hp := h.old x hx _ hp
    exact ⟨.single hp, hd.parent hp⟩
  | tail _ hp ih =>
    have hp := h.old _ ih.2 _ hp
    exact ⟨ih.1.tail hp, hd.parent hp⟩

/-- From a new node the links up lead to nodes that came before it. -/
theorem Sprouts.above_new (h : d.Sprouts e) (hd : d.Closed) (hx : d.size ≤ x)
    (hxy : e.Above x y) : y < x := by
  induction hxy with
  | single hp => exact h.new x hx _ hp
  | @tail y z _ hp ih =>
    rcases Nat.lt_or_ge y d.size with hlt | hge
    · have hz : z < d.size := hd.parent (h.old y hlt z hp)
      omega
    · have hz : z < y := h.new y hge z hp
      omega

/-- **A document that only grows at its ends stays a forest.** -/
theorem Forest.sprouts (hf : d.Forest) (hd : d.Closed) (h : d.Sprouts e) : e.Forest := by
  intro x hx
  rcases Nat.lt_or_ge x d.size with hlt | hge
  · exact hf x (h.above_old hd hlt hx).1
  · exact Nat.lt_irrefl x (h.above_new hd hge hx)

theorem above_of_mem_ancestorsWithin : ∀ {steps x : Nat}, y ∈ d.ancestorsWithin steps x →
    d.Above x y
  | 0, x, h => by simp [ancestorsWithin] at h
  | steps + 1, x, h => by
    simp only [ancestorsWithin] at h
    split at h
    · simp at h
    · rename_i p hp
      rcases List.mem_cons.mp h with rfl | h
      · exact .single hp
      · exact .head hp (above_of_mem_ancestorsWithin h)

theorem Forest.isOwnAncestor (hf : d.Forest) (x : Nat) : d.isOwnAncestor x = false := by
  by_contra hown
  simp only [Document.isOwnAncestor, ancestors, Bool.not_eq_false, List.contains_iff_mem] at hown
  exact hf x (above_of_mem_ancestorsWithin hown)

theorem exists_mapM {α β : Type} {f : α → Option β} : ∀ {as : List α},
    (∀ a ∈ as, ∃ b, f a = some b) → ∃ bs, as.mapM f = some bs
  | [], _ => ⟨[], rfl⟩
  | a :: rest, h => by
    rw [List.forall_mem_cons] at h
    obtain ⟨b, hb⟩ := h.1
    obtain ⟨bs, hbs⟩ := exists_mapM h.2
    exact ⟨b :: bs, by simp [List.mapM_cons, hb, hbs]⟩

/-- With the nodes of a path down to a node, there are no more levels left below the node than
the document has other nodes. -/
theorem Forest.exists_treeWithin (hf : d.Forest) (hl : d.Linked) (hd : d.Closed) :
    ∀ (depth x : Nat) (path : List Nat), (x :: path).Nodup → (∀ y ∈ x :: path, y < d.size) →
      (∀ y ∈ path, d.Above x y) → d.size ≤ depth + path.length →
      ∃ t, d.treeWithin depth x = some t
  | 0, x, path, hnodup, hlt, _, hlen => by
    have := length_le_size hnodup hlt
    simp only [List.length_cons] at this
    omega
  | depth + 1, x, path, hnodup, hlt, habove, hlen => by
    have hx : x < d.size := hlt x List.mem_cons_self
    simp only [treeWithin]
    cases hk : d.kind? x with
    | none => exact absurd (kind?_eq_none.mp hk) (Nat.not_le_of_lt hx)
    | some kind =>
      cases kind with
      | text content => exact ⟨_, rfl⟩
      | element tag attributes =>
        have hbelow : ∀ c ∈ d.children x, ∃ t, d.treeWithin depth c = some t := by
          intro c hc
          have hup : d.Above c x := .single (hl.mem_children.mp hc)
          have hpath : ∀ y ∈ x :: path, d.Above c y := by
            intro y hy
            rcases List.mem_cons.mp hy with rfl | hy
            · exact hup
            · exact hup.trans (habove y hy)
          -- a child on its own path would be above itself
          have hout : c ∉ x :: path := fun hm => hf c (hpath c hm)
          refine hf.exists_treeWithin hl hd depth c (x :: path) ?_ ?_ hpath ?_
          · exact List.nodup_cons.mpr ⟨hout, hnodup⟩
          · exact List.forall_mem_cons.mpr ⟨hd.children hc, hlt⟩
          · simp only [List.length_cons]
            omega
        obtain ⟨ts, hts⟩ := exists_mapM hbelow
        exact ⟨.element x tag attributes ts, by simp [hts]⟩

/-- **In a forest there is a tree below every node.** -/
theorem Forest.exists_tree (hf : d.Forest) (hl : d.Linked) (hd : d.Closed) (hx : x < d.size) :
    ∃ t, d.tree? x = some t := by
  simp only [tree?, hf.isOwnAncestor x, Bool.false_eq_true, if_false]
  exact hf.exists_treeWithin hl hd d.size x [] (by simp) (by simpa using hx) (by simp) (by simp)

end Forest

/-- From the bound on, the links down lead to later nodes. -/
def Rises (d : Document) (bound : Nat) : Prop :=
  ∀ x, bound ≤ x → ∀ c : Nat, c ∈ d.children x → x < c

theorem rises_size (d : Document) : d.Rises d.size := by
  intro x hx c hc
  rw [children_of_size_le hx] at hc
  simp at hc

/-- Links down that stay as they are lead to later nodes still. -/
theorem Rises.congr {d e : Document} {bound : Nat} (h : d.Rises bound)
    (hchildren : ∀ x, e.children x = d.children x) : e.Rises bound := by
  intro x hx c hc
  rw [hchildren] at hc
  exact h x hx c hc

theorem Rises.attach {d : Document} {bound parent id : Nat} (h : d.Rises bound)
    (hlt : parent < id) {place : List Nat → List Nat}
    (hplace : ∀ ids c, c ∈ place ids → c ∈ ids ∨ c = id) : (d.attach parent id place).Rises bound := by
  intro x hx c hc
  rcases mem_children_attach hplace hc with hc | ⟨rfl, rfl⟩
  · exact h x hx c hc
  · exact hlt

end Document

/-- A document sprouts if the old nodes have none but their old links up, and the new links down
lead to later nodes. -/
theorem Document.Rises.sprouts {d e : Document} (h : e.Rises d.size) (he : e.Linked)
    (hsize : d.size ≤ e.size)
    (hold : ∀ x, x < d.size → ∀ p : Nat, e.parent? x = some p → d.parent? x = some p) :
    d.Sprouts e where
  size_le := hsize
  old := hold
  new x hx p hp := by
    rcases Nat.lt_or_ge p d.size with hlt | hge
    · exact Nat.lt_of_lt_of_le hlt hx
    · exact h p hge x (he.mem_children.mpr hp)

/-- The change puts a node under none but an earlier one. -/
def Change.Descends : Change → Prop
  | .appendChild parent child => parent < child
  | .insertChild parent _ child => parent < child
  | _ => True

namespace Document

theorem Rises.apply {d : Document} {bound : Nat} (h : d.Rises bound) {c : Change}
    (hc : d.admits c = true) (hdescends : c.Descends) : (d.apply c).Rises bound := by
  cases c with
  | createElement tag id => exact h.congr (children_createElement d tag)
  | createText content id => exact h.congr (children_createText d content)
  | setAttribute node name value => exact h.congr (children_setAttribute d node name value)
  | appendChild parent child =>
    have hplace : ∀ (ids : List Nat) (c : Nat), c ∈ ids ++ [child] → c ∈ ids ∨ c = child := by
      simp
    exact (h.attach hdescends hplace).congr fun _ => children_count ..
  | insertChild parent index child =>
    have hplace : ∀ (ids : List Nat) (c : Nat), c ∈ insertAt index child ids → c ∈ ids ∨ c = child :=
      fun ids c hm => (mem_insertAt.mp hm).symm
    exact (h.attach hdescends hplace).congr fun _ => children_count ..
  | clearChildren node =>
    intro x hx c hc
    simp only [Document.apply, children_clearChildren] at hc
    split at hc
    · simp at hc
    · exact h x hx c hc
  | setText node content =>
    rw [admits_iff] at hc
    simp only [Document.apply]
    cases htext : d.isText node with
    | true =>
      intro x hx c hc
      rw [setText, if_pos htext, children_count, children_writeText] at hc
      exact h x hx c hc
    | false =>
      have hnode : node < d.size := hc node (by simp [touched, htext])
      intro x hx c hc
      rw [children_setText_of_element htext hnode] at hc
      split at hc
      · rename_i hxnode
        rw [List.mem_singleton.mp hc, hxnode]
        exact hnode
      · exact h x hx c hc

/-- Changes that put later nodes below earlier ones lead from the first document to the
second. -/
inductive Descends (d : Document) : Document → Prop where
  | refl : Descends d d
  | step {e : Document} {c : Change} :
      Descends d e → e.admits c = true → c.Descends → Descends d (e.apply c)

namespace Descends

variable {d e f : Document}

theorem trans (h : d.Descends e) (h' : e.Descends f) : d.Descends f := by
  induction h' with
  | refl => exact h
  | step _ hc hdescends ih => exact .step ih hc hdescends

theorem evolves (h : d.Descends e) : d.Evolves e := by
  induction h with
  | refl => exact .refl
  | step _ hc _ ih => exact .step ih hc

theorem applyAll : ∀ {cs : List Change} {d : Document}, d.AdmitsAll cs →
    (∀ c ∈ cs, c.Descends) → d.Descends (d.applyAll cs)
  | [], _, _, _ => .refl
  | _ :: _, _, hadmits, hcs => by
    rw [List.forall_mem_cons] at hcs
    exact (step .refl hadmits.1 hcs.1).trans (applyAll hadmits.2 hcs.2)

theorem rises {bound : Nat} (h : d.Descends e) (hd : d.Rises bound) : e.Rises bound := by
  induction h with
  | refl => exact hd
  | step _ hc hdescends ih => exact ih.apply hc hdescends

end Descends

end Document

namespace Skeleton

mutual
/-- A copy is built downwards. -/
theorem descends_copy (next : Nat) : ∀ {s : Skeleton} {c : Change}, c ∈ s.copy next → c.Descends
  | .text content, c, h => by
    obtain rfl := List.mem_singleton.mp h
    trivial
  | .element tag attributes children, c, h => by
    rcases List.mem_cons.mp h with rfl | h
    · trivial
    · rcases List.mem_append.mp h with h | h
      · obtain ⟨a, -, rfl⟩ := List.mem_map.mp h
        trivial
      · exact descends_copies (Nat.lt_succ_self next) h

theorem descends_copies {parent next : Nat} (hlt : parent < next) :
    ∀ {ss : List Skeleton} {c : Change}, c ∈ copies parent next ss → c.Descends
  | [], c, h => by simp [copies] at h
  | s :: rest, c, h => by
    rcases List.mem_append.mp h with h | h
    · exact descends_copy next h
    · rcases List.mem_cons.mp h with rfl | h
      · exact hlt
      · exact descends_copies (Nat.lt_of_lt_of_le hlt (Nat.le_add_right ..)) h
end

end Skeleton

end Stencil
