import Mathlib.Data.List.Perm.Basic
import Stencil.Proofs.Document.Redrawing
import Stencil.Proofs.Skeleton.Copy
/- The links of a document. Each link is kept twice, in the children of one node and as the
   parent of the other, and every write to a link updates several nodes in turn. In a
   reachable document both sides agree (`Reachable.linked`), also where parent, child and
   former parent are the same node. The calls of the document's interface, on ids that were
   issued, are admitted changes, which create their nodes under consecutive ids
   (`calls_linked`). -/
namespace Stencil

namespace Document

/-- A node is among the children of its parent, once, and of no other. -/
structure Linked (d : Document) : Prop where
  mem_children : ∀ {p c : Nat}, c ∈ d.children p ↔ d.parent? c = some p
  nodup : ∀ p, (d.children p).Nodup

theorem linked_blank : blank.Linked := by
  have hchildren : ∀ p, blank.children p = [] := by
    intro p
    rcases Nat.eq_zero_or_pos p with rfl | hp
    · rfl
    · exact children_of_size_le hp
  have hparent : ∀ c, blank.parent? c = none := by
    intro c
    rcases Nat.eq_zero_or_pos c with rfl | hc
    · rfl
    · exact parent?_of_size_le hc
  constructor
  · intro p c
    simp [hchildren, hparent]
  · intro p
    simp [hchildren]

namespace Linked

variable {d : Document}

/-- Links that stay as they are stay consistent. -/
theorem congr {e : Document} (h : d.Linked) (hchildren : ∀ x, e.children x = d.children x)
    (hparent : ∀ x, e.parent? x = d.parent? x) : e.Linked where
  mem_children {p c} := by
    rw [hchildren, hparent]
    exact h.mem_children
  nodup p := by
    rw [hchildren]
    exact h.nodup p

theorem count (h : d.Linked) : d.count.Linked :=
  h.congr (fun _ => rfl) fun _ => rfl

theorem children_detach (h : d.Linked) (id x : Nat) :
    (d.detach id).children x = (d.children x).filter (· ≠ id) := by
  -- a list without the node is not changed by taking the node out
  have hout : d.parent? id ≠ some x → (d.children x).filter (· ≠ id) = d.children x := by
    intro hne
    refine List.filter_eq_self.mpr fun c hc => ?_
    have hc : d.parent? c = some x := h.mem_children.mp hc
    simp only [ne_eq, decide_eq_true_eq]
    rintro rfl
    exact hne hc
  unfold detach
  cases hp : d.parent? id with
  | none => exact (hout (by simp [hp])).symm
  | some p =>
    simp only [children_setChildren, children_setParent, size_setParent]
    by_cases hx : x = p
    · subst hx
      by_cases hs : x < d.size
      · simp [hs]
      · simp [hs, children_of_size_le (Nat.le_of_not_lt hs)]
    · rw [if_neg (fun hand => hx hand.1), hout]
      simpa [hp] using Ne.symm hx

theorem detach (h : d.Linked) (id : Nat) : (d.detach id).Linked where
  mem_children {p c} := by
    rw [h.children_detach, parent?_detach, List.mem_filter, h.mem_children]
    by_cases hc : c = id <;> simp [hc]
  nodup p := by
    rw [h.children_detach]
    exact (h.nodup p).filter _

/-- A node is put in some place among the children of a node, which may be itself, or the one
that it was below. -/
theorem attach (h : d.Linked) {parent id : Nat} (hparent : parent < d.size) (hid : id < d.size)
    {place : List Nat → List Nat} (hplace : ∀ ids, (place ids).Perm (id :: ids)) :
    (d.attach parent id place).Linked := by
  have hfree := h.detach id
  have hchildren (x : Nat) : (d.attach parent id place).children x =
      if x = parent then place ((d.detach id).children x) else (d.detach id).children x := by
    simp [Document.attach, children_setChildren, hparent]
  have hout (x : Nat) : id ∉ (d.detach id).children x := by
    rw [hfree.mem_children, parent?_detach]
    simp
  constructor
  · intro p c
    have hmem := hfree.mem_children (p := p) (c := c)
    rw [parent?_detach] at hmem
    rw [hchildren, parent?_attach hid]
    by_cases hc : c = id
    · subst hc
      by_cases hp : p = parent
      · simp [hp, (hplace _).mem_iff]
      · simp [hp, hout p, Ne.symm hp]
    · by_cases hp : p = parent
      · rw [if_neg hc] at hmem
        subst hp
        simpa [(hplace _).mem_iff, hc] using hmem
      · simpa [hp, hc] using hmem
  · intro p
    rw [hchildren]
    split
    · exact (hplace _).nodup_iff.mpr (List.nodup_cons.mpr ⟨hout p, hfree.nodup p⟩)
    · exact hfree.nodup p

theorem release (h : d.Linked) (id : Nat) : (d.release id).Linked where
  mem_children {p c} := by
    rw [children_release, parent?_release]
    by_cases hp : p = id
    · subst hp
      by_cases hc : c ∈ d.children p
      · simp [hc]
      · simpa [hc] using mt h.mem_children.mpr hc
    · by_cases hc : c ∈ d.children id
      · -- the node has one parent only
        have hid : d.parent? c = some id := h.mem_children.mp hc
        simpa [hp, hc, h.mem_children, hid] using Ne.symm hp
      · simp [hp, hc, h.mem_children]
  nodup p := by
    rw [children_release]
    split
    · exact List.nodup_nil
    · exact h.nodup p

theorem create (h : d.Linked) (kind : NodeKind) : (d.create kind).Linked :=
  h.congr (fun x => children_create d kind x) fun x => parent?_create d kind x

end Linked

theorem insertAt_perm {α : Type} (index : Nat) (entry : α) (entries : List α) :
    (insertAt index entry entries).Perm (entry :: entries) := by
  have hmiddle : (insertAt index entry entries).Perm
      (entry :: (entries.take index ++ entries.drop index)) := List.perm_middle
  rwa [List.take_append_drop] at hmiddle

theorem Linked.apply {d : Document} (h : d.Linked) {c : Change} (hc : d.admits c = true) :
    (d.apply c).Linked := by
  rw [admits_iff] at hc
  have happend (id : Nat) (ids : List Nat) : (ids ++ [id]).Perm (id :: ids) :=
    List.perm_append_singleton id ids
  cases c with
  | createElement tag id => exact (h.create _).count
  | createText content id => exact (h.create _).count
  | setAttribute node name value =>
    exact h.congr (children_setAttribute d node name value) (parent?_setAttribute d node name value)
  | appendChild parent child =>
    refine (h.attach ?_ ?_ (happend child)).count
    · exact hc parent (by simp [touched])
    · exact hc child (by simp [touched])
  | insertChild parent index child =>
    refine (h.attach ?_ ?_ (insertAt_perm index child)).count
    · exact hc parent (by simp [touched])
    · exact hc child (by simp [touched])
  | clearChildren node => exact (h.release node).count
  | setText node content =>
    simp only [Document.apply, setText]
    split
    · exact (h.congr (children_writeText d node content) (parent?_writeText d node content)).count
    · rename_i htext
      have hnode : node < d.size := hc node (by simp [touched, htext])
      refine ((((h.release node).count.create _).count).attach ?_ ?_ (happend _)).count
      · simpa using Nat.lt_succ_of_lt hnode
      · simp

theorem Evolves.linked {d e : Document} (h : d.Evolves e) (hd : d.Linked) : e.Linked := by
  induction h with
  | refl => exact hd
  | step _ hc ih => exact ih.apply hc

theorem Reachable.linked {d : Document} (h : d.Reachable) : d.Linked :=
  Evolves.linked h linked_blank

end Document

@[simp] theorem NodeKind.tag?_writeText (content : String) (kind : NodeKind) :
    (kind.writeText content).tag? = kind.tag? := by
  cases kind <;> rfl

namespace Document

/-- No change makes another kind of node of a node, or gives it another tag. -/
theorem tag?_apply {d : Document} {x : Nat} (hx : x < d.size) (c : Change) :
    ((d.apply c).kind? x).map NodeKind.tag? = (d.kind? x).map NodeKind.tag? := by
  have hne : x ≠ d.size := Nat.ne_of_lt hx
  cases c with
  | createElement tag id => simp [Document.apply, kind?_createElement, hne]
  | createText content id => simp [Document.apply, kind?_createText, hne]
  | setAttribute node name value => exact (Redrawn.setAttribute d node name value).tag x
  | appendChild parent child => simp [Document.apply]
  | insertChild parent index child => simp [Document.apply]
  | clearChildren node => simp [Document.apply]
  | setText node content =>
    simp only [Document.apply, setText]
    split
    · rw [kind?_count, kind?_writeText]
      split
      · cases d.kind? x <;> simp
      · rfl
    · simp [kind?_createText, hne]

theorem Evolves.tag? {d e : Document} (h : d.Evolves e) {x : Nat} (hx : x < d.size) :
    (e.kind? x).map NodeKind.tag? = (d.kind? x).map NodeKind.tag? := by
  induction h with
  | refl => rfl
  | step hde _ ih => exact (tag?_apply (Nat.lt_of_lt_of_le hx hde.size_le) _).trans ih

end Document

/-- A call of the interface of documents. -/
inductive Call where
  | createElement (tag : String)
  | createText (content : String)
  | cloneSkeleton (skeleton : Skeleton)
  | setAttribute (node : NodeId) (name : String) (value : Scalar)
  | appendChild (parent child : NodeId)
  | insertChild (parent : NodeId) (index : Nat) (child : NodeId)
  | clearChildren (node : NodeId)
  | setText (node : NodeId) (content : String)

namespace Call

/-- The ids that the call is given. -/
def names : Call → List NodeId
  | createElement _ => []
  | createText _ => []
  | cloneSkeleton _ => []
  | setAttribute node _ _ => [node]
  | appendChild parent child => [parent, child]
  | insertChild parent _ child => [parent, child]
  | clearChildren node => [node]
  | setText node _ => [node]

/-- The changes that the call makes, in a document whose next new node gets the id `next`. -/
def changes (next : NodeId) : Call → List Change
  | createElement tag => [.createElement tag next]
  | createText content => [.createText content next]
  | cloneSkeleton skeleton => skeleton.copy next
  | setAttribute node name value => [.setAttribute node name value]
  | appendChild parent child => [.appendChild parent child]
  | insertChild parent index child => [.insertChild parent index child]
  | clearChildren node => [.clearChildren node]
  | setText node content => [.setText node content]

end Call

namespace Document

/-- The ids that a change gives to new nodes. -/
def issues (d : Document) : Change → List NodeId
  | .createElement _ id => [id]
  | .createText _ id => [id]
  | .setText node _ => if d.isText node then [] else [d.nextId]
  | _ => []

/-- The document after changes in turn, and the ids of their new nodes, unless one of the
changes is not admitted. -/
def applyAll? (d : Document) : List Change → Option (Document × List NodeId)
  | [] => some (d, [])
  | c :: rest =>
    (d.applied? c).bind fun e => (e.applyAll? rest).map fun r => (r.1, d.issues c ++ r.2)

/-- The document after calls in turn, and the ids of their new nodes, unless a call comes to a
change that is not admitted. -/
def calls? (d : Document) : List Call → Option (Document × List NodeId)
  | [] => some (d, [])
  | c :: rest =>
    (d.applyAll? (c.changes d.nextId)).bind fun r =>
      (r.1.calls? rest).map fun r' => (r'.1, r.2 ++ r'.2)

/-- Each call is given ids that were issued by its turn. -/
def Knows (d : Document) : List Call → Prop
  | [] => True
  | c :: rest => (∀ x ∈ c.names, d.issued x = true) ∧
      ∀ e ids, d.applyAll? (c.changes d.nextId) = some (e, ids) → e.Knows rest

/-- The ids that changes give to new nodes. -/
def issuesAll (d : Document) : List Change → List NodeId
  | [] => []
  | c :: rest => d.issues c ++ (d.apply c).issuesAll rest

section Issues

variable {d e f : Document}

theorem issuesAll_append (cs cs' : List Change) :
    d.issuesAll (cs ++ cs') = d.issuesAll cs ++ (d.applyAll cs).issuesAll cs' := by
  induction cs generalizing d with
  | nil => rfl
  | cons c rest ih => simp [issuesAll, ih, applyAll_cons]

theorem applyAll?_of_admits : ∀ {cs : List Change} {d : Document}, d.AdmitsAll cs →
    d.applyAll? cs = some (d.applyAll cs, d.issuesAll cs)
  | [], _, _ => rfl
  | c :: rest, d, h => by
    simp [applyAll?, applied?, h.1, applyAll?_of_admits h.2, applyAll_cons, issuesAll]

theorem issuesAll_attributes (node : Nat) (pairs : List (String × Scalar)) :
    d.issuesAll (pairs.map fun a => .setAttribute node a.1 a.2) = [] := by
  induction pairs generalizing d with
  | nil => rfl
  | cons p rest ih => exact ih

theorem size_attributes (node : Nat) (pairs : List (String × Scalar)) :
    (d.applyAll (pairs.map fun a => .setAttribute node a.1 a.2)).size = d.size := by
  induction pairs generalizing d with
  | nil => rfl
  | cons p rest ih => exact ih.trans (size_setAttribute ..)

mutual
theorem issuesAll_copy : ∀ (s : Skeleton) (d : Document),
    d.issuesAll (s.copy d.size) = List.range' d.size s.nodeCount
  | .text content, d => rfl
  | .element tag attributes children, d => by
    let d₁ := d.createElement tag
    let d₂ := d₁.applyAll (attributes.map fun a => .setAttribute d.size a.1 a.2)
    have hsize : d₂.size = d.size + 1 := (size_attributes ..).trans (size_createElement ..)
    have hchildren := issuesAll_copies d.size children d₂
    calc d.issuesAll ((Skeleton.element tag attributes children).copy d.size)
        = d.size :: d₂.issuesAll (Skeleton.copies d.size (d.size + 1) children) := by
          simp only [Skeleton.copy, issuesAll, List.cons_append, issuesAll_append,
            issuesAll_attributes]
          rfl
      _ = d.size :: List.range' (d.size + 1) (Skeleton.nodeCounts children) := by
          rw [← hsize, hchildren]
      _ = List.range' d.size (1 + Skeleton.nodeCounts children) := by
          rw [Nat.add_comm 1, List.range'_succ]

theorem issuesAll_copies (parent : Nat) : ∀ (ss : List Skeleton) (d : Document),
    d.issuesAll (Skeleton.copies parent d.size ss) = List.range' d.size (Skeleton.nodeCounts ss)
  | [], d => rfl
  | s :: rest, d => by
    let d₁ := d.applyAll (s.copy d.size)
    let d₂ := d₁.appendChild parent d.size
    have hsize : d₂.size = d.size + s.nodeCount :=
      (size_appendChild ..).trans (applyAll_copy s d).size
    have hrest := issuesAll_copies parent rest d₂
    calc d.issuesAll (Skeleton.copies parent d.size (s :: rest))
        = List.range' d.size s.nodeCount ++
            d₂.issuesAll (Skeleton.copies parent (d.size + s.nodeCount) rest) := by
          simp only [Skeleton.copies, issuesAll_append, issuesAll_copy s d]
          rfl
      _ = List.range' d.size s.nodeCount ++
            List.range' (d.size + s.nodeCount) (Skeleton.nodeCounts rest) := by
          rw [← hsize, hrest]
      _ = List.range' d.size (s.nodeCount + Skeleton.nodeCounts rest) := by
          rw [← List.range'_append]
          simp
end

end Issues

/-- Changes are admitted in turn, and create their nodes under the ids that come next. -/
structure Makes (d : Document) (cs : List Change) : Prop where
  admits : d.AdmitsAll cs
  issues : d.issuesAll cs = List.range' d.size ((d.applyAll cs).size - d.size)

section Calls

variable {d e : Document}

theorem Makes.of_change {c : Change} (hadmits : ∀ x ∈ d.touched c, x < d.size)
    (hissues : d.issues c = List.range' d.size ((d.apply c).size - d.size)) : d.Makes [c] where
  admits := ⟨admits_iff.mpr hadmits, trivial⟩
  issues := (List.append_nil _).trans hissues

/-- What goes into putting a node elsewhere was issued. -/
theorem Closed.lt_size_of_move (h : d.Closed) {parent child : Nat} (hparent : parent < d.size)
    (hchild : child < d.size) : ∀ x ∈ child :: parent :: (d.parent? child).toList, x < d.size := by
  intro x hx
  rcases List.mem_cons.mp hx with rfl | hx
  · exact hchild
  · rcases List.mem_cons.mp hx with rfl | hx
    · exact hparent
    · exact h.parent (Option.mem_toList.mp hx)

/-- **No call on issued ids fails.** -/
theorem Closed.makes (h : d.Closed) (c : Call) (hc : ∀ x ∈ c.names, x < d.size) :
    d.Makes (c.changes d.size) := by
  cases c with
  | createElement tag =>
    apply Makes.of_change
    · simp [touched]
    · simp [issues, Document.apply]
  | createText content =>
    apply Makes.of_change
    · simp [touched]
    · simp [issues, Document.apply]
  | cloneSkeleton skeleton =>
    have hcopy := applyAll_copy skeleton d
    refine ⟨hcopy.admits, (issuesAll_copy skeleton d).trans ?_⟩
    show _ = List.range' d.size ((d.applyAll (skeleton.copy d.size)).size - d.size)
    rw [hcopy.size, Nat.add_sub_cancel_left]
  | setAttribute node name value =>
    apply Makes.of_change
    · simpa [touched, Call.names] using hc
    · simp [issues, Document.apply]
  | appendChild parent child =>
    apply Makes.of_change
    · exact h.lt_size_of_move (hc parent (by simp [Call.names])) (hc child (by simp [Call.names]))
    · simp [issues, Document.apply]
  | insertChild parent index child =>
    apply Makes.of_change
    · exact h.lt_size_of_move (hc parent (by simp [Call.names])) (hc child (by simp [Call.names]))
    · simp [issues, Document.apply]
  | clearChildren node =>
    apply Makes.of_change
    · exact List.forall_mem_cons.mpr ⟨hc node (by simp [Call.names]), fun c hc => h.children hc⟩
    · simp [issues, Document.apply]
  | setText node content =>
    have hnode := hc node (by simp [Call.names])
    apply Makes.of_change
    · rw [touched]
      split
      · simpa using hnode
      · exact List.forall_mem_cons.mpr ⟨hnode, fun c hc => h.children hc⟩
    · simp only [issues, Document.apply, setText]
      split <;> simp

theorem Makes.applyAll? {cs : List Change} (h : d.Makes cs) : d.applyAll? cs =
    some (d.applyAll cs, List.range' d.size ((d.applyAll cs).size - d.size)) := by
  rw [applyAll?_of_admits h.admits, h.issues]

/-- What a single call comes to. -/
theorem Makes.calls? {c : Call} (h : d.Makes (c.changes d.size)) : d.calls? [c] =
    some (d.applyAll (c.changes d.size),
      List.range' d.size ((d.applyAll (c.changes d.size)).size - d.size)) := by
  simp [Document.calls?, h.applyAll?]

theorem calls?_append (calls calls' : List Call) : d.calls? (calls ++ calls') =
    (d.calls? calls).bind fun r => (r.1.calls? calls').map fun r' => (r'.1, r.2 ++ r'.2) := by
  induction calls generalizing d with
  | nil => simp [calls?]
  | cons c rest ih =>
    simp only [List.cons_append, calls?, ih]
    cases d.applyAll? (c.changes d.nextId) with
    | none => rfl
    | some r =>
      cases hrest : r.1.calls? rest with
      | none => simp [hrest]
      | some r' => cases h : r'.1.calls? calls' <;> simp [hrest, h]

theorem Knows.append {calls calls' : List Call} (h : d.Knows (calls ++ calls')) :
    d.Knows calls ∧ ∀ e ids, d.calls? calls = some (e, ids) → e.Knows calls' := by
  induction calls generalizing d with
  | nil =>
    refine ⟨trivial, fun e ids he => ?_⟩
    obtain ⟨rfl, -⟩ := Prod.mk.inj (Option.some.inj he)
    exact h
  | cons c rest ih =>
    obtain ⟨hnames, hrest⟩ := h
    refine ⟨⟨hnames, fun e ids he => (ih (hrest e ids he)).1⟩, fun e ids he => ?_⟩
    obtain ⟨⟨d₁, ids₁⟩, hfirst, hlast⟩ := Option.bind_eq_some_iff.mp he
    obtain ⟨⟨e', ids'⟩, he', heq⟩ := Option.map_eq_some_iff.mp hlast
    obtain ⟨rfl, -⟩ := Prod.mk.inj heq
    exact (ih (hrest d₁ ids₁ hfirst)).2 _ ids' he'

theorem Knows.cons {c : Call} {calls : List Call} {ids : List NodeId}
    (hnames : ∀ x ∈ c.names, d.issued x = true)
    (hc : d.applyAll? (c.changes d.nextId) = some (e, ids)) (hrest : e.Knows calls) :
    d.Knows (c :: calls) := by
  refine ⟨hnames, fun e' ids' he' => ?_⟩
  obtain ⟨rfl, -⟩ := Prod.mk.inj (Option.some.inj (hc.symm.trans he'))
  exact hrest

/-- Calls on issued ids give a document that comes of the first by admitted changes, and the
ids that were next. -/
theorem Closed.calls (h : d.Closed) {calls : List Call} (hknows : d.Knows calls) :
    ∃ e, d.Evolves e ∧ d.calls? calls = some (e, List.range' d.size (e.size - d.size)) := by
  induction calls generalizing d with
  | nil => exact ⟨d, .refl, by simp [calls?]⟩
  | cons c rest ih =>
    obtain ⟨hnames, hrest⟩ := hknows
    have hmakes := h.makes c fun x hx => issued_iff.mp (hnames x hx)
    let d₁ := d.applyAll (c.changes d.size)
    have hevolves : d.Evolves d₁ := hmakes.admits.evolves
    obtain ⟨e, he, hcalls⟩ := ih (hevolves.closed h) (hrest _ _ hmakes.applyAll?)
    refine ⟨e, hevolves.trans he, ?_⟩
    have hle := hevolves.size_le
    have hle' := he.size_le
    have hids : List.range' d.size (d₁.size - d.size) ++ List.range' d₁.size (e.size - d₁.size) =
        List.range' d.size (e.size - d.size) := by
      have hsplit := List.range'_append_1 (s := d.size) (m := d₁.size - d.size)
        (n := e.size - d₁.size)
      rw [Nat.add_sub_cancel' hle] at hsplit
      rw [hsplit, show d₁.size - d.size + (e.size - d₁.size) = e.size - d.size by omega]
    simp only [calls?, nextId_eq, hmakes.applyAll?, Option.bind_some]
    rw [show d.applyAll (c.changes d.size) = d₁ from rfl, hcalls, Option.map_some, hids]

end Calls

/-- **The links of a document are always consistent.** Let calls be made on a new document, each
on ids that were issued by then. No call fails; afterwards each link is kept on both sides, no
node is listed twice, and all links lead to issued nodes. The ids of the new nodes are
consecutive, and all along no node changes its tag, or from element to text or back. -/
theorem calls_linked {calls : List Call} (h : blank.Knows calls) :
    ∃ d, blank.calls? calls = some (d, List.range' 1 (d.size - 1)) ∧ d.Linked ∧ d.Closed ∧
      ∀ earlier later, calls = earlier ++ later → ∃ e,
        blank.calls? earlier = some (e, List.range' 1 (e.size - 1)) ∧
        e.calls? later = some (d, List.range' e.size (d.size - e.size)) ∧ e.size ≤ d.size ∧
        ∀ x, x < e.size → (d.kind? x).map NodeKind.tag? = (e.kind? x).map NodeKind.tag? := by
  obtain ⟨d, hd, hcalls⟩ := closed_blank.calls h
  refine ⟨d, hcalls, hd.linked linked_blank, hd.closed closed_blank, ?_⟩
  rintro earlier later rfl
  obtain ⟨hearlier, hlater⟩ := h.append
  obtain ⟨e, he, hfirst⟩ := closed_blank.calls hearlier
  obtain ⟨d', hd', hlast⟩ := (he.closed closed_blank).calls (hlater e _ hfirst)
  -- the calls in one go and in two come to the same document
  obtain rfl : d' = d := by
    rw [calls?_append, hfirst, Option.bind_some, hlast, Option.map_some] at hcalls
    exact (Prod.mk.inj (Option.some.inj hcalls)).1
  exact ⟨e, hfirst, hlast, hd'.size_le, fun x hx => hd'.tag? hx⟩

/-- A copy is put below its own text, and the body below itself. -/
theorem calls_linked_loop :
    let calls : List Call := [.cloneSkeleton (.element "p" [] [.text "see"]), .appendChild 0 1,
      .appendChild 2 1, .appendChild 0 0, .setText 1 "new"]
    blank.Knows calls ∧ ∃ d, blank.calls? calls = some (d, [1, 2, 3]) ∧ d.Linked ∧
      d.children 2 = [1] ∧ d.parent? 2 = none := by
  intro calls
  have hknows : blank.Knows calls :=
    .cons (by decide) rfl <| .cons (by decide) rfl <| .cons (by decide) rfl <|
      .cons (by decide) rfl <| .cons (by decide) rfl trivial
  obtain ⟨d, hcalls, hlinked, -⟩ := calls_linked hknows
  obtain ⟨rfl, -⟩ := Prod.mk.inj (Option.some.inj hcalls)
  exact ⟨hknows, _, rfl, hlinked, rfl, rfl⟩

end Document

end Stencil
