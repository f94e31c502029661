import Stencil.Proofs.Document.Views
/- Evolution of a document: the changes that are made to it, each of which the
   document admits at its turn. A document is reachable if a blank one evolves to it.
   In a reachable document every link leads to a node that was issued (`Closed`), and
   a document never loses a node. -/
namespace Stencil.Document

/-- The second document comes of the first by changes that were admitted in turn. -/
inductive Evolves (d : Document) : Document → Prop where
  | refl : d.Evolves d
  | step {e : Document} {c : Change} : d.Evolves e → e.admits c = true → d.Evolves (e.apply c)

/-- Some sequence of changes to a blank document leads to this one. -/
def Reachable (d : Document) : Prop :=
  blank.Evolves d

theorem Evolves.trans {d e f : Document} (hde : d.Evolves e) (hef : e.Evolves f) :
    d.Evolves f := by
  induction hef with
  | refl => exact hde
  | step _ hc ih => exact .step ih hc

theorem Evolves.single {d : Document} {c : Change} (h : d.admits c = true) :
    d.Evolves (d.apply c) :=
  .step .refl h

/-- Every link leads to a node that was issued. -/
structure Closed (d : Document) : Prop where
  children : ∀ {id c}, c ∈ d.children id → c < d.size
  parent : ∀ {id p}, d.parent? id = some p → p < d.size

theorem closed_blank : blank.Closed where
  children {id c} h := by
    rcases Nat.eq_zero_or_pos id with rfl | hid
    · simp [Document.children, node?, blank, NodeKind.alone] at h
    · rw [children_of_size_le hid] at h
      simp at h
  parent {id p} h := by
    rcases Nat.eq_zero_or_pos id with rfl | hid
    · simp [Document.parent?, node?, blank, NodeKind.alone] at h
    · rw [parent?_of_size_le hid] at h
      simp at h

/-- Links stay closed where there are no new ones and no node is lost. -/
theorem Closed.of_subset {d e : Document} (h : d.Closed) (hsize : d.size ≤ e.size)
    (hchildren : ∀ id c, c ∈ e.children id → c ∈ d.children id ∨ c < e.size)
    (hparent : ∀ id p, e.parent? id = some p → d.parent? id = some p ∨ p < e.size) : e.Closed where
  children {id c} hc := by
    rcases hchildren id c hc with hc | hc
    · exact Nat.lt_of_lt_of_le (h.children hc) hsize
    · exact hc
  parent {id p} hp := by
    rcases hparent id p hp with hp | hp
    · exact Nat.lt_of_lt_of_le (h.parent hp) hsize
    · exact hp

theorem Closed.create {d : Document} (h : d.Closed) (kind : NodeKind) : (d.create kind).Closed :=
  h.of_subset (by simp) (fun id c hc => .inl (by simpa using hc))
    (fun id p hp => .inl (by simpa using hp))

theorem Closed.count {d : Document} (h : d.Closed) : d.count.Closed :=
  ⟨h.children, h.parent⟩

theorem Closed.writeAttribute {d : Document} (h : d.Closed) (id : Nat) (name : String)
    (value : Scalar) : (d.writeAttribute id name value).Closed :=
  h.of_subset (by simp) (fun id c hc => .inl (by simpa using hc))
    (fun id p hp => .inl (by simpa using hp))

theorem Closed.writeText {d : Document} (h : d.Closed) (id : Nat) (content : String) :
    (d.writeText id content).Closed :=
  h.of_subset (by simp) (fun id c hc => .inl (by simpa using hc))
    (fun id p hp => .inl (by simpa using hp))

theorem Closed.release {d : Document} (h : d.Closed) (id : Nat) : (d.release id).Closed := by
  refine h.of_subset (by simp) (fun x c hc => .inl ?_) (fun x p hp => .inl ?_)
  · rw [children_release] at hc
    split at hc
    · simp at hc
    · exact hc
  · rw [parent?_release] at hp
    split at hp
    · simp at hp
    · exact hp

/-- Where a node is put under a parent, no other link down is new. -/
theorem mem_children_attach {d : Document} {parent id x c : Nat} {place : List Nat → List Nat}
    (hplace : ∀ ids c, c ∈ place ids → c ∈ ids ∨ c = id)
    (hc : c ∈ (d.attach parent id place).children x) :
    c ∈ d.children x ∨ x = parent ∧ c = id := by
  simp only [Document.attach, children_setChildren, children_setParent] at hc
  split at hc
  · rename_i hx
    exact (hplace _ _ hc).imp mem_children_detach fun hid => ⟨hx.1, hid⟩
  · exact .inl (mem_children_detach hc)

theorem Closed.attach {d : Document} (h : d.Closed) {parent id : Nat} (hparent : parent < d.size)
    (hid : id < d.size) {place : List Nat → List Nat}
    (hplace : ∀ ids c, c ∈ place ids → c ∈ ids ∨ c = id) : (d.attach parent id place).Closed := by
  refine h.of_subset (by simp) (fun x c hc => ?_) (fun x p hp => ?_)
  · rcases mem_children_attach hplace hc with hc | ⟨-, hc⟩
    · exact .inl hc
    · exact .inr (by simpa [hc] using hid)
  · rw [parent?_attach hid] at hp
    split at hp
    · exact .inr (by simp_all)
    · exact .inl hp

theorem mem_insertAt {α : Type} {index : Nat} {entry : α} {entries : List α} {a : α} :
    a ∈ insertAt index entry entries ↔ a = entry ∨ a ∈ entries := by
  have h : a ∈ entries ↔ a ∈ entries.take index ∨ a ∈ entries.drop index := by
    rw [← List.mem_append, List.take_append_drop]
  simp only [insertAt, List.mem_append, List.mem_cons, h]
  tauto

theorem admits_iff {d : Document} {c : Change} :
    d.admits c = true ↔ ∀ id ∈ d.touched c, id < d.size := by
  simp [admits, List.all_eq_true, issued, size]

theorem Closed.apply {d : Document} (h : d.Closed) {c : Change} (hc : d.admits c = true) :
    (d.apply c).Closed := by
  rw [admits_iff] at hc
  cases c with
  | createElement tag id => exact (h.create _).count
  | createText content id => exact (h.create _).count
  | setAttribute node name value => exact (h.writeAttribute ..).count
  | appendChild parent child =>
    refine (h.attach (hc parent (by simp [touched])) (hc child (by simp [touched])) ?_).count
    intro ids c hm
    simpa using hm
  | insertChild parent index child =>
    refine (h.attach (hc parent (by simp [touched])) (hc child (by simp [touched])) ?_).count
    intro ids c hm
    exact (mem_insertAt.mp hm).symm
  | clearChildren node => exact (h.release node).count
  | setText node content =>
    simp only [Document.apply, setText]
    split
    · exact (h.writeText ..).count
    · -- a node that is no text gets a new one for its only child
      rename_i htext
      have hnode : node < d.size := hc node (by simp [touched, htext])
      refine ((((h.release node).count.create _).count).attach ?_ ?_ ?_).count
      · simpa using Nat.lt_succ_of_lt hnode
      · simp
      · intro ids c hm
        simpa using hm

/-- No change takes a node away. -/
theorem size_le_apply (d : Document) (c : Change) : d.size ≤ (d.apply c).size := by
  cases c <;> simp [Document.apply, createElement, createText, setAttribute, appendChild,
    insertChild, clearChildren, setText]
  split <;> simp

theorem size_le_applyAll : ∀ (cs : List Change) (d : Document), d.size ≤ (d.applyAll cs).size
  | [], _ => Nat.le_refl _
  | c :: rest, d => Nat.le_trans (size_le_apply d c) (size_le_applyAll rest (d.apply c))

/-- No change gives an element another tag, or makes another kind of node of it. -/
theorem element_apply {d : Document} {x : Nat} {tag : String} {held : Bindings Scalar}
    (h : d.kind? x = some (.element tag held)) (c : Change) :
    ∃ held', (d.apply c).kind? x = some (.element tag held') := by
  have hx : x ≠ d.size := Nat.ne_of_lt (lt_size_of_kind? h)
  cases c with
  | createElement tag' id => exact ⟨held, by simp [Document.apply, kind?_createElement, hx, h]⟩
  | createText content id => exact ⟨held, by simp [Document.apply, kind?_createText, hx, h]⟩
  | setAttribute node name value =>
    simp only [Document.apply, kind?_setAttribute, h]
    split
    · exact ⟨_, rfl⟩
    · exact ⟨held, rfl⟩
  | appendChild parent child => exact ⟨held, by simp [Document.apply, h]⟩
  | insertChild parent index child => exact ⟨held, by simp [Document.apply, h]⟩
  | clearChildren node => exact ⟨held, by simp [Document.apply, h]⟩
  | setText node content =>
    refine ⟨held, ?_⟩
    simp only [Document.apply, setText]
    split
    · simp only [kind?_count, kind?_writeText, h]
      split <;> rfl
    · simp [kind?_createText, hx, h]

theorem Evolves.element {d e : Document} (h : d.Evolves e) {x : Nat} {tag : String}
    {held : Bindings Scalar} (hk : d.kind? x = some (.element tag held)) :
    ∃ held', e.kind? x = some (.element tag held') := by
  induction h with
  | refl => exact ⟨held, hk⟩
  | step _ _ ih =>
    obtain ⟨held', hk'⟩ := ih
    exact element_apply hk' _

theorem Evolves.closed {d e : Document} (h : d.Evolves e) (hd : d.Closed) : e.Closed := by
  induction h with
  | refl => exact hd
  | step _ hc ih => exact ih.apply hc

theorem Evolves.size_le {d e : Document} (h : d.Evolves e) : d.size ≤ e.size := by
  induction h with
  | refl => exact Nat.le_refl _
  | step _ _ ih => exact Nat.le_trans ih (size_le_apply ..)

theorem Reachable.closed {d : Document} (h : d.Reachable) : d.Closed :=
  Evolves.closed h closed_blank

/-- Each change is admitted once those before it are made. -/
def AdmitsAll (d : Document) : List Change → Prop
  | [] => True
  | c :: rest => d.admits c = true ∧ (d.apply c).AdmitsAll rest

theorem applyAll_cons (d : Document) (c : Change) (cs : List Change) :
    d.applyAll (c :: cs) = (d.apply c).applyAll cs := rfl

theorem applyAll_nil (d : Document) : d.applyAll [] = d := rfl

theorem applyAll_append (d : Document) (cs cs' : List Change) :
    d.applyAll (cs ++ cs') = (d.applyAll cs).applyAll cs' :=
  List.foldl_append

theorem admitsAll_append {d : Document} {cs cs' : List Change} :
    d.AdmitsAll (cs ++ cs') ↔ d.AdmitsAll cs ∧ (d.applyAll cs).AdmitsAll cs' := by
  induction cs generalizing d with
  | nil => simp [AdmitsAll, applyAll]
  | cons c rest ih =>
    simp only [List.cons_append, AdmitsAll, ih, and_assoc]
    rfl

theorem AdmitsAll.evolves {d : Document} {cs : List Change} (h : d.AdmitsAll cs) :
    d.Evolves (d.applyAll cs) := by
  induction cs generalizing d with
  | nil => exact .refl
  | cons c rest ih => exact (Evolves.single h.1).trans (ih h.2)

end Stencil.Document
