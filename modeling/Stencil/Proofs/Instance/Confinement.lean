import Stencil.Proofs.Instance.Depth
import Stencil.Proofs.Instance.Filling
import Stencil.Proofs.Skeleton.Copy
/- What a mount does to the document around its target, whether it succeeds or not.
   Among the nodes that were there before, only the target gets other children, the
   new root alone, and only its former children get another parent, none
   (`mount_hosts`). The links of the new nodes stay among the new nodes. All that the
   mount does is a sequence of changes that the document admits. -/
namespace Stencil

namespace Document

/-- The document once a copy of a skeleton has taken the place of a node's children. -/
def hang (d : Document) (s : Skeleton) (target : Nat) : Document :=
  ((d.applyAll (s.copy d.size)).clearChildren target).appendChild target d.size

/-- What something new at `target` leaves of a document: all nodes but the target
keep their children, those that were below it lose their parent, and the new nodes
have children among the new nodes only, never the root. -/
structure Hosts (d e : Document) (target : Nat) : Prop where
  evolves : d.Evolves e
  grown : d.size < e.size
  kind : ∀ x, x < d.size → e.kind? x = d.kind? x
  children : ∀ x, x < d.size → x ≠ target → e.children x = d.children x
  parent : ∀ x, x < d.size → e.parent? x = if x ∈ d.children target then none else d.parent? x
  only : e.children target = [d.size]
  top : e.parent? d.size = some target
  below : ∀ x, d.size ≤ x → ∀ c : Nat, c ∈ e.children x → d.size < c

/-- A node is its kind, its parent and its children. -/
theorem node?_eq_of_views {d e : Document} {x : Nat} (hk : e.kind? x = d.kind? x)
    (hp : e.parent? x = d.parent? x) (hc : e.children x = d.children x) :
    e.node? x = d.node? x := by
  cases hd : d.node? x with
  | none =>
    cases he : e.node? x with
    | none => rfl
    | some node => simp [kind?, hd, he] at hk
  | some node =>
    cases he : e.node? x with
    | none => simp [kind?, hd, he] at hk
    | some node' =>
      obtain ⟨kind, parent, children⟩ := node
      obtain ⟨kind', parent', children'⟩ := node'
      simp_all [kind?, parent?, Document.children]

theorem Hosts.node? {d e : Document} {target x : Nat} (h : d.Hosts e target) (hx : x < d.size)
    (ht : x ≠ target) (hc : x ∉ d.children target) : e.node? x = d.node? x :=
  node?_eq_of_views (h.kind x hx) (by rw [h.parent x hx, if_neg hc]) (h.children x hx ht)

theorem lt_size_hang (d : Document) (s : Skeleton) (target : Nat) :
    d.size < (d.hang s target).size := by
  have hcount := s.nodeCount_pos
  rw [hang, size_appendChild, size_clearChildren, (applyAll_copy s d).size]
  omega

theorem hang_eq (d : Document) (s : Skeleton) (target : Nat) : d.hang s target =
    d.applyAll (s.copy d.size ++ [.clearChildren target, .appendChild target d.size]) := by
  simp only [hang, applyAll_append, applyAll_cons, applyAll_nil, Document.apply]

/-- The target may be a node of the copy itself. -/
theorem admits_hang {d : Document} (hd : d.Closed) (s : Skeleton) {target : Nat}
    (ht : target < (d.applyAll (s.copy d.size)).size) :
    d.AdmitsAll (s.copy d.size ++ [.clearChildren target, .appendChild target d.size]) := by
  have hcopy := applyAll_copy s d
  let d₁ := d.applyAll (s.copy d.size)
  let d₂ := d₁.clearChildren target
  have hcount := s.nodeCount_pos
  have hsize₁ : d₁.size = d.size + s.nodeCount := hcopy.size
  have hsize₂ : d₂.size = d₁.size := size_clearChildren ..
  have hclosed : d₁.Closed := hcopy.admits.evolves.closed hd
  have hclear : d₁.admits (.clearChildren target) = true := by
    refine admits_iff.mpr ?_
    simp only [touched, List.forall_mem_cons]
    exact ⟨ht, fun c hc => hclosed.children hc⟩
  have hfree : d₂.parent? d.size = none := by
    rw [parent?_clearChildren]
    split
    · rfl
    · exact hcopy.free
  have happend : d₂.admits (.appendChild target d.size) = true := by
    refine admits_iff.mpr ?_
    simp only [touched, hfree, Option.toList, List.forall_mem_cons]
    exact ⟨show d.size < d₂.size by omega, Nat.lt_of_lt_of_eq ht hsize₂.symm, by simp⟩
  exact admitsAll_append.mpr ⟨hcopy.admits, hclear, happend, trivial⟩

theorem hang_evolves {d : Document} (hd : d.Closed) (s : Skeleton) {target : Nat}
    (ht : target < (d.applyAll (s.copy d.size)).size) : d.Evolves (d.hang s target) := by
  rw [hang_eq]
  exact (admits_hang hd s ht).evolves

theorem hang_hosts {d : Document} (hd : d.Closed) (s : Skeleton) {target : Nat}
    (ht : target < d.size) : d.Hosts (d.hang s target) target := by
  have hcopy := applyAll_copy s d
  let d₁ := d.applyAll (s.copy d.size)
  let d₂ := d₁.clearChildren target
  have hcount := s.nodeCount_pos
  have hsize₁ : d₁.size = d.size + s.nodeCount := hcopy.size
  have hsize₂ : d₂.size = d.size + s.nodeCount := (size_clearChildren ..).trans hsize₁
  have htarget : target < d₂.size := by omega
  have hroot : d.size < d₂.size := by omega
  have hchildren₁ : d₁.children target = d.children target :=
    children_eq_of_node? (hcopy.old target ht)
  have hfree : d₂.parent? d.size = none := by
    rw [parent?_clearChildren]
    split
    · rfl
    · exact hcopy.free
  constructor
  · exact hang_evolves hd s (show target < d₁.size by omega)
  · exact lt_size_hang d s target
  · intro x hx
    simp only [hang, kind?_appendChild, kind?_clearChildren]
    exact kind?_eq_of_node? (hcopy.old x hx)
  · intro x hx hne
    simp only [hang]
    rw [children_appendChild hfree htarget, if_neg hne, children_clearChildren, if_neg hne]
    exact children_eq_of_node? (hcopy.old x hx)
  · intro x hx
    simp only [hang]
    rw [parent?_appendChild hroot, if_neg (Nat.ne_of_lt hx), parent?_clearChildren, hchildren₁]
    split
    · rfl
    · exact parent?_eq_of_node? (hcopy.old x hx)
  · simp only [hang]
    rw [children_appendChild hfree htarget, if_pos rfl, children_clearChildren, if_pos rfl]
    rfl
  · simp only [hang]
    rw [parent?_appendChild hroot, if_pos rfl]
  · intro x hx c hc
    simp only [hang] at hc
    rw [children_appendChild hfree htarget, if_neg (by omega), children_clearChildren,
      if_neg (by omega)] at hc
    exact hcopy.below x hx c hc

theorem hang_shows (d : Document) (s : Skeleton) {target : Nat} (ht : target < d.size) :
    (d.hang s target).Shows (s.plant d.size) := by
  have hcopy := applyAll_copy s d
  have hcount := s.nodeCount_pos
  have hsize : ((d.applyAll (s.copy d.size)).clearChildren target).size = d.size + s.nodeCount :=
    (size_clearChildren ..).trans hcopy.size
  have hfree : ((d.applyAll (s.copy d.size)).clearChildren target).parent? d.size = none := by
    rw [parent?_clearChildren]
    split
    · rfl
    · exact hcopy.free
  refine hcopy.shows.congr fun x hx => ⟨by simp [hang], ?_⟩
  have hx' := Skeleton.mem_ids_plant.mp hx
  simp only [hang]
  rw [children_appendChild hfree (by omega), if_neg (by omega), children_clearChildren,
    if_neg (by omega)]

/-- What children take over from their parent holds of the node that a path leads to. -/
theorem of_resolve? {d : Document} {P : Nat → Prop}
    (hchildren : ∀ x, P x → ∀ c : Nat, c ∈ d.children x → P c) {path : Path} {start node : Nat}
    (hstart : P start) (h : d.resolve? start path = some node) : P node := by
  induction path generalizing start with
  | nil =>
    simp only [resolve?, Option.some.injEq] at h
    exact h ▸ hstart
  | cons index rest ih =>
    simp only [resolve?, Option.bind_eq_some_iff] at h
    obtain ⟨child, hchild, hrest⟩ := h
    exact ih (hchildren start hstart child (List.mem_of_getElem? hchild)) hrest

/-- A path leads from a new node to a new node, and to one that was issued. -/
theorem le_of_resolve? {d : Document} {bound : Nat}
    (hbelow : ∀ x, bound ≤ x → ∀ c : Nat, c ∈ d.children x → bound < c)
    {path : Path} {start node : Nat} (hstart : bound ≤ start)
    (h : d.resolve? start path = some node) : bound ≤ node :=
  of_resolve? (fun x hx c hc => Nat.le_of_lt (hbelow x hx c hc)) hstart h

theorem lt_size_of_resolve? {d : Document} (hd : d.Closed) {path : Path} {start node : Nat}
    (hstart : start < d.size) (h : d.resolve? start path = some node) : node < d.size :=
  of_resolve? (fun _ _ _ hc => hd.children hc) hstart h

section InsertText

/-! A new text node is put under a node. -/

variable {d : Document} (content : String) (index : Nat)

theorem parent?_createText_size : (d.createText content).parent? d.size = none :=
  (parent?_createText ..).trans (parent?_of_size_le (Nat.le_refl _))

theorem admits_insertText {node : Nat} (hnode : node < d.size) :
    d.AdmitsAll [.createText content d.size, .insertChild node index d.size] := by
  have hsize : (d.createText content).size = d.size + 1 := size_createText ..
  refine ⟨by simp [admits, touched], admits_iff.mpr ?_, trivial⟩
  simp only [Document.apply, touched, parent?_createText_size, Option.toList, List.forall_mem_cons]
  exact ⟨show d.size < (d.createText content).size by omega,
    show node < (d.createText content).size by omega, by simp⟩

theorem evolves_insertText {node : Nat} (hnode : node < d.size) :
    d.Evolves ((d.createText content).insertChild node index d.size) := by
  have hevolves := (admits_insertText content index hnode).evolves
  exact hevolves

theorem children_insertText {node : Nat} (hnode : node < d.size) (x : Nat) :
    ((d.createText content).insertChild node index d.size).children x =
      if x = node then insertAt index d.size (d.children x) else d.children x := by
  have hlt : node < (d.createText content).size := by
    rw [size_createText]
    omega
  rw [children_insertChild (parent?_createText_size content) hlt, children_createText]

theorem node?_insertText {node x : Nat} (hx : x < d.size) (hne : x ≠ node) :
    ((d.createText content).insertChild node index d.size).node? x = d.node? x := by
  rw [node?_insertChild_of_ne (parent?_createText_size content) hne (Nat.ne_of_lt hx)]
  exact node?_createText_of_lt d hx content

theorem parent?_insertText (node : Nat) {x : Nat} (hx : x < d.size) :
    ((d.createText content).insertChild node index d.size).parent? x = d.parent? x := by
  rw [parent?_insertChild (by simp), if_neg (Nat.ne_of_lt hx), parent?_createText]

end InsertText

/-- What the edits of a mount leave of the document in which its copy hangs: nothing
changes below `bound`, nor does the parent of the root, which is the node `bound`. -/
structure Confines (bound : Nat) (d e : Document) : Prop where
  evolves : d.Evolves e
  old : ∀ x, x < bound → e.node? x = d.node? x
  top : e.parent? bound = d.parent? bound
  below : ∀ x, bound ≤ x → ∀ c : Nat, c ∈ e.children x → bound < c

namespace Confines

variable {bound : Nat} {d e : Document}

theorem setAttribute (h : Confines bound d e) {node : Nat} (hb : bound ≤ node)
    (hs : node < e.size) (name : String) (value : Scalar) :
    Confines bound d (e.apply (.setAttribute node name value)) where
  evolves := h.evolves.step (admits_iff.mpr (by simpa [touched] using hs))
  old x hx := (node?_setAttribute_of_ne e (by omega) name value).trans (h.old x hx)
  top := (parent?_setAttribute ..).trans h.top
  below x hx c hc := h.below x hx c (by simpa [Document.apply] using hc)

theorem insertText (h : Confines bound d e) {node : Nat} (hb : bound ≤ node)
    (hs : node < e.size) (content : String) (index : Nat) :
    Confines bound d (e.applyAll [.createText content e.size, .insertChild node index e.size]) := by
  have hbound : bound < e.size := by omega
  constructor
  · exact h.evolves.trans (evolves_insertText content index hs)
  · intro x hx
    exact (node?_insertText content index (by omega) (by omega)).trans (h.old x hx)
  · exact (parent?_insertText content index node hbound).trans h.top
  · intro x hx c hc
    change c ∈ ((e.createText content).insertChild node index e.size).children x at hc
    rw [children_insertText content index hs] at hc
    split at hc
    · rcases mem_insertAt.mp hc with hc | hc
      · omega
      · exact h.below x hx c hc
    · exact h.below x hx c hc

theorem hosts (h : Confines bound d e) {f : Document} {node : Nat} (hb : bound ≤ node)
    (hs : node < e.size) (hf : e.Hosts f node) : Confines bound d f := by
  have hnot : ∀ x, x ≤ bound → x ∉ e.children node := fun x hx hc =>
    absurd (h.below node hb x hc) (by omega)
  constructor
  · exact h.evolves.trans hf.evolves
  · intro x hx
    exact (hf.node? (by omega) (by omega) (hnot x (by omega))).trans (h.old x hx)
  · rw [hf.parent bound (by omega), if_neg (hnot bound (Nat.le_refl _)), h.top]
  · intro x hx c hc
    rcases Nat.lt_or_ge x e.size with hlt | hge
    · by_cases hxn : x = node
      · subst hxn
        rw [hf.only, List.mem_singleton] at hc
        omega
      · rw [hf.children x hlt hxn] at hc
        exact h.below x hx c hc
    · have := hf.below x hge c hc
      omega

end Confines

end Document

namespace Instance

/-- What a mount leaves when its edits have ended so. -/
def concluded (i : Instance) (root : Nat) : Progress × Except Failure (List Nat) → Mounting
  | (⟨stage, props⟩, .error failure) => ⟨stage, { i with props := props }, .error failure⟩
  | (⟨stage, props⟩, .ok nodes) =>
    ⟨stage.note (.blockMounted root nodes.length),
      { i with props := props, resolved := nodes, root := some root }, .ok root⟩

theorem mount_of_mounted {i : Instance} (h : i.isMounted = true) (target : Nat) (s : Stage) :
    i.mount target s = ⟨s, i, .error (.refused .alreadyMounted)⟩ := by
  rw [mount_eq, mountWith, if_pos h]

/-- The stage on which a copy of the skeleton hangs. -/
def staged (i : Instance) (target : Nat) (s : Stage) : Stage :=
  (s.performAll (i.block.skeleton.copy s.document.size)).performAll
    [.clearChildren target, .appendChild target s.document.size]

/-- How the edits of a mount end. -/
def filled (i : Instance) (target : Nat) (s : Stage) : Progress × Except Failure (List Nat) :=
  (Progress.mk (i.staged target s) i.props).fillEdits i.block (fillingsOf i.props)
    s.document.size 0 i.block.edits

@[simp] theorem document_staged (i : Instance) (target : Nat) (s : Stage) :
    (i.staged target s).document = s.document.hang i.block.skeleton target := by
  simp only [staged, Stage.document_performAll]
  rfl

theorem mount_of_unmounted {i : Instance} (h : i.isMounted = false) {target : Nat} {s : Stage}
    (ht : target < s.document.size) :
    i.mount target s = i.concluded s.document.size (i.filled target s) := by
  have hissued : (s.performAll (i.block.skeleton.copy s.document.size)).document.issued target =
      true := by
    rw [Document.issued_iff, Stage.document_performAll]
    exact Nat.lt_of_lt_of_le ht (Document.applyAll_copy _ _).admits.evolves.size_le
  simp only [mount_eq, mountWith, h, Bool.false_eq_true, if_false, Document.nextId_eq, hissued,
    Bool.not_true]
  rfl

/-- What a mount that does not come to its edits leaves behind. -/
structure Spared (i : Instance) (s : Stage) (m : Mounting) : Prop where
  mounted : m.mounted = i
  failed : ∃ failure, m.outcome = .error failure
  evolves : s.document.Evolves m.stage.document

/-- A mount comes to its edits if the instance is not mounted and the target was issued once
the skeleton is copied. -/
theorem mount_cases (i : Instance) (target : Nat) (s : Stage) :
    i.Spared s (i.mount target s) ∨ i.isMounted = false ∧
      target < (s.document.applyAll (i.block.skeleton.copy s.document.size)).size ∧
        i.mount target s = i.concluded s.document.size (i.filled target s) := by
  cases hm : i.isMounted with
  | true =>
    rw [mount_of_mounted hm]
    exact .inl ⟨rfl, ⟨_, rfl⟩, .refl⟩
  | false =>
    have hcopy : (s.performAll (i.block.skeleton.copy s.document.size)).document =
        s.document.applyAll (i.block.skeleton.copy s.document.size) :=
      Stage.document_performAll ..
    by_cases hissued : (s.performAll (i.block.skeleton.copy s.document.size)).document.issued target
    · refine .inr ⟨rfl, ?_, ?_⟩
      · rwa [hcopy, Document.issued_iff] at hissued
      · simp only [mount_eq, mountWith, hm, Bool.false_eq_true, if_false, Document.nextId_eq,
          hissued, Bool.not_true]
        rfl
    · simp only [Bool.not_eq_true] at hissued
      simp only [mount_eq, mountWith, hm, Bool.false_eq_true, if_false, Document.nextId_eq,
        hissued, Bool.not_false, if_true]
      refine .inl ⟨rfl, ⟨_, rfl⟩, ?_⟩
      rw [hcopy]
      exact (Document.applyAll_copy _ _).admits.evolves

theorem stage_concluded (i : Instance) (root : Nat) (r : Progress × Except Failure (List Nat)) :
    (i.concluded root r).stage.document = r.1.stage.document := by
  obtain ⟨⟨stage, props⟩, outcome⟩ := r
  cases outcome <;> rfl

/-- An edit makes admitted changes only. -/
theorem evolves_fillEdit (i : Instance) {root : Nat}
    (hnested : ∀ slot n, i.prop? slot = some (.block n) → ∀ (target : Nat) {s : Stage},
      s.document.Closed → s.document.Evolves (n.mount target s).stage.document)
    {p : Progress} (number : Nat) (edit : Edit) (hp : p.stage.document.Closed)
    (hroot : root < p.stage.document.size) :
    p.stage.document.Evolves
      (p.fillEdit i.block (fillingsOf i.props) root number edit).1.stage.document := by
  have hnode : ∀ {path node}, p.stage.document.resolve? root path = some node →
      node < p.stage.document.size := fun hr => Document.lt_size_of_resolve? hp hroot hr
  refine Progress.document_fillEdit number edit .refl ?_ ?_ ?_
  · intro path node name value hr
    exact .single (Document.admits_iff.mpr (by simpa [Document.touched] using hnode hr))
  · intro path node content index hr
    exact Document.evolves_insertText content index (hnode hr)
  · intro path node slot n hr hv
    exact hnested slot n hv node hp

/-- What the edits of a mount keep of a document: its links stay closed, and the root of the
copy is in it. -/
def Grounds (root : Nat) (d e : Document) : Prop :=
  d.Evolves e ∧ e.Closed ∧ root < e.size

theorem Grounds.step {root : Nat} {d e f : Document} (h : Grounds root d e) (hf : e.Evolves f) :
    Grounds root d f :=
  ⟨h.1.trans hf, hf.closed h.2.1, Nat.lt_of_lt_of_le h.2.2 hf.size_le⟩

theorem grounds_staged (i : Instance) {target : Nat} {s : Stage} (hd : s.document.Closed)
    (ht : target < (s.document.applyAll (i.block.skeleton.copy s.document.size)).size) :
    Grounds s.document.size s.document (i.staged target s).document := by
  have hevolves := Document.hang_evolves hd i.block.skeleton ht
  rw [document_staged]
  exact ⟨hevolves, hevolves.closed hd, Document.lt_size_hang ..⟩

/-- **A mount makes admitted changes only**, whatever its target is. -/
theorem mount_evolves (i : Instance) : ∀ (target : Nat) {s : Stage}, s.document.Closed →
    s.document.Evolves (i.mount target s).stage.document := by
  induction i using Instance.induction with
  | _ i ih =>
    intro target s hd
    rcases mount_cases i target s with hspared | ⟨-, ht, hm⟩
    · exact hspared.evolves
    · have hrun : Grounds s.document.size s.document (i.filled target s).1.stage.document := by
        refine Progress.fillEdits_induction
          (P := fun p => Grounds s.document.size s.document p.stage.document) ?_ _ 0
          (grounds_staged i hd ht)
        intro p number edit _ hp
        exact hp.step (evolves_fillEdit i ih number edit hp.2.1 hp.2.2)
      rw [hm, stage_concluded]
      exact hrun.1

/-- Every edit is made at a new node, and what is nested stays below it. -/
theorem confines_fillEdit {i : Instance} {target : Nat} {d : Document} (hd : d.Closed)
    (ht : target < d.size)
    (hnested : ∀ slot n, i.prop? slot = some (.block n) → ∀ {target : Nat} {s : Stage},
      s.document.Closed → target < s.document.size → n.isMounted = false →
      s.document.Hosts (n.mount target s).stage.document target)
    {p : Progress} (number : Nat) (edit : Edit)
    (hp : Document.Confines d.size (d.hang i.block.skeleton target) p.stage.document) :
    Document.Confines d.size (d.hang i.block.skeleton target)
      (p.fillEdit i.block (fillingsOf i.props) d.size number edit).1.stage.document := by
  have hhang := Document.hang_hosts hd i.block.skeleton ht
  have hclosed : p.stage.document.Closed := hp.evolves.closed (hhang.evolves.closed hd)
  have hroot : d.size < p.stage.document.size :=
    Nat.lt_of_lt_of_le hhang.grown hp.evolves.size_le
  -- a path from the root of the copy leads to new nodes only
  have hnode : ∀ {path node}, p.stage.document.resolve? d.size path = some node →
      d.size ≤ node ∧ node < p.stage.document.size := fun hr =>
    ⟨Document.le_of_resolve? hp.below (Nat.le_refl _) hr,
      Document.lt_size_of_resolve? hclosed hroot hr⟩
  have hmount : ∀ {slot nested node}, i.prop? slot = some (.block nested) →
      d.size ≤ node ∧ node < p.stage.document.size →
      Document.Confines d.size (d.hang i.block.skeleton target)
        (nested.mount node p.stage).stage.document := by
    intro slot nested node hv hn
    cases hm : nested.isMounted with
    | true => rw [mount_of_mounted hm]; exact hp
    | false => exact hp.hosts hn.1 hn.2 (hnested slot nested hv hclosed hn.2 hm)
  refine Progress.document_fillEdit number edit hp ?_ ?_ ?_
  · intro path node name value hr
    exact hp.setAttribute (hnode hr).1 (hnode hr).2 name value
  · intro path node content index hr
    exact hp.insertText (hnode hr).1 (hnode hr).2 content index
  · intro path node slot n hr hv
    exact hmount hv (hnode hr)

theorem confines_staged (i : Instance) {target : Nat} {s : Stage} (hd : s.document.Closed)
    (ht : target < s.document.size) :
    Document.Confines s.document.size (s.document.hang i.block.skeleton target)
      (i.staged target s).document := by
  rw [document_staged]
  exact ⟨.refl, fun _ _ => rfl, rfl, (Document.hang_hosts hd i.block.skeleton ht).below⟩

/-- **A mount is confined to its target**, also when it fails. -/
theorem mount_hosts (i : Instance) : ∀ {target : Nat} {s : Stage}, s.document.Closed →
    target < s.document.size → i.isMounted = false →
    s.document.Hosts (i.mount target s).stage.document target := by
  induction i using Instance.induction with
  | _ i ih =>
    intro target s hd ht hu
    have hhang := Document.hang_hosts hd i.block.skeleton ht
    have hrun : Document.Confines s.document.size (s.document.hang i.block.skeleton target)
        (i.filled target s).1.stage.document := by
      refine Progress.fillEdits_induction
        (P := fun p => Document.Confines s.document.size
          (s.document.hang i.block.skeleton target) p.stage.document) ?_ _ 0
        (confines_staged i hd ht)
      intro p number edit _ hp
      exact confines_fillEdit hd ht ih number edit hp
    rw [mount_of_unmounted hu ht, stage_concluded]
    -- among the old nodes, all is as it was when the copy was hung
    have hsame : ∀ x, x < s.document.size → (i.filled target s).1.stage.document.node? x =
        (s.document.hang i.block.skeleton target).node? x := hrun.old
    constructor
    · exact hhang.evolves.trans hrun.evolves
    · exact Nat.lt_of_lt_of_le hhang.grown hrun.evolves.size_le
    · intro x hx
      rw [Document.kind?_eq_of_node? (hsame x hx), hhang.kind x hx]
    · intro x hx hne
      rw [Document.children_eq_of_node? (hsame x hx), hhang.children x hx hne]
    · intro x hx
      rw [Document.parent?_eq_of_node? (hsame x hx), hhang.parent x hx]
    · rw [Document.children_eq_of_node? (hsame target ht), hhang.only]
    · rw [hrun.top, hhang.top]
    · exact hrun.below

end Instance

end Stencil
