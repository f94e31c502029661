import Stencil.Proofs.Instance.Confinement
import Stencil.Proofs.Instance.Faults
import Stencil.Proofs.Instance.Layout
import Stencil.Proofs.Path
/- Runs of edits. `Ends` is the form of all statements about a run: it is refused for
   this reason, or it succeeds and leaves something good. A run over two lists is proved
   from one over each (`ends_append`), and of a single edit it is said what it makes of
   the document and the values (`ends_attr`, `ends_attrs`, `ends_child`). -/
namespace Stencil

namespace Document

theorem resolve?_congr {d e : Document} (h : ∀ x, e.children x = d.children x) (x : Nat)
    (path : Path) : e.resolve? x path = d.resolve? x path := by
  induction path generalizing x with
  | nil => rfl
  | cons index rest ih =>
    simp only [resolve?, childAt?, h]
    cases (d.children x)[index]? with
    | none => rfl
    | some child => exact ih child

/-- A path leads from the root to a node, also when the nodes among `ids` get other
children and new nodes come up. -/
def Leads (d : Document) (root : Nat) (path : Path) (ids : List Nat) (x : Nat) : Prop :=
  ∀ e : Document, (∀ y, y < d.size → y ∉ ids → e.children y = d.children y) →
    e.resolve? root path = some x

section Leads

variable {d e : Document} {root : Nat} {path : Path} {ids ids' : List Nat} {x y : Nat}

theorem leads_nil : d.Leads root [] ids root :=
  fun _ _ => rfl

theorem Leads.resolve? (h : d.Leads root path ids x) : d.resolve? root path = some x :=
  h d fun _ _ _ => rfl

theorem Leads.keep (h : d.Leads root path ids x) (hsize : d.size ≤ e.size)
    (hsame : ∀ y, y < d.size → y ∉ ids → e.children y = d.children y) :
    e.Leads root path ids x := by
  intro f hf
  refine h f fun y hy hids => ?_
  rw [hf y (Nat.lt_of_lt_of_le hy hsize) hids, hsame y hy hids]

/-- A step down from a node that keeps its children. -/
theorem Leads.down (h : d.Leads root path ids x) (hx : x < d.size) (hids : x ∉ ids')
    (hsub : ∀ z ∈ ids', z ∈ ids) {index : Nat} (hchild : d.childAt? x index = some y) :
    d.Leads root (path ++ [index]) ids' y := by
  intro e he
  have hroot : e.resolve? root path = some x :=
    h e fun z hz hzids => he z hz fun hz' => hzids (hsub z hz')
  rw [resolve?_append, hroot]
  simp only [Option.bind_some, Document.resolve?, childAt?, he x hx hids]
  rw [childAt?] at hchild
  simp [hchild]

end Leads

end Document

namespace Progress

/-- A run is refused for this reason, or it succeeds and leaves something good. -/
def Ends (r : Progress × Except Failure (List Nat)) (fault : Option BlockError)
    (good : Progress → List Nat → Prop) : Prop :=
  match fault with
  | some error => r.2 = .error (.refused error)
  | none => ∃ nodes, r.2 = .ok nodes ∧ good r.1 nodes

variable {block : Block} {fillings : Bindings Filling} {root : Nat} {p : Progress} {number : Nat}
  {fault fault' : Option BlockError}

theorem Ends.mono {r : Progress × Except Failure (List Nat)} {good good' : Progress → List Nat → Prop}
    (h : Ends r fault good) (himp : ∀ q nodes, good q nodes → good' q nodes) :
    Ends r fault good' := by
  cases fault with
  | some error => exact h
  | none =>
    obtain ⟨nodes, hr, hgood⟩ := h
    exact ⟨nodes, hr, himp _ _ hgood⟩

/-- A run that has succeeded has left something good. -/
theorem Ends.good {q : Progress} {nodes : List Nat} {r : Progress × Except Failure (List Nat)} {fault : Option BlockError}
    {good : Progress → List Nat → Prop} (h : Ends r fault good) (hr : r = (q, .ok nodes)) :
    good q nodes := by
  subst hr
  cases fault with
  | some error => simp [Ends] at h
  | none =>
    obtain ⟨nodes', hnodes, hgood⟩ := h
    obtain rfl := Except.ok.inj hnodes
    exact hgood

theorem ends_nil {good : Progress → List Nat → Prop} (h : good p []) :
    Ends (p.fillEdits block fillings root number []) none good :=
  ⟨[], rfl, h⟩

theorem ends_append {es es' : List Edit} {first good : Progress → List Nat → Prop}
    (h : Ends (p.fillEdits block fillings root number es) fault first)
    (h' : ∀ q nodes, first q nodes →
      Ends (q.fillEdits block fillings root (number + es.length) es') fault'
        fun q' nodes' => good q' (nodes ++ nodes')) :
    Ends (p.fillEdits block fillings root number (es ++ es')) (fault.or fault') good := by
  rw [fillEdits_append]
  generalize p.fillEdits block fillings root number es = r at h
  obtain ⟨q, outcome⟩ := r
  cases fault with
  | some error =>
    obtain rfl : outcome = .error (.refused error) := h
    rfl
  | none =>
    obtain ⟨nodes, rfl, hfirst⟩ := h
    have hrest := h' q nodes hfirst
    simp only [Option.none_or]
    generalize q.fillEdits block fillings root (number + es.length) es' = r at hrest
    obtain ⟨q', outcome⟩ := r
    cases fault' with
    | some error =>
      obtain rfl : outcome = .error (.refused error) := hrest
      rfl
    | none =>
      obtain ⟨nodes', rfl, hgood⟩ := hrest
      exact ⟨nodes ++ nodes', rfl, hgood⟩

/-- A run over one edit. -/
theorem ends_single {edit : Edit} {good : Progress → List Nat → Prop}
    (h : match fault with
      | some error => (p.fillEdit block fillings root number edit).2 = .error (.refused error)
      | none => ∃ node, (p.fillEdit block fillings root number edit).2 = .ok node ∧
          good (p.fillEdit block fillings root number edit).1 [node]) :
    Ends (p.fillEdits block fillings root number [edit]) fault good := by
  simp only [fillEdits]
  generalize p.fillEdit block fillings root number edit = r at h
  obtain ⟨q, outcome⟩ := r
  cases fault with
  | some error =>
    obtain rfl : outcome = .error (.refused error) := h
    rfl
  | none =>
    obtain ⟨node, rfl, hgood⟩ := h
    exact ⟨[node], rfl, hgood⟩

/-- A run whose first edit has no node is refused for it. -/
theorem ends_lost {edit : Edit} {rest : List Edit} {good : Progress → List Nat → Prop}
    (h : p.stage.document.resolve? root edit.path = none) :
    Ends (p.fillEdits block fillings root number (edit :: rest))
      (some (.pathUnresolved number edit.path)) good := by
  have hedit : p.fillEdit block fillings root number edit =
      (p, .error (.refused (.pathUnresolved number edit.path))) := by
    simp [fillEdit, h]
  simp [Ends, fillEdits, hedit]

end Progress

namespace Instance

variable {source : Block → Fragment}

/-- What a mount that succeeds in a document leaves: the instance stands at a layout of
new nodes, with the first of them for its root, and is rendered like the one before. -/
structure Lands (source : Block → Fragment) (i : Instance) (d : Document) (m : Mounting)
    (L : Layout) : Prop where
  outcome : m.outcome = .ok d.size
  id : L.id = d.size
  stands : m.mounted.Stands source m.stage.document L
  nodup : L.ids.Nodup
  fresh : ∀ x ∈ L.ids, d.size ≤ x ∧ x < m.stage.document.size
  render : m.mounted.render source = i.render source

/-- Every mount of the instance is refused for its fault, and lands if it has none. -/
def Settles (source : Block → Fragment) (i : Instance) : Prop :=
  ∀ (target : Nat) (s : Stage), s.document.Closed → target < s.document.size →
    match i.mountFault source with
    | some error => (i.mount target s).outcome = .error (.refused error)
    | none => ∃ L, i.Lands source s.document (i.mount target s) L

theorem isMounted_of_mountFault {i : Instance} (h : i.mountFault source = none) :
    i.isMounted = false := by
  rw [mountFault_eq] at h
  split at h
  · simp at h
  · simp_all

end Instance

namespace Progress

section Edits

variable {source : Block → Fragment} {block : Block} {slots : Bindings Value} {root : Nat}
  {p : Progress} {number node : Nat} {path : Path}

/-- The values of slots as a rendering uses them. -/
def shows (source : Block → Fragment) (slots : Bindings Value) (slot : String) :
    Option Showing :=
  (slots.get? slot).map (Value.showing source)

/-- Why the nested instances in slots are refused. -/
def refuses (source : Block → Fragment) (slots : Bindings Value) (slot : String) :
    Option BlockError :=
  (slots.get? slot).bind (Value.mountFault source)

theorem ends_attr (hr : p.stage.document.resolve? root path = some node) (name hole : String) :
    Ends (p.fillEdits block (fillingsOf slots) root number [.attr path name hole])
      (Edit.fault block.usesOf (shows source slots) (refuses source slots) (.attr path name hole))
      fun q nodes => nodes = [node] ∧ q.props = p.props ∧
        ∃ value, shows source slots hole = some (.scalar value) ∧
          q.stage.document = p.stage.document.setAttribute node name value := by
  apply ends_single
  have hfills := fills p block slots root number (.attr path name hole)
  generalize p.fillEdit block (fillingsOf slots) root number (.attr path name hole) = r at hfills ⊢
  cases hfills with
  | unresolved hr' => simp [Edit.path, hr] at hr'
  | missing hr' hv =>
    rw [Edit.hole] at hv
    simp [Edit.fault, shows, hv, Edit.hole]
  | attr hr' hv =>
    obtain rfl := Option.some.inj (hr.symm.trans hr')
    simp [Edit.fault, shows, hv, Value.showing, Document.applyAll, Document.apply]
  | attrBlock hr' hv => simp [Edit.fault, shows, hv, Value.showing]

/-- What the edits of an element's properties leave: the element with these scalars
written to its attributes. -/
structure Dresses (d e : Document) (node : Nat) (pairs : List (String × Scalar)) : Prop where
  evolves : d.Evolves e
  size : e.size = d.size
  kind : ∀ tag held, d.kind? node = some (.element tag held) →
    e.kind? node = some (.element tag (Bindings.writeAll pairs held))
  children : ∀ x, e.children x = d.children x
  same : ∀ x, x ≠ node → d.SameAt e x

theorem Dresses.cons {d e : Document} {name : String} {value : Scalar}
    {pairs : List (String × Scalar)} (hnode : node < d.size)
    (h : Dresses (d.setAttribute node name value) e node pairs) :
    Dresses d e node ((name, value) :: pairs) where
  evolves := by
    have hadmits : d.admits (.setAttribute node name value) = true :=
      Document.admits_iff.mpr (by simpa [Document.touched] using hnode)
    have hstep := Document.Evolves.single hadmits
    exact hstep.trans h.evolves
  size := h.size.trans (Document.size_setAttribute ..)
  kind tag held hk := by
    have hset : (d.setAttribute node name value).kind? node =
        some (.element tag (Bindings.write name value held)) := by
      simp [Document.kind?_setAttribute, hk, NodeKind.writeAttribute]
    rw [h.kind tag _ hset]
    rfl
  children x := (h.children x).trans (Document.children_setAttribute ..)
  same x hx := by
    have hset := Document.SameAt.of_node? (Document.node?_setAttribute_of_ne d hx name value)
    exact hset.trans (h.same x hx)

/-- A run over the edits of an element's properties. -/
theorem ends_attrs {c : Cursor} (hc : c.toPath = path) {props : PropList}
    (hr : props.edits c ≠ [] → p.stage.document.resolve? root path = some node)
    (hnode : node < p.stage.document.size) :
    Ends (p.fillEdits block (fillingsOf slots) root number (props.edits c))
      ((props.edits c).findSome?
        (Edit.fault block.usesOf (shows source slots) (refuses source slots)))
      fun q nodes => nodes = (props.filterMap fun p => p.2.hole?).map (fun _ => node) ∧
        q.props = p.props ∧ ∃ pairs, props.bound (shows source slots) = some pairs ∧
          Dresses p.stage.document q.stage.document node pairs := by
  induction props generalizing p number with
  | nil =>
    refine ends_nil ⟨rfl, rfl, [], rfl, ?_⟩
    exact ⟨.refl, rfl, fun _ _ hk => hk, fun _ => rfl, fun _ _ => .refl ..⟩
  | cons entry rest ih =>
    obtain ⟨name, value⟩ := entry
    cases value with
    | fixed value =>
      refine (ih hr hnode).mono fun q nodes h => ?_
      simpa [PropValue.hole?, PropList.bound] using h
    | hole hole =>
      have hresolve := hr (by simp [PropList.edits])
      have hfault : ∀ (g : Edit → Option BlockError) e es,
          (e :: es).findSome? g = (g e).or (es.findSome? g) := by
        intro g e es
        rw [List.findSome?_cons]
        cases g e <;> rfl
      rw [PropList.edits, hc, hfault]
      refine ends_append (ends_attr hresolve name hole) ?_
      rintro q nodes ⟨rfl, hprops, value, hv, hdoc⟩
      -- no link has changed, so the path leads to the same node
      have hresolve' : q.stage.document.resolve? root path = some node := by
        rw [hdoc, Document.resolve?_congr fun x => Document.children_setAttribute ..]
        exact hresolve
      refine (ih (fun _ => hresolve') (by simpa [hdoc] using hnode)).mono fun r nodes' => ?_
      rintro ⟨rfl, hprops', pairs, hpairs, hdresses⟩
      refine ⟨by simp [PropValue.hole?], hprops'.trans hprops, (name, value) :: pairs, ?_, ?_⟩
      · simp [PropList.bound, hv, hpairs]
      · rw [hdoc] at hdresses
        exact hdresses.cons hnode

/-- A run over one child edit: a text node takes the scalar to the child's index, or the
nested instance is mounted at the node. -/
theorem ends_child (hr : p.stage.document.resolve? root path = some node) (index : Nat)
    (hole : String) (hclosed : p.stage.document.Closed) (hnode : node < p.stage.document.size)
    (hnest : ∀ n, slots.get? hole = some (.block n) → n.Settles source) :
    Ends (p.fillEdits block (fillingsOf slots) root number [.child path index hole])
      (Edit.fault block.usesOf (shows source slots) (refuses source slots)
        (.child path index hole))
      fun q nodes => nodes = [node] ∧
        ((∃ value, slots.get? hole = some (.scalar value) ∧ q.props = p.props ∧
          q.stage.document = (p.stage.document.createText value.text).insertChild node index
            p.stage.document.size) ∨
        ∃ n L, slots.get? hole = some (.block n) ∧ block.usesOf hole ≤ 1 ∧
          n.isMounted = false ∧ n.Lands source p.stage.document (n.mount node p.stage) L ∧
          q.stage.document = (n.mount node p.stage).stage.document ∧
          q.props = p.props.insert hole (.block (n.mount node p.stage).mounted)) := by
  apply ends_single
  have hfills := fills p block slots root number (.child path index hole)
  generalize p.fillEdit block (fillingsOf slots) root number (.child path index hole) = r
    at hfills ⊢
  cases hfills with
  | unresolved hr' => simp [Edit.path, hr] at hr'
  | missing hr' hv =>
    rw [Edit.hole] at hv
    simp [Edit.fault, shows, hv, Edit.hole]
  | leaf hr' hv =>
    obtain rfl := Option.some.inj (hr.symm.trans hr')
    simp [Edit.fault, shows, hv, Value.showing, Document.applyAll, Document.apply]
  | shared hr' hv huses => simp [Edit.fault, shows, hv, Value.showing, huses]
  | nestedFails hr' hv huses hm =>
    obtain rfl := Option.some.inj (hr.symm.trans hr')
    have hsettles := hnest _ hv _ p.stage hclosed hnode
    simp only [Edit.fault, shows, refuses, hv, Option.map_some, Value.showing,
      Nat.not_lt_of_le huses, if_false, Option.bind_some, Value.mountFault]
    split at hsettles
    · rw [← hsettles, hm]
    · obtain ⟨L, hL⟩ := hsettles
      rw [hL.outcome] at hm
      simp at hm
  | nested hr' hv huses hm =>
    obtain rfl := Option.some.inj (hr.symm.trans hr')
    have hsettles := hnest _ hv _ p.stage hclosed hnode
    simp only [Edit.fault, shows, refuses, hv, Option.map_some, Value.showing,
      Nat.not_lt_of_le huses, if_false, Option.bind_some, Value.mountFault]
    split at hsettles
    · rw [hsettles] at hm
      simp at hm
    · rename_i hfault
      obtain ⟨L, hL⟩ := hsettles
      refine ⟨_, rfl, rfl, .inr ⟨_, L, rfl, huses, ?_, hL, rfl, rfl⟩⟩
      exact Instance.isMounted_of_mountFault hfault

end Edits

end Progress

end Stencil
