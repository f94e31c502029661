import Stencil.Proofs.Instance.Placing
import Stencil.Proofs.Template.Crossing
/- Mounting is rendering. The copy of a skeleton lacks the holes, and nested instances
   take fixed children out of the tree, so the index of a child edit is right only at the
   time of its turn. The induction is on the fragment, with the children of the node that
   is being filled as an invariant (`Underway`): first those that are done, then, unless a
   nested instance covers them, the copies of the fixed children to come. -/
namespace Stencil

open Progress (shows refuses Ends)
open Skeleton (plant plants)

namespace Fragment

variable {source : Block → Fragment} {block : Block} {slots : Bindings Value}

/-- The children of the node `x` are being filled and these fragments are to come, with
copies of those that are fixed from the node `y` on. -/
structure Underway (source : Block → Fragment) (slots : Bindings Value) (p : Progress) (x y : Nat)
    (covered : Bool) (before : List Nat) (index : Nat) (fs : List Fragment) : Prop where
  closed : p.stage.document.Closed
  node : x < p.stage.document.size
  showing : ∀ slot, shows source p.props slot = shows source slots slot
  pristine : p.stage.document.ShowsAll (plants y (skeletons fs))
  after : x < y
  children : p.stage.document.children x =
    before ++ if covered then [] else (plants y (skeletons fs)).map Tree.id
  counted : before.length ≤ index
  uncovered : covered = false → before.length = index

/-- The rest of the children of the node `x` are filled. -/
structure Completed (source : Block → Fragment) (block : Block) (slots : Bindings Value)
    (es : List Edit) (p : Progress) (x y : Nat) (covered : Bool) (before : List Nat)
    (fs : List Fragment) (q : Progress) (nodes : List Nat) (Ls : List Layout) : Prop where
  nodes : nodes = childNodes x fs Ls
  filled : Filled source block slots es (x :: Tree.allIds (plants y (skeletons fs)))
    (Tree.allIds (plants y (skeletons fs))) p q fs Ls
  kind : q.stage.document.kind? x = p.stage.document.kind? x
  children : q.stage.document.children x =
    arranged (shows source slots) covered before fs (Ls.map Layout.id)

section Children

variable {p q r : Progress} {x y index : Nat} {covered : Bool} {before : List Nat}
  {f : Fragment} {fs : List Fragment} {e : Edit} {es : List Edit} {L : Layout} {Ls : List Layout}
  {name : String} {nodes : List Nat}

theorem Underway.lt_size (h : Underway source slots p x y covered before index fs) :
    ∀ z ∈ Tree.allIds (plants y (skeletons fs)), z < p.stage.document.size :=
  h.pristine.lt_size

theorem Underway.notMem (h : Underway source slots p x y covered before index fs) :
    x ∉ Tree.allIds (plants y (skeletons fs)) := by
  intro hm
  have := h.after
  have := Skeleton.mem_allIds_plants.mp hm
  omega

/-- The children are still under way when a hole is filled. -/
theorem Underway.hole {covered' : Bool} {before' : List Nat}
    (h : Underway source slots p x y covered before index (.hole name :: fs))
    (hfilled : Filled source block slots [e] [x] [] p q [.hole name] [L])
    (hchildren : q.stage.document.children x =
      before' ++ if covered' then [] else (plants y (skeletons fs)).map Tree.id)
    (hcounted : before'.length ≤ index + 1)
    (huncovered : covered' = false → before'.length = index + 1) :
    Underway source slots q x y covered' before' (index + 1) fs where
  closed := hfilled.keeps.evolves.closed h.closed
  node := Nat.lt_of_lt_of_le h.node hfilled.keeps.size_le
  showing slot := (hfilled.keeps.showing slot).trans (h.showing slot)
  pristine := by
    refine Document.ShowsAll.congr h.pristine fun z hz => ?_
    refine hfilled.keeps.same z (h.lt_size z hz) ?_
    rw [List.mem_singleton]
    rintro rfl
    exact h.notMem hz
  after := h.after
  children := hchildren
  counted := hcounted
  uncovered := huncovered

theorem Completed.hole {covered' : Bool} {before' : List Nat}
    (h : Underway source slots p x y covered before index (.hole name :: fs))
    (hfilled : Filled source block slots [e] [x] [] p q [.hole name] [L])
    (hkind : q.stage.document.kind? x = p.stage.document.kind? x) (he : e.hole = name)
    (hsub : (e :: es).Sublist block.edits)
    (hrest : Completed source block slots es q x y covered' before' fs r nodes Ls)
    (harranged : arranged (shows source slots) covered before (.hole name :: fs)
        (L.id :: Ls.map Layout.id) =
      arranged (shows source slots) covered' before' fs (Ls.map Layout.id)) :
    Completed source block slots (e :: es) p x y covered before (.hole name :: fs) r (x :: nodes)
      (L :: Ls) where
  nodes := by simp [childNodes, hole?, hrest.nodes]
  filled := by
    refine hfilled.cons hrest.filled (fun slot hs => ⟨e, by simp, ?_⟩) hsub (fun z hz => ⟨?_, by simp⟩)
      (by simp) (fun z hz => List.mem_cons_of_mem _ hz) (fun z hz => ?_)
    · rw [he, List.mem_singleton.mp hs]
    · rcases List.mem_cons.mp hz with rfl | hz
      · exact h.node
      · exact h.lt_size z hz
    · rcases hz with hz | hz
      · exact List.mem_singleton.mp hz ▸ List.mem_cons_self
      · exact hz
  kind := hrest.kind.trans hkind
  children := hrest.children.trans harranged.symm

theorem skeletons_cons {s : Skeleton} (hs : f.skeleton = .ok s) (fs : List Fragment) :
    skeletons (f :: fs) = s :: skeletons fs := by
  simp [skeletons, hs]

theorem plants_cons {s : Skeleton} (hs : f.skeleton = .ok s) (y : Nat) (fs : List Fragment) :
    plants y (skeletons (f :: fs)) = s.plant y :: plants (y + s.nodeCount) (skeletons fs) := by
  rw [skeletons_cons hs, plants]

theorem mem_allIds_cons {s : Skeleton} (hs : f.skeleton = .ok s) {z : Nat} :
    z ∈ Tree.allIds (plants y (skeletons (f :: fs))) ↔
      z ∈ (s.plant y).ids ∨ z ∈ Tree.allIds (plants (y + s.nodeCount) (skeletons fs)) := by
  rw [plants_cons hs, Tree.allIds, List.mem_append]

/-- The copies of two children have no node in common. -/
theorem notMem_of_mem_rest {s : Skeleton} {z : Nat}
    (h : z ∈ Tree.allIds (plants (y + s.nodeCount) (skeletons fs))) : z ∉ (s.plant y).ids := by
  intro h'
  have := Skeleton.mem_allIds_plants.mp h
  have := Skeleton.mem_ids_plant.mp h'
  omega

/-- The children are still under way when a fixed child is filled. -/
theorem Underway.static {s : Skeleton}
    (h : Underway source slots p x y covered before index (f :: fs)) (hs : f.skeleton = .ok s)
    (hkeeps : p.Keeps source block es (s.plant y).ids q) :
    Underway source slots q x (y + s.nodeCount) covered (if covered then before else before ++ [y])
      (index + 1) fs where
  closed := hkeeps.evolves.closed h.closed
  node := Nat.lt_of_lt_of_le h.node hkeeps.size_le
  showing slot := (hkeeps.showing slot).trans (h.showing slot)
  pristine := by
    have hshows := h.pristine
    rw [plants_cons hs] at hshows
    refine Document.ShowsAll.congr hshows.2 fun z hz => ?_
    exact hkeeps.same z (h.lt_size z ((mem_allIds_cons hs).mpr (.inr hz))) (notMem_of_mem_rest hz)
  after := Nat.lt_of_lt_of_le h.after (Nat.le_add_right ..)
  children := by
    have hx : x ∉ (s.plant y).ids := fun hm => h.notMem ((mem_allIds_cons hs).mpr (.inl hm))
    rw [(hkeeps.same x h.node hx).2, h.children, plants_cons hs]
    cases covered <;> simp
  counted := by
    have := h.counted
    cases covered <;> simp <;> omega
  uncovered hc := by
    subst hc
    simp [h.uncovered rfl]

theorem Completed.static {s : Skeleton} {es' : List Edit} {nodes' : List Nat}
    (h : Underway source slots p x y covered before index (f :: fs)) (hs : f.skeleton = .ok s)
    (hes : ∀ hole ∈ f.holes, ∃ e ∈ es, e.hole = hole) (hsub : (es ++ es').Sublist block.edits)
    (hid : L.id = y) (hnodes : nodes = f.nodes L)
    (hfilled : Filled source block slots es (s.plant y).ids (s.plant y).ids p q [f] [L])
    (hrest : Completed source block slots es' q x (y + s.nodeCount) covered
      (if covered then before else before ++ [y]) fs r nodes' Ls) :
    Completed source block slots (es ++ es') p x y covered before (f :: fs) r (nodes ++ nodes')
      (L :: Ls) where
  nodes := by simp [childNodes, hole?_eq_none hs, hrest.nodes, hnodes]
  filled := by
    have hx : x ∉ (s.plant y).ids := fun hm => h.notMem ((mem_allIds_cons hs).mpr (.inl hm))
    rw [plants_cons hs]
    refine hfilled.cons hrest.filled hes hsub (fun z hz => ?_) (fun z hz => ?_)
      (fun z hz => List.mem_cons_of_mem _ hz) (fun z hz => ?_)
    · rcases List.mem_cons.mp hz with rfl | hz
      · exact ⟨h.node, hx⟩
      · exact ⟨h.lt_size z ((mem_allIds_cons hs).mpr (.inr hz)), notMem_of_mem_rest hz⟩
    · exact h.lt_size z ((mem_allIds_cons hs).mpr (.inl hz))
    · rw [List.mem_cons, Tree.allIds, List.mem_append]
      rcases hz with hz | hz
      · exact .inr (.inl hz)
      · exact (List.mem_cons.mp hz).imp id .inr
  kind := by
    have hx : x ∉ (s.plant y).ids := fun hm => h.notMem ((mem_allIds_cons hs).mpr (.inl hm))
    exact hrest.kind.trans (hfilled.keeps.same x h.node hx).1
  children := by
    rw [hrest.children, List.map_cons, arranged_static (hole?_eq_none hs), hid]

end Children

section Runs

variable {root : Nat}

theorem insertAt_append {before after : List Nat} {index : Nat} (x : Nat)
    (h : before.length = index ∨ after = [] ∧ before.length ≤ index) :
    Document.insertAt index x (before ++ after) = before ++ x :: after := by
  rcases h with rfl | ⟨rfl, hle⟩
  · simp [Document.insertAt]
  · simp [Document.insertAt, List.take_of_length_le hle, List.drop_eq_nil_of_le hle]

/-- No path goes on to a fixed child once a nested instance has taken the place of the children
before it: fewer children are left than its index. -/
theorem Underway.resolve?_covered {p : Progress} {x y index : Nat} {before : List Nat} {path : Path}
    {f : Fragment} {fs : List Fragment} {e : Edit}
    (h : Underway source slots p x y true before index (f :: fs))
    (hlead : p.stage.document.resolve? root path = some x)
    (he : e ∈ f.edits (.ofPath (path ++ [index]))) :
    p.stage.document.resolve? root e.path = none := by
  obtain ⟨more, hmore, -⟩ := reaches_of_mem_edits (path ++ [index]) he
  have hnone : p.stage.document.childAt? x index = none := by
    simpa [Document.childAt?, h.children] using h.counted
  calc p.stage.document.resolve? root e.path
      = p.stage.document.resolve? root (path ++ index :: more) := by simp [hmore]
    _ = p.stage.document.resolve? x (index :: more) := by
        rw [Document.resolve?_append, hlead, Option.bind_some]
    _ = none := by rw [Document.resolve?, hnone, Option.bind_none]

theorem exists_skeleton {f : Fragment} (h : f.hole? = none) : ∃ s, f.skeleton = .ok s := by
  cases f <;> simp_all [skeleton, hole?]

theorem ends_of_nil {p : Progress} {fillings : Bindings Filling} {number : Nat}
    {fault : Option BlockError} {good : Progress → List Nat → Prop}
    (h : Ends (p.fillEdits block fillings root number []) fault good) :
    Ends (p.fillEdits block fillings root number []) none good := by
  cases fault with
  | some error => simp [Ends, Progress.fillEdits] at h
  | none => exact h

/-- An element is filled when its attributes are written and its children are done. -/
theorem filled_element {p q r : Progress} {x : Nat} {tag : String} {props : PropList}
    {children : List Fragment} {es es' : List Edit} {pairs : List (String × Scalar)}
    {nodes : List Nat} {Ls : List Layout}
    (hk : p.stage.document.kind? x = some (.element tag (Bindings.writeAll props.fixed [])))
    (hprops : q.props = p.props) (hpairs : props.bound (shows source slots) = some pairs)
    (hdress : Progress.Dresses p.stage.document q.stage.document x pairs)
    (h : Completed source block slots es' q x (x + 1) false [] children r nodes Ls) :
    Filled source block slots (es ++ es') (x :: Tree.allIds (plants (x + 1) (skeletons children)))
      (x :: Tree.allIds (plants (x + 1) (skeletons children))) p r [.element tag props children]
      [.node x Ls] := by
  have hx : x < p.stage.document.size := Document.lt_size_of_kind? hk
  constructor
  · have hfirst : p.Keeps source block es (x :: Tree.allIds (plants (x + 1) (skeletons children)))
        q := by
      refine ⟨hdress.evolves, fun z _ hz => hdress.same z ?_, fun slot => by rw [hprops],
        fun slot => .inl (by rw [hprops])⟩
      exact fun hzx => hz (hzx ▸ List.mem_cons_self)
    exact hfirst.trans h.filled.keeps
  · have hlen : (Ls.map Layout.id).length = children.length := by
      rw [List.length_map, h.filled.placed.length]
    refine ⟨⟨⟨Bindings.writeAll pairs (Bindings.writeAll props.fixed []), ?_, ?_⟩, ?_,
      h.filled.placed⟩, trivial⟩
    · simp [PropList.rendered, hpairs]
    · rw [h.kind, hdress.kind _ _ hk]
    · rw [h.children, arranged_all hlen]
  · intro n K hm
    exact h.filled.held n K (by simpa [allHeld, held] using hm)
  · simp only [Layout.allIds, Layout.ids, List.append_nil, List.nodup_cons]
    refine ⟨fun hm => ?_, h.filled.nodup⟩
    rcases h.filled.within x hm with hm | ⟨hge, -⟩
    · have := Skeleton.mem_allIds_plants.mp hm
      omega
    · rw [hdress.size] at hge
      omega
  · intro z hz
    simp only [Layout.allIds, Layout.ids, List.append_nil, List.mem_cons] at hz
    rcases hz with rfl | hz
    · exact .inl List.mem_cons_self
    · rw [← hdress.size]
      exact (h.filled.within z hz).imp (List.mem_cons_of_mem _) id

/-- Wherever a copy of the fragment's skeleton is led to, a run over the edits of the
fragment fills it, or is refused for its fault. -/
def Fillable (source : Block → Fragment) (block : Block) (slots : Bindings Value) (root : Nat)
    (f : Fragment) : Prop :=
  ∀ {s : Skeleton} {path : Path} {number x : Nat} {p : Progress}, f.skeleton = .ok s →
    (f.edits (.ofPath path)).Sublist block.edits → p.stage.document.Closed →
    (∀ slot, shows source p.props slot = shows source slots slot) →
    p.stage.document.Shows (s.plant x) →
    (f.edits (.ofPath path) ≠ [] → p.stage.document.Leads root path (s.plant x).ids x) →
    Ends (p.fillEdits block (fillingsOf slots) root number (f.edits (.ofPath path)))
      (f.fault block.usesOf (shows source slots) (refuses source slots) (.ofPath path) number)
      fun q nodes => ∃ L, L.id = x ∧ nodes = f.nodes L ∧
        Filled source block slots (f.edits (.ofPath path)) (s.plant x).ids (s.plant x).ids p q
          [f] [L]

/-- Wherever these children are to come, a run over their edits completes them, or is
refused for their fault. -/
def Completable (source : Block → Fragment) (block : Block) (slots : Bindings Value) (root : Nat)
    (fs : List Fragment) : Prop :=
  ∀ {path : Path} {number x y index : Nat} {covered : Bool} {before ids : List Nat} {p : Progress},
    Underway source slots p x y covered before index fs →
    (childEdits (.ofPath path) index fs).Sublist block.edits →
    (childEdits (.ofPath path) index fs ≠ [] → p.stage.document.Leads root path ids x) →
    (∀ z ∈ x :: Tree.allIds (plants y (skeletons fs)), z ∈ ids) →
    Ends (p.fillEdits block (fillingsOf slots) root number (childEdits (.ofPath path) index fs))
      (childFault block.usesOf (shows source slots) (refuses source slots) (.ofPath path) number
        index covered fs)
      fun q nodes => ∃ Ls, Completed source block slots (childEdits (.ofPath path) index fs) p x y
        covered before fs q nodes Ls

theorem fillable_text (value : Scalar) : Fillable source block slots root (.text value) := by
  intro s path number x p hs _ _ _ hshows _
  obtain rfl := Except.ok.inj hs
  refine Progress.ends_nil ⟨.node x [], rfl, rfl, .refl, ⟨?_, trivial⟩, ?_, ?_, ?_⟩
  · simpa [Placed, plant, Document.Shows] using hshows
  · simp [allHeld, held]
  · simp [Layout.allIds, Layout.ids]
  · intro z hz
    simp only [Layout.allIds, Layout.ids, List.append_nil, List.mem_singleton] at hz
    simp [plant, Tree.ids, hz]

/-- A hole has no skeleton, so there is no copy of it. -/
theorem fillable_hole (name : String) : Fillable source block slots root (.hole name) := by
  intro s path number x p hs
  simp [skeleton] at hs

/-- Once the attributes of an element are written, its children are under way: they are as
in the copy. -/
theorem Underway.start {tag : String} {props : PropList} {children : List Fragment} {s : Skeleton}
    {x : Nat} {p q : Progress} {pairs : List (String × Scalar)}
    (hs : (element tag props children).skeleton = .ok s) (hclosed : p.stage.document.Closed)
    (hshowing : ∀ slot, shows source p.props slot = shows source slots slot)
    (hshows : p.stage.document.Shows (s.plant x)) (hprops : q.props = p.props)
    (hdress : Progress.Dresses p.stage.document q.stage.document x pairs) :
    Underway source slots q x (x + 1) false [] 0 children := by
  obtain rfl := Except.ok.inj hs
  simp only [plant, Document.Shows] at hshows
  obtain ⟨hk, hc, hall⟩ := hshows
  have hbelow : ∀ z ∈ Tree.allIds (plants (x + 1) (skeletons children)), z ≠ x := by
    rintro z hz rfl
    exact absurd (Skeleton.mem_allIds_plants.mp hz).1 (Nat.not_succ_le_self z)
  refine ⟨hdress.evolves.closed hclosed, ?_, fun slot => ?_, ?_, Nat.lt_succ_self x, ?_,
    Nat.le_refl _, fun _ => rfl⟩
  · rw [hdress.size]
    exact Document.lt_size_of_kind? hk
  · rw [hprops, hshowing]
  · exact hall.congr fun z hz => hdress.same z (hbelow z hz)
  · rw [hdress.children, hc]
    rfl

/-- A path leads to the same node once its attributes are written. -/
theorem leads_of_dresses {p q : Progress} {path : Path} {ids : List Nat} {x node : Nat}
    {pairs : List (String × Scalar)} (h : p.stage.document.Leads root path ids x)
    (hdress : Progress.Dresses p.stage.document q.stage.document node pairs) :
    q.stage.document.Leads root path ids x :=
  h.keep (by rw [hdress.size]) fun z _ _ => hdress.children z

theorem fillable_element {tag : String} {props : PropList} {children : List Fragment}
    (hchildren : Completable source block slots root children) :
    Fillable source block slots root (.element tag props children) := by
  intro s path number x p hs hsub hclosed hshowing hshows hlead
  have hroot := hshows
  obtain rfl := Except.ok.inj hs
  simp only [plant, Document.Shows] at hroot
  have hk := hroot.1
  refine Progress.ends_append (Progress.ends_attrs (Cursor.toPath_ofPath path)
    (fun hne => (hlead (by simp [edits, hne])).resolve?) (Document.lt_size_of_kind? hk)) ?_
  rintro q nodes ⟨rfl, hprops, pairs, hpairs, hdress⟩
  have hunderway : Underway source slots q x (x + 1) false [] 0 children :=
    .start hs hclosed hshowing hshows hprops hdress
  have hlead' : childEdits (.ofPath path) 0 children ≠ [] → q.stage.document.Leads root path
      (x :: Tree.allIds (plants (x + 1) (skeletons children))) x :=
    fun hne => leads_of_dresses (hlead (by simp [edits, hne])) hdress
  refine (hchildren hunderway ((List.sublist_append_right _ _).trans hsub) hlead'
    fun _ hz => hz).mono ?_
  rintro r nodes' ⟨Ls, hdone⟩
  refine ⟨.node x Ls, rfl, ?_, filled_element hk hprops hpairs hdress hdone⟩
  rw [hdone.nodes, Fragment.nodes]

/-- The children are still under way after the text of a scalar. -/
theorem Underway.leaf {p q : Progress} {x y index : Nat} {covered : Bool} {before : List Nat}
    {name : String} {rest : List Fragment} {e : Edit} {value : Scalar}
    (h : Underway source slots p x y covered before index (.hole name :: rest))
    (hfilled : Filled source block slots [e] [x] [] p q [.hole name]
      [.node p.stage.document.size []])
    (hdoc : q.stage.document = (p.stage.document.createText value.text).insertChild x index
      p.stage.document.size) :
    Underway source slots q x y covered (before ++ [p.stage.document.size]) (index + 1) rest := by
  refine h.hole hfilled ?_ ?_ ?_
  · rw [hdoc, Document.children_insertText _ _ h.node, if_pos rfl, h.children, insertAt_append,
      List.append_assoc]
    · rfl
    -- the index is exact before the first nested instance, and clamped to the end after it
    · cases covered with
      | false => exact .inl (h.uncovered rfl)
      | true => exact .inr ⟨rfl, h.counted⟩
  · have := h.counted
    simpa using this
  · intro hc
    simp [h.uncovered hc]

theorem completable_nil : Completable source block slots root [] := by
  intro path number x y index covered before ids p h _ _ _
  refine Progress.ends_nil ⟨[], rfl, ⟨.refl, trivial, ?_, ?_, ?_⟩, rfl, ?_⟩
  · simp [allHeld]
  · simp [Layout.allIds]
  · simp [Layout.allIds]
  · rw [h.children]
    cases covered <;> simp [arranged, skeletons, plants, ofHoles]

/-- A path leads to the same node once nodes below it have been filled. -/
theorem leads_of_keeps {es : List Edit} {touched ids : List Nat} {p q : Progress} {path : Path}
    {x : Nat} (h : p.stage.document.Leads root path ids x)
    (hkeeps : p.Keeps source block es touched q) (hids : ∀ z ∈ touched, z ∈ ids) :
    q.stage.document.Leads root path ids x :=
  h.keep hkeeps.size_le fun z hz hzids => (hkeeps.same z hz fun hm => hzids (hids z hm)).2

/-- A run over the edit of a hole fills it, and the other children are under way. -/
theorem ends_hole {p : Progress} {x y index number : Nat} {covered : Bool} {before : List Nat}
    {path : Path} {name : String} {rest : List Fragment}
    (h : Underway source slots p x y covered before index (.hole name :: rest))
    (hnest : ∀ n, slots.get? name = some (.block n) → n.Settles source)
    (hr : p.stage.document.resolve? root path = some x) :
    Ends (p.fillEdits block (fillingsOf slots) root number [.child path index name])
      (Edit.fault block.usesOf (shows source slots) (refuses source slots) (.child path index name))
      fun q nodes => nodes = [x] ∧ q.stage.document.kind? x = p.stage.document.kind? x ∧
        ∃ before' L, Filled source block slots [.child path index name] [x] [] p q [.hole name] [L] ∧
          Underway source slots q x y (covered || (hole name).isBlock (shows source slots)) before'
            (index + 1) rest ∧
          ∀ ids, arranged (shows source slots) covered before (.hole name :: rest) (L.id :: ids) =
            arranged (shows source slots) (covered || (hole name).isBlock (shows source slots))
              before' rest ids := by
  refine (Progress.ends_child hr index name h.closed h.node hnest).mono ?_
  rintro q nodes ⟨rfl, hcase⟩
  refine ⟨rfl, ?_⟩
  rcases hcase with ⟨value, hv, hprops, hdoc⟩ | ⟨n, L, hv, huses, hunmounted, hlands, hdoc, hprops⟩
  · have hblock : (hole name).isBlock (shows source slots) = false := by
      simp [isBlock, shows, hv, Value.showing, Showing.isBlock]
    have hkind : q.stage.document.kind? x = p.stage.document.kind? x := by
      rw [hdoc, Document.kind?_insertChild, Document.kind?_createText,
        if_neg (Nat.ne_of_lt h.node)]
    have hfilled : Filled source block slots [.child path index name] [x] [] p q [.hole name]
        [.node p.stage.document.size []] := filled_leaf h.showing h.node hv hprops hdoc
    rw [hblock, Bool.or_false]
    exact ⟨hkind, _, _, hfilled, h.leaf hfilled hdoc, fun ids => arranged_leaf hblock _⟩
  · have hblock : (hole name).isBlock (shows source slots) = true := by
      simp [isBlock, shows, hv, Value.showing, Showing.isBlock]
    have hhosts := Instance.mount_hosts n h.closed h.node hunmounted
    rw [← hdoc] at hhosts
    have hfilled : Filled source block slots [.child path index name] [x] [] p q [.hole name] [L] :=
      filled_nested h.showing h.closed h.node hv huses hunmounted hlands hdoc hprops
    rw [hblock, Bool.or_true]
    have hunder : Underway source slots q x y true [p.stage.document.size] (index + 1) rest := by
      refine h.hole hfilled ?_ (by simp) (by simp)
      rw [hhosts.only]
      rfl
    refine ⟨hhosts.kind x h.node, _, _, hfilled, hunder, fun ids => ?_⟩
    rw [arranged_nested hblock, hlands.id]

/-- A hole is an edit of the node itself, which the path leads to. -/
theorem completable_hole {name : String} {rest : List Fragment}
    (hnest : ∀ e ∈ block.edits, ∀ n, slots.get? e.hole = some (.block n) → n.Settles source)
    (hcompletable : Completable source block slots root rest) :
    Completable source block slots root (.hole name :: rest) := by
  intro path number x y index covered before ids p h hsub hlead hids
  rw [childEdits_hole] at hsub hlead ⊢
  simp only [childFault, hole?, Cursor.toPath_ofPath]
  have hleads := hlead (by simp)
  have hnested : ∀ n, slots.get? name = some (.block n) → n.Settles source :=
    fun n hn => hnest (.child path index name) (hsub.subset List.mem_cons_self) n hn
  refine Progress.ends_append (ends_hole h hnested hleads.resolve?) ?_
  rintro q nodes ⟨rfl, hkind, before', L, hfilled, hunder, harranged⟩
  have hlead' : q.stage.document.Leads root path ids x :=
    leads_of_keeps hleads hfilled.keeps fun z hz =>
      List.mem_singleton.mp hz ▸ hids x List.mem_cons_self
  refine (hcompletable hunder ((List.sublist_cons_self _ _).trans hsub) (fun _ => hlead')
    hids).mono ?_
  rintro r nodes ⟨Ls, hdone⟩
  exact ⟨L :: Ls, .hole h hfilled hkind rfl hsub hdone (harranged _)⟩

section Static

variable {f : Fragment} {rest : List Fragment} {s : Skeleton} {path : Path}
  {number x y index : Nat} {covered : Bool} {before ids : List Nat} {p : Progress} {es : List Edit}

/-- The copy of the fragment's skeleton at the node `x` has been filled by these edits. -/
def FillsCopy (source : Block → Fragment) (block : Block) (slots : Bindings Value) (es : List Edit)
    (f : Fragment) (s : Skeleton) (x : Nat) (p q : Progress) (nodes : List Nat) : Prop :=
  ∃ L, L.id = x ∧ nodes = f.nodes L ∧
    Filled source block slots es (s.plant x).ids (s.plant x).ids p q [f] [L]

/-- The copy of the next child is as it was made. -/
theorem Underway.shows_next (h : Underway source slots p x y covered before index (f :: rest))
    (hs : f.skeleton = .ok s) : p.stage.document.Shows (s.plant y) := by
  have hall := h.pristine
  rw [plants_cons hs] at hall
  exact hall.1

/-- The path goes on to the copy of the next child, if no nested instance covers it. -/
theorem Underway.leads_next (h : Underway source slots p x y false before index (f :: rest))
    (hs : f.skeleton = .ok s) (hlead : p.stage.document.Leads root path ids x)
    (hids : ∀ z ∈ (s.plant y).ids, z ∈ ids) :
    p.stage.document.Leads root (path ++ [index]) (s.plant y).ids y := by
  have hx : x ∉ (s.plant y).ids := fun hm => h.notMem ((mem_allIds_cons hs).mpr (.inl hm))
  refine hlead.down h.node hx hids ?_
  simp [Document.childAt?, h.children, plants_cons hs, ← h.uncovered rfl]

/-- The path goes on to the copy of a fixed child that is in the tree. -/
theorem ends_static (h : Underway source slots p x y covered before index (f :: rest))
    (hs : f.skeleton = .ok s) (hfillable : Fillable source block slots root f)
    (hsub : (f.edits (.ofPath (path ++ [index]))).Sublist block.edits)
    (hlead : f.edits (.ofPath (path ++ [index])) ≠ [] → p.stage.document.Leads root path ids x)
    (hids : ∀ z ∈ (s.plant y).ids, z ∈ ids)
    (hcovered : covered = true → f.edits (.ofPath (path ++ [index])) = []) :
    Ends (p.fillEdits block (fillingsOf slots) root number (f.edits (.ofPath (path ++ [index]))))
      (f.fault block.usesOf (shows source slots) (refuses source slots)
        (.ofPath (path ++ [index])) number)
      (FillsCopy source block slots (f.edits (.ofPath (path ++ [index]))) f s y p) := by
  refine hfillable hs hsub h.closed h.showing (h.shows_next hs) fun hne => ?_
  cases covered with
  | true => exact absurd (hcovered rfl) hne
  | false => exact h.leads_next hs (hlead hne) hids

/-- Once a fixed child is filled, the other children are completed. -/
theorem ends_static_append {fault : Option BlockError}
    (h : Underway source slots p x y covered before index (f :: rest))
    (hs : f.skeleton = .ok s) (hcompletable : Completable source block slots root rest)
    (hes : ∀ hole ∈ f.holes, ∃ e ∈ es, e.hole = hole)
    (hsub : (es ++ childEdits (.ofPath path) (index + 1) rest).Sublist block.edits)
    (hlead : childEdits (.ofPath path) (index + 1) rest ≠ [] →
      p.stage.document.Leads root path ids x)
    (hids : ∀ z ∈ x :: Tree.allIds (plants y (skeletons (f :: rest))), z ∈ ids)
    (hfirst : Ends (p.fillEdits block (fillingsOf slots) root number es) fault
      (FillsCopy source block slots es f s y p)) :
    Ends (p.fillEdits block (fillingsOf slots) root number
        (es ++ childEdits (.ofPath path) (index + 1) rest))
      (fault.or (childFault block.usesOf (shows source slots) (refuses source slots)
        (.ofPath path) (number + es.length) (index + 1) covered rest))
      fun r nodes => ∃ Ls, Completed source block slots
        (es ++ childEdits (.ofPath path) (index + 1) rest) p x y covered before (f :: rest) r nodes
        Ls := by
  refine Progress.ends_append hfirst ?_
  rintro q nodes ⟨L, hid, hnodes, hfilled⟩
  have hlead' : childEdits (.ofPath path) (index + 1) rest ≠ [] →
      q.stage.document.Leads root path ids x := fun hne =>
    leads_of_keeps (hlead hne) hfilled.keeps fun z hz =>
      hids z (List.mem_cons_of_mem _ ((mem_allIds_cons hs).mpr (.inl hz)))
  refine (hcompletable (h.static hs hfilled.keeps) ((List.sublist_append_right _ _).trans hsub)
    hlead' fun z hz => ?_).mono ?_
  · refine hids z ?_
    rw [List.mem_cons] at hz ⊢
    exact hz.imp id fun hz => (mem_allIds_cons hs).mpr (.inr hz)
  · rintro r nodes' ⟨Ls, hdone⟩
    exact ⟨L :: Ls, .static h hs hes hsub hid hnodes hfilled hdone⟩

end Static

/-- The path goes on to the copy of a fixed child, unless a nested instance covers it. -/
theorem completable_static {f : Fragment} {rest : List Fragment} (hf : f.hole? = none)
    (hfillable : Fillable source block slots root f)
    (hcompletable : Completable source block slots root rest) :
    Completable source block slots root (f :: rest) := by
  intro path number x y index covered before ids p h hsub hlead hids
  obtain ⟨s, hs⟩ := exists_skeleton hf
  rw [childEdits_fixed hf] at hsub hlead ⊢
  simp only [childFault, hf, ← Cursor.ofPath_append]
  have hself := fun hcovered => @ends_static source block slots root f rest s path number x y index
    covered before ids p h hs hfillable ((List.sublist_append_left _ _).trans hsub)
    (fun hne => hlead (by simp [hne]))
    (fun z hz => hids z (List.mem_cons_of_mem _ ((mem_allIds_cons hs).mpr (.inl hz)))) hcovered
  have hrest := fun {fault} => @ends_static_append source block slots root f rest s path number x y
    index covered before ids p (f.edits (.ofPath (path ++ [index]))) fault h hs hcompletable
    (fun hole hm => (mem_holes_iff hf _).mp hm) hsub (fun hne => hlead (by simp [hne])) hids
  cases covered with
  | false => exact hrest (hself (by simp))
  | true =>
    -- a nested instance has put the child out of the tree, where only edits would miss it
    cases hes : f.edits (.ofPath (path ++ [index])) with
    | nil =>
      rw [hes] at hself hrest
      exact hrest (ends_of_nil (hself fun _ => rfl))
    | cons e es =>
      rw [hes] at hlead
      have hlost : Ends (p.fillEdits block (fillingsOf slots) root number (e :: es))
          (some (.pathUnresolved number e.path)) fun _ _ => False :=
        Progress.ends_lost (h.resolve?_covered (hlead (by simp)).resolve?
          (hes ▸ List.mem_cons_self))
      exact Progress.ends_append hlost fun _ _ hfalse => hfalse.elim

mutual
theorem fillable (hnest : ∀ e ∈ block.edits, ∀ n, slots.get? e.hole = some (.block n) →
    n.Settles source) : ∀ f : Fragment, Fillable source block slots root f
  | .text value => fillable_text value
  | .hole name => fillable_hole name
  | .element _ _ children => fillable_element (completable hnest children)

theorem completable (hnest : ∀ e ∈ block.edits, ∀ n, slots.get? e.hole = some (.block n) →
    n.Settles source) : ∀ fs : List Fragment, Completable source block slots root fs
  | [] => completable_nil
  | .text value :: rest => completable_static rfl (fillable_text value) (completable hnest rest)
  | .hole _ :: rest => completable_hole hnest (completable hnest rest)
  | .element tag props children :: rest =>
    completable_static rfl (fillable hnest (.element tag props children)) (completable hnest rest)
end

end Runs

end Fragment

namespace Instance

variable {source : Block → Fragment} {i : Instance} {target : Nat} {s : Stage}

/-- The edits of the block are those of its fragment, with paths from the root on. -/
theorem MadeFrom.edits (hi : i.MadeFrom source) :
    (source i.block).edits (.ofPath []) = i.block.edits :=
  hi.here.edits.symm

theorem closed_staged (i : Instance) (hs : s.document.Closed) (ht : target < s.document.size) :
    (i.staged target s).document.Closed := by
  rw [document_staged]
  exact (Document.hang_hosts hs i.block.skeleton ht).evolves.closed hs

theorem shows_staged (i : Instance) (ht : target < s.document.size) :
    (i.staged target s).document.Shows (i.block.skeleton.plant s.document.size) := by
  rw [document_staged]
  exact Document.hang_shows _ _ ht

/-- The edits of a mount fill the copy of the skeleton, or they are refused. -/
theorem ends_filled (hi : i.MadeFrom source) (hclosed : s.document.Closed)
    (ht : target < s.document.size)
    (hnest : ∀ n, i.Uses n → n.Settles source) :
    Ends (i.filled target s)
      ((source i.block).fault i.block.usesOf (i.showing? source) (i.nestedFault source) .root 0)
      fun q nodes => ∃ L, L.id = s.document.size ∧ nodes = (source i.block).nodes L ∧
        Fragment.Filled source i.block i.props i.block.edits
          (i.block.skeleton.plant s.document.size).ids
          (i.block.skeleton.plant s.document.size).ids ⟨i.staged target s, i.props⟩ q
          [source i.block] [L] := by
  have hfill : Fragment.Fillable source i.block i.props s.document.size (source i.block) :=
    Fragment.fillable (fun e he n hn => hnest n ⟨e, he, hn⟩) _
  have hends := @hfill i.block.skeleton [] 0 s.document.size ⟨i.staged target s, i.props⟩
    hi.here.skeleton (hi.edits ▸ List.Sublist.refl _) (closed_staged i hclosed ht) (fun _ => rfl)
    (shows_staged i ht) fun _ => Document.leads_nil
  rw [hi.edits] at hends
  exact hends

/-- Where the edits have filled the copy of the skeleton, the mount lands. -/
theorem lands_of_filled {stage : Stage} {props : Bindings Value} {nodes : List Nat} {L : Layout}
    (hclosed : s.document.Closed) (ht : target < s.document.size) (hid : L.id = s.document.size)
    (hnodes : nodes = (source i.block).nodes L)
    (hfilled : Fragment.Filled source i.block i.props i.block.edits
      (i.block.skeleton.plant s.document.size).ids (i.block.skeleton.plant s.document.size).ids
      ⟨i.staged target s, i.props⟩ ⟨stage, props⟩ [source i.block] [L]) :
    i.Lands source s.document (i.concluded s.document.size (⟨stage, props⟩, .ok nodes)) L := by
  have hshowing : (Instance.mk i.block props nodes (some s.document.size)).showing? source =
      i.showing? source := funext hfilled.keeps.showing
  refine ⟨rfl, hid, .intro (by rw [hid]; rfl) hnodes ?_ ?_, ?_, ?_, ?_⟩
  · exact hfilled.placed.1.congr (fun hole _ => (congrFun hshowing hole).symm) fun _ _ => .refl ..
  · intro n K hn
    have hn : (n, K) ∈ (source i.block).held (Bindings.get? props) L := hn
    exact hfilled.held n K (by simpa [Fragment.allHeld] using hn)
  · simpa [Layout.allIds] using hfilled.nodup
  · -- a node is in the copy of the skeleton, or it was created by the edits
    intro x hx
    have hgrown := hfilled.keeps.size_le
    have hsize : s.document.size ≤ (i.staged target s).document.size := by
      rw [document_staged]
      exact (Document.hang_hosts hclosed i.block.skeleton ht).evolves.size_le
    rcases hfilled.within x (by simpa [Layout.allIds] using hx) with hx | ⟨hge, hlt⟩
    · have hlt := Nat.lt_of_lt_of_le ((shows_staged i ht).lt_size x hx) hgrown
      exact ⟨(Skeleton.mem_ids_plant.mp hx).1, hlt⟩
    · exact ⟨Nat.le_trans hsize hge, hlt⟩
  · rw [render_eq, render_eq]
    show (source i.block).render (Instance.showing? source ⟨i.block, props, nodes, _⟩) = _
    rw [hshowing]

theorem settles (hi : i.MadeFrom source) : i.Settles source := by
  induction i using Instance.induction with
  | _ i ih =>
    intro target s hclosed ht
    rw [mountFault_eq]
    cases hm : i.isMounted with
    | true =>
      rw [if_pos rfl, mount_of_mounted hm]
    | false =>
      have hends := ends_filled hi hclosed ht fun n hn => by
        obtain ⟨e, he, hv⟩ := hn
        exact ih e.hole n hv (hi.nested ⟨e, he, hv⟩)
      rw [if_neg (by simp), mount_of_unmounted hm ht]
      generalize i.filled target s = r at hends
      obtain ⟨⟨stage, props⟩, outcome⟩ := r
      split
      · rename_i error hfault
        rw [hfault] at hends
        obtain rfl : outcome = .error (.refused error) := hends
        rfl
      · rename_i hfault
        rw [hfault] at hends
        obtain ⟨nodes, rfl, L, hid, hnodes, hfilled⟩ := hends
        exact ⟨L, lands_of_filled hclosed ht hid hnodes hfilled⟩

/-- A mount that succeeds lands, and its root is the node that the document issues next. -/
theorem lands_of_ok {root : Nat} (hi : i.MadeFrom source) (hs : s.document.Closed)
    (ht : target < s.document.size) (hm : (i.mount target s).outcome = .ok root) :
    root = s.document.size ∧ i.mountFault source = none ∧
      ∃ L, i.Lands source s.document (i.mount target s) L := by
  have hsettles := settles hi target s hs ht
  split at hsettles
  · rw [hsettles] at hm
    simp at hm
  · rename_i hfault
    obtain ⟨L, hL⟩ := hsettles
    exact ⟨Except.ok.inj (hm.symm.trans hL.outcome), hfault, L, hL⟩

/-- The root of a mount is not its own ancestor. -/
theorem isOwnAncestor_mount (hs : s.document.Closed) (ht : target < s.document.size)
    (hu : i.isMounted = false) :
    (i.mount target s).stage.document.isOwnAncestor s.document.size = false := by
  have hhosts := mount_hosts i hs ht hu
  refine Document.isOwnAncestor_eq_false (· < s.document.size) (Nat.lt_irrefl _) ?_ ?_
  · intro x hx
    rw [hhosts.top] at hx
    exact Option.some.inj hx ▸ ht
  · intro x hx y hy
    rw [hhosts.parent x hx] at hy
    split at hy
    · simp at hy
    · exact hs.parent hy

/-- **Compiling and mounting is rendering**: if a mount succeeds, the target has one child
and the tree below that child is the reference rendering of the instance. -/
theorem mount_renders {root : Nat} (hs : s.document.Reachable) (hi : i.MadeFrom source)
    (ht : s.document.issued target) (hm : (i.mount target s).outcome = .ok root) :
    (i.mount target s).stage.document.children target = [root] ∧
      ∃ t, (i.mount target s).stage.document.tree? root = some t ∧
        i.render source = some t.shape := by
  have ht := Document.issued_iff.mp ht
  obtain ⟨rfl, hfault, L, hL⟩ := lands_of_ok hi hs.closed ht hm
  have hu := isMounted_of_mountFault hfault
  have hown := isOwnAncestor_mount hs.closed ht hu
  rw [← hL.id] at hown
  obtain ⟨t, htree, -, -, -, hshape⟩ := hL.stands.tree hL.nodup hown
  rw [hL.id] at htree
  exact ⟨(mount_hosts i hs.closed ht hu).only, t, htree, by rw [← hL.render, hshape]⟩

/-- A card is mounted as it is rendered. -/
theorem mount_renders_card :
    let m := (Sample.cardOf (Sample.badgeOf (.str "red") (.str "new")) .null (.bool true)).mount 0
      (.of .blank)
    m.outcome = .ok 1 ∧ m.stage.document.children 0 = [1] ∧
      ∃ t, m.stage.document.tree? 1 = some t ∧
        (Sample.cardOf (Sample.badgeOf (.str "red") (.str "new")) .null (.bool true)).render
          Sample.source = some t.shape :=
  ⟨rfl, mount_renders .refl (Sample.cardOf_madeFrom ..) rfl rfl⟩

end Instance

end Stencil
