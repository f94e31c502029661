import Stencil.Proofs.Instance.Completeness
import Stencil.Proofs.Instance.Mounting
/- The turns of a mount. A mount makes edit after edit, and the path of each is followed in a
   tree that the edits before it have changed. `Turns` says what holds at the turn of each edit
   of a run, also of a run that fails later. At its turn an edit finds the node that the copied
   skeleton has for its element, unless its path crosses a nested instance: then it finds
   nothing (`Turn.resolve?`), since a nested instance leaves one child, and those that are put
   in after it are fewer than the places before the path's own. The induction is on the
   fragment, with the children under way as the invariant. The reasons for which an edit fails
   are `Fails`, and a mount fails for the first of them (`mount_error_iff`). -/
namespace Stencil

open Progress (shows)
open Skeleton (plant plants)

namespace Progress

variable {block : Block} {fillings : Bindings Filling} {root : Nat} {p q : Progress}
  {number : Nat} {es es' : List Edit} {nodes : List Nat} {T T' : Edit → Progress → Prop}

/-- This holds at the turn of each edit, when those before it have been made. -/
def Turns (block : Block) (fillings : Bindings Filling) (root : Nat) (p : Progress) (number : Nat)
    (es : List Edit) (T : Edit → Progress → Prop) : Prop :=
  ∀ done e rest q nodes, es = done ++ e :: rest →
    p.fillEdits block fillings root number done = (q, .ok nodes) → T e q

theorem turns_nil : Turns block fillings root p number [] T := by
  intro done e rest q nodes hes
  simp at hes

theorem Turns.mono (h : Turns block fillings root p number es T)
    (himp : ∀ e ∈ es, ∀ q, T e q → T' e q) : Turns block fillings root p number es T' := by
  intro done e rest q nodes hes hrun
  exact himp e (by simp [hes]) q (h done e rest q nodes hes hrun)

/-- The turns of a run are those of its first part and those of the rest after it. -/
theorem turns_append (h : Turns block fillings root p number es T)
    (h' : ∀ q nodes, p.fillEdits block fillings root number es = (q, .ok nodes) →
      Turns block fillings root q (number + es.length) es' T) :
    Turns block fillings root p number (es ++ es') T := by
  intro done e rest q nodes hes hrun
  rcases List.append_eq_append_iff.mp hes with ⟨more, rfl, hrest⟩ | ⟨more, hfirst, hrest⟩
  -- the edit is one of the rest, perhaps with others of the rest before it
  · obtain ⟨r, first, last, hdone, hmore⟩ := fillEdits_append_ok hrun
    exact h' r first hdone more e rest q last hrest hmore
  · cases more with
    | nil =>
      -- it is the first of the rest, and all the others are made
      rw [List.append_nil] at hfirst
      exact h' q nodes (hfirst ▸ hrun) [] e rest q [] hrest.symm rfl
    | cons e' more =>
      obtain ⟨rfl, hrest⟩ := List.cons.inj hrest
      exact h done e more q nodes hfirst hrun

/-- An edit has its turn at once, and those after it when it has been made. -/
theorem turns_cons {e : Edit} (h : T e p)
    (h' : ∀ q nodes, p.fillEdits block fillings root number [e] = (q, .ok nodes) →
      Turns block fillings root q (number + 1) es T) :
    Turns block fillings root p number (e :: es) T := by
  have hfirst : Turns block fillings root p number [e] T := by
    intro done e' rest q nodes hes hrun
    cases done with
    | nil =>
      obtain ⟨rfl, -⟩ := List.cons.inj hes
      obtain ⟨rfl, -⟩ := Prod.mk.inj hrun
      exact h
    | cons _ done => simp at hes
  exact turns_append hfirst h'

/-- After an edit that has no node there are no turns. -/
theorem turns_lost {e : Edit} (hr : p.stage.document.resolve? root e.path = none) (h : T e p) :
    Turns block fillings root p number (e :: es) T := by
  refine turns_cons h fun q nodes hrun => ?_
  have hlost := @ends_lost block fillings root p number e [] (fun _ _ => False) hr
  rw [Ends, hrun] at hlost
  simp at hlost

/-- The edits of an element's properties are all made at its node. -/
theorem turns_attrs (source : Block → Fragment) {slots : Bindings Value} {c : Cursor} {path : Path}
    {node : Nat} (hc : c.toPath = path) {props : PropList}
    (hr : props.edits c ≠ [] → p.stage.document.resolve? root path = some node) :
    Turns block (fillingsOf slots) root p number (props.edits c) fun e q =>
      e.path = path ∧ q.stage.document.resolve? root path = some node := by
  induction props generalizing p number with
  | nil => exact turns_nil
  | cons entry rest ih =>
    obtain ⟨name, value⟩ := entry
    cases value with
    | fixed value => exact ih hr
    | hole hole =>
      have hresolve := hr (by simp [PropList.edits])
      refine turns_cons ⟨hc, hresolve⟩ fun q nodes hrun => ih fun _ => ?_
      rw [hc] at hrun
      have hends := @ends_attr source block slots root p number node path hresolve name hole
      obtain ⟨-, -, value, -, hdoc⟩ := hends.good hrun
      calc q.stage.document.resolve? root path
          = p.stage.document.resolve? root path := by
            rw [hdoc, Document.resolve?_congr fun x => Document.children_setAttribute ..]
        _ = some node := hresolve

end Progress

namespace Fragment

section Turns

variable {source : Block → Fragment} {block : Block} {slots : Bindings Value} {root : Nat}

/-- Wherever a copy of the fragment's skeleton is led to, each edit of the fragment finds, at
its turn, the node that its path leads to from there. -/
def Turnable (source : Block → Fragment) (block : Block) (slots : Bindings Value) (root : Nat)
    (f : Fragment) : Prop :=
  ∀ {s : Skeleton} {path : Path} {number x : Nat} {p : Progress}, f.skeleton = .ok s →
    (f.edits (.ofPath path)).Sublist block.edits → p.stage.document.Closed →
    (∀ slot, shows source p.props slot = shows source slots slot) →
    p.stage.document.Shows (s.plant x) →
    (f.edits (.ofPath path) ≠ [] → p.stage.document.Leads root path (s.plant x).ids x) →
    Progress.Turns block (fillingsOf slots) root p number (f.edits (.ofPath path)) fun e q =>
      ∃ more, e.path = path ++ more ∧
        q.stage.document.resolve? root e.path = f.target (shows source slots) s x more

/-- The edit is at the element, or its path goes on to one of these children. -/
def Turned (source : Block → Fragment) (slots : Bindings Value) (root : Nat) (path : Path)
    (x y index : Nat) (covered : Bool) (fs : List Fragment) (e : Edit) (q : Progress) : Prop :=
  e.path = path ∧ q.stage.document.resolve? root e.path = some x ∨
    ∃ k more, e.path = path ++ (index + k) :: more ∧
      q.stage.document.resolve? root e.path =
        childTarget (shows source slots) covered y fs k more

/-- Wherever these children are to come, each edit of them finds, at its turn, the node that
its path leads to. -/
def AllTurnable (source : Block → Fragment) (block : Block) (slots : Bindings Value) (root : Nat)
    (fs : List Fragment) : Prop :=
  ∀ {path : Path} {number x y index : Nat} {covered : Bool} {before ids : List Nat} {p : Progress},
    Underway source slots p x y covered before index fs →
    (childEdits (.ofPath path) index fs).Sublist block.edits →
    (childEdits (.ofPath path) index fs ≠ [] → p.stage.document.Leads root path ids x) →
    (∀ z ∈ x :: Tree.allIds (plants y (skeletons fs)), z ∈ ids) →
    Progress.Turns block (fillingsOf slots) root p number (childEdits (.ofPath path) index fs)
      (Turned source slots root path x y index covered fs)

/-- The path goes on past the first child. -/
theorem Turned.next {path : Path} {x y y' index : Nat} {covered covered' : Bool} {f : Fragment}
    {rest : List Fragment} {e : Edit} {q : Progress}
    (h : Turned source slots root path x y' (index + 1) covered' rest e q)
    (htarget : ∀ k more, childTarget (shows source slots) covered y (f :: rest) (k + 1) more =
      childTarget (shows source slots) covered' y' rest k more) :
    Turned source slots root path x y index covered (f :: rest) e q := by
  rcases h with hself | ⟨k, more, hpath, hresolve⟩
  · exact .inl hself
  · refine .inr ⟨k + 1, more, ?_, hresolve.trans (htarget k more).symm⟩
    rwa [show index + (k + 1) = index + 1 + k by omega]

theorem turnable_text (value : Scalar) : Turnable source block slots root (.text value) := by
  intro s path number x p _ _ _ _ _ _
  exact Progress.turns_nil

theorem turnable_hole (name : String) : Turnable source block slots root (.hole name) := by
  intro s path number x p _ _ _ _ _ _
  exact Progress.turns_nil

theorem turnable_element {tag : String} {props : PropList} {children : List Fragment}
    (hchildren : AllTurnable source block slots root children) :
    Turnable source block slots root (.element tag props children) := by
  intro s path number x p hs hsub hclosed hshowing hshows hlead
  have hx : x < p.stage.document.size := hshows.lt_size x (by simpa using (s.plant x).id_mem_ids)
  have hattrs : props.edits (.ofPath path) ≠ [] → p.stage.document.resolve? root path = some x :=
    fun hne => (hlead (by simp [edits, hne])).resolve?
  refine Progress.turns_append ?_ fun q nodes hrun => ?_
  · refine (Progress.turns_attrs source (Cursor.toPath_ofPath path) hattrs).mono ?_
    rintro e - q ⟨hpath, hresolve⟩
    exact ⟨[], by simpa using hpath, by rw [hpath, hresolve, target_nil]⟩
  · have hends := @Progress.ends_attrs source block slots root p number x path (.ofPath path)
      (Cursor.toPath_ofPath path) props hattrs hx
    obtain ⟨-, hprops, pairs, -, hdress⟩ := hends.good hrun
    have hunderway : Underway source slots q x (x + 1) false [] 0 children :=
      .start hs hclosed hshowing hshows hprops hdress
    refine (hchildren hunderway ((List.sublist_append_right _ _).trans hsub)
      (fun hne => leads_of_dresses (hlead (by simp [edits, hne])) hdress) ?_).mono ?_
    · obtain rfl := Except.ok.inj hs
      exact fun _ hz => hz
    · rintro e - q (⟨hpath, hresolve⟩ | ⟨k, more, hpath, hresolve⟩)
      · exact ⟨[], by simpa using hpath, by rw [hresolve, target_nil]⟩
      · exact ⟨k :: more, by simpa using hpath, by rw [hresolve, target_cons hs]⟩

theorem allTurnable_nil : AllTurnable source block slots root [] := by
  intro path number x y index covered before ids p _ _ _ _
  exact Progress.turns_nil

theorem allTurnable_hole {name : String} {rest : List Fragment}
    (hnest : ∀ e ∈ block.edits, ∀ n, slots.get? e.hole = some (.block n) → n.Settles source)
    (hrest : AllTurnable source block slots root rest) :
    AllTurnable source block slots root (.hole name :: rest) := by
  intro path number x y index covered before ids p h hsub hlead hids
  rw [childEdits_hole] at hsub hlead ⊢
  have hleads := hlead (by simp)
  have hnested : ∀ n, slots.get? name = some (.block n) → n.Settles source :=
    fun n hn => hnest (.child path index name) (hsub.subset List.mem_cons_self) n hn
  refine Progress.turns_cons (.inl ⟨rfl, hleads.resolve?⟩) fun q nodes hrun => ?_
  obtain ⟨-, -, before', L, hfilled, hunder, -⟩ :=
    (ends_hole h hnested hleads.resolve?).good hrun
  have hlead' : q.stage.document.Leads root path ids x :=
    leads_of_keeps hleads hfilled.keeps fun z hz =>
      List.mem_singleton.mp hz ▸ hids x List.mem_cons_self
  refine (hrest hunder ((List.sublist_cons_self _ _).trans hsub) (fun _ => hlead') hids).mono ?_
  exact fun e _ q hturned => hturned.next fun k more => childTarget_hole

section Static

variable {f : Fragment} {rest : List Fragment} {s : Skeleton} {path : Path}
  {number x y index : Nat} {covered : Bool} {before ids nodes : List Nat} {p q : Progress}
  {es : List Edit}

/-- The path goes on to the copy of a fixed child that is in the tree. -/
theorem turns_static (h : Underway source slots p x y covered before index (f :: rest))
    (hs : f.skeleton = .ok s) (hself : Turnable source block slots root f)
    (hsub : (f.edits (.ofPath (path ++ [index]))).Sublist block.edits)
    (hlead : f.edits (.ofPath (path ++ [index])) ≠ [] → p.stage.document.Leads root path ids x)
    (hids : ∀ z ∈ (s.plant y).ids, z ∈ ids)
    (hcovered : covered = true → f.edits (.ofPath (path ++ [index])) = []) :
    Progress.Turns block (fillingsOf slots) root p number (f.edits (.ofPath (path ++ [index])))
      (Turned source slots root path x y index covered (f :: rest)) := by
  cases covered with
  | true =>
    rw [hcovered rfl]
    exact Progress.turns_nil
  | false =>
    refine (hself hs hsub h.closed h.showing (h.shows_next hs)
      fun hne => h.leads_next hs (hlead hne) hids).mono ?_
    rintro e - q ⟨more, hpath, hresolve⟩
    exact .inr ⟨0, more, by simpa using hpath, hresolve.trans (childTarget_zero hs).symm⟩

/-- Once a fixed child has been filled, the path goes on to the other children. -/
theorem turns_rest (h : Underway source slots p x y covered before index (f :: rest))
    (hs : f.skeleton = .ok s) (hrest : AllTurnable source block slots root rest)
    (hsub : (childEdits (.ofPath path) (index + 1) rest).Sublist block.edits)
    (hlead : childEdits (.ofPath path) (index + 1) rest ≠ [] →
      p.stage.document.Leads root path ids x)
    (hids : ∀ z ∈ x :: Tree.allIds (plants y (skeletons (f :: rest))), z ∈ ids)
    (hfirst : FillsCopy source block slots es f s y p q nodes) :
    Progress.Turns block (fillingsOf slots) root q number
      (childEdits (.ofPath path) (index + 1) rest)
      (Turned source slots root path x y index covered (f :: rest)) := by
  obtain ⟨L, -, -, hfilled⟩ := hfirst
  have hlead' : childEdits (.ofPath path) (index + 1) rest ≠ [] →
      q.stage.document.Leads root path ids x := fun hne =>
    leads_of_keeps (hlead hne) hfilled.keeps fun z hz =>
      hids z (List.mem_cons_of_mem _ ((mem_allIds_cons hs).mpr (.inl hz)))
  refine (hrest (h.static hs hfilled.keeps) hsub hlead' fun z hz => ?_).mono ?_
  · refine hids z ?_
    rw [List.mem_cons] at hz ⊢
    exact hz.imp id fun hz => (mem_allIds_cons hs).mpr (.inr hz)
  · exact fun e _ q hturned => hturned.next fun k more => childTarget_static hs

/-- A fixed child that a nested instance covers is out of the tree: its first edit finds
nothing. -/
theorem turns_covered {e : Edit} (h : Underway source slots p x y true before index (f :: rest))
    (hlead : p.stage.document.resolve? root path = some x)
    (he : e ∈ f.edits (.ofPath (path ++ [index]))) :
    Progress.Turns block (fillingsOf slots) root p number (e :: es)
      (Turned source slots root path x y index true (f :: rest)) := by
  have hlost := h.resolve?_covered hlead he
  obtain ⟨more, hmore, -⟩ := reaches_of_mem_edits (path ++ [index]) he
  refine Progress.turns_lost hlost (.inr ⟨0, more, by simpa using hmore, ?_⟩)
  rw [hlost, childTarget_covered]

end Static

theorem allTurnable_static {f : Fragment} {rest : List Fragment} (hf : f.hole? = none)
    (hfillable : Fillable source block slots root f) (hself : Turnable source block slots root f)
    (hrest : AllTurnable source block slots root rest) :
    AllTurnable source block slots root (f :: rest) := by
  intro path number x y index covered before ids p h hsub hlead hids
  obtain ⟨s, hs⟩ := exists_skeleton hf
  rw [childEdits_fixed hf] at hsub hlead ⊢
  -- the edits after a lost one have no turns, so they need not be followed
  by_cases hlost : covered = true ∧ f.edits (.ofPath (path ++ [index])) ≠ []
  · obtain ⟨rfl, hne⟩ := hlost
    obtain ⟨e, es, hes⟩ := List.exists_cons_of_ne_nil hne
    have hcovered := @turns_covered source block slots root f rest path number x y index before p
      (es ++ childEdits (.ofPath path) (index + 1) rest) e h (hlead (by simp [hne])).resolve?
      (hes ▸ List.mem_cons_self)
    rwa [hes]
  · have hcovered : covered = true → f.edits (.ofPath (path ++ [index])) = [] := by
      simpa using hlost
    have hsub₁ := (List.sublist_append_left _ _).trans hsub
    have hids₁ : ∀ z ∈ (s.plant y).ids, z ∈ ids :=
      fun z hz => hids z (List.mem_cons_of_mem _ ((mem_allIds_cons hs).mpr (.inl hz)))
    have hlead₁ : f.edits (.ofPath (path ++ [index])) ≠ [] →
        p.stage.document.Leads root path ids x := fun hne => hlead (by simp [hne])
    refine Progress.turns_append (turns_static h hs hself hsub₁ hlead₁ hids₁ hcovered)
      fun q nodes hrun => ?_
    have hfirst := (ends_static h hs hfillable hsub₁ hlead₁ hids₁ hcovered).good hrun
    exact turns_rest h hs hrest ((List.sublist_append_right _ _).trans hsub)
      (fun hne => hlead (by simp [hne])) hids hfirst

mutual
theorem turnable (hnest : ∀ e ∈ block.edits, ∀ n, slots.get? e.hole = some (.block n) →
    n.Settles source) : ∀ f : Fragment, Turnable source block slots root f
  | .text value => turnable_text value
  | .hole name => turnable_hole name
  | .element _ _ children => turnable_element (allTurnable hnest children)

theorem allTurnable (hnest : ∀ e ∈ block.edits, ∀ n, slots.get? e.hole = some (.block n) →
    n.Settles source) : ∀ fs : List Fragment, AllTurnable source block slots root fs
  | [] => allTurnable_nil
  | .text value :: rest =>
    allTurnable_static rfl (fillable_text value) (turnable_text value) (allTurnable hnest rest)
  | .hole _ :: rest => allTurnable_hole hnest (allTurnable hnest rest)
  | .element tag props children :: rest =>
    allTurnable_static rfl (fillable hnest _) (turnable hnest (.element tag props children))
      (allTurnable hnest rest)
end

end Turns

end Fragment

namespace Instance

variable {source : Block → Fragment} {i : Instance} {target : Nat} {s : Stage}

/-- A mount has come to its edit of this number: those before it are made, and this is the
progress. -/
def Turn (i : Instance) (target : Nat) (s : Stage) (number : Nat) (e : Edit) (q : Progress) : Prop :=
  ∃ done rest nodes, i.block.edits = done ++ e :: rest ∧ done.length = number ∧
    (Progress.mk (i.staged target s) i.props).fillEdits i.block (fillingsOf i.props)
      s.document.size 0 done = (q, .ok nodes)

/-- The node that a copied skeleton has for the element at a path: the path leads to it in the
copy, when only fixed children are counted, and the copy of the element is below it. -/
structure Copied (source : Block → Fragment) (i : Instance) (target : Nat) (s : Stage)
    (path : Path) (tag : String) (node : Nat) : Prop where
  led : (i.staged target s).document.resolve? s.document.size ((source i.block).sparse path) =
    some node
  shown : ∃ props children t, (source i.block).at? path = some (.element tag props children) ∧
    (Fragment.element tag props children).skeleton = .ok t ∧
    (i.staged target s).document.Shows (t.plant node)
  own : s.document.size ≤ node ∧ node < s.document.size + i.block.skeleton.nodeCount

/-- Why an edit fails at its turn. -/
inductive Fails (source : Block → Fragment) (i : Instance) (root number : Nat) (q : Progress) :
    Edit → BlockError → Prop where
  | lost {e : Edit} (hpath : (source i.block).crosses (i.showing? source) e.path = true) :
      Fails source i root number q e (.pathUnresolved number e.path)
  | missing {e : Edit} (hpath : (source i.block).crosses (i.showing? source) e.path = false)
      (hv : i.prop? e.hole = none) : Fails source i root number q e (.missingProp e.hole)
  | attrBlock {path : Path} {name hole : String} {n : Instance}
      (hpath : (source i.block).crosses (i.showing? source) path = false)
      (hv : i.prop? hole = some (.block n)) :
      Fails source i root number q (.attr path name hole) (.blockInAttribute name hole)
  | shared {path : Path} {index : Nat} {hole : String} {n : Instance}
      (hpath : (source i.block).crosses (i.showing? source) path = false)
      (hv : i.prop? hole = some (.block n)) (huses : 1 < i.block.usesOf hole) :
      Fails source i root number q (.child path index hole)
        (.nestedBlockShared hole (i.block.usesOf hole))
  | mounted {path : Path} {index : Nat} {hole : String} {n : Instance}
      (hpath : (source i.block).crosses (i.showing? source) path = false)
      (hv : i.prop? hole = some (.block n)) (huses : i.block.usesOf hole ≤ 1)
      (hm : n.isMounted = true) :
      Fails source i root number q (.child path index hole) .alreadyMounted
  | nested {path : Path} {index : Nat} {hole : String} {n : Instance} {node : Nat}
      {error : BlockError}
      (hpath : (source i.block).crosses (i.showing? source) path = false)
      (hv : i.prop? hole = some (.block n)) (huses : i.block.usesOf hole ≤ 1)
      (hm : n.isMounted = false)
      (hr : q.stage.document.resolve? root path = some node)
      (hfail : (n.mount node q.stage).outcome = .error (.refused error)) :
      Fails source i root number q (.child path index hole) error

section Turns

variable {number : Nat} {e : Edit} {q : Progress}

theorem Turn.mem (h : i.Turn target s number e q) : e ∈ i.block.edits := by
  obtain ⟨done, rest, nodes, hes, -⟩ := h
  simp [hes]

/-- The document has evolved since the copy was hung in it. -/
theorem Turn.grounds (h : i.Turn target s number e q) (hs : s.document.Closed)
    (ht : target < s.document.size) :
    Grounds s.document.size (i.staged target s).document q.stage.document := by
  obtain ⟨done, rest, nodes, -, -, hrun⟩ := h
  have hroot : s.document.size < (i.staged target s).document.size := by
    simpa using (shows_staged i ht).lt_size _ (Tree.id_mem_ids _)
  have hgrounds : Grounds s.document.size (i.staged target s).document
      ((Progress.mk (i.staged target s) i.props).fillEdits i.block (fillingsOf i.props)
        s.document.size 0 done).1.stage.document := by
    refine Progress.fillEdits_induction
      (P := fun p => Grounds s.document.size (i.staged target s).document p.stage.document) ?_ _ 0
      ⟨.refl, closed_staged i hs ht, hroot⟩
    exact fun p number edit _ hp =>
      hp.step (evolves_fillEdit i (fun _ n _ => mount_evolves n) number edit hp.2.1 hp.2.2)
  rwa [hrun] at hgrounds

/-- **At its turn an edit finds the node that its path leads to.** -/
theorem Turn.resolve? (h : i.Turn target s number e q) (hi : i.MadeFrom source)
    (hs : s.document.Closed) (ht : target < s.document.size) :
    q.stage.document.resolve? s.document.size e.path =
      (source i.block).target (i.showing? source) i.block.skeleton s.document.size e.path := by
  obtain ⟨done, rest, nodes, hes, -, hrun⟩ := h
  have hnest : ∀ e ∈ i.block.edits, ∀ n, Bindings.get? i.props e.hole = some (.block n) →
      n.Settles source := fun e he n hn => settles (hi.nested ⟨e, he, hn⟩)
  have hturns := @Fragment.turnable source i.block i.props s.document.size hnest (source i.block)
    i.block.skeleton [] 0 s.document.size ⟨i.staged target s, i.props⟩ hi.here.skeleton
    (hi.edits ▸ List.Sublist.refl _) (closed_staged i hs ht) (fun _ => rfl) (shows_staged i ht)
    fun _ => Document.leads_nil
  obtain ⟨more, hmore, hresolve⟩ := hturns done e rest q nodes (hi.edits.trans hes) hrun
  rw [hresolve, hmore]
  rfl

/-- The copied skeleton has a node for the element of each edit. -/
theorem exists_copied (hi : i.MadeFrom source) (ht : target < s.document.size)
    (he : e ∈ i.block.edits) :
    ∃ tag node, Copied source i target s e.path tag node ∧
      (source i.block).target (i.showing? source) i.block.skeleton s.document.size e.path =
        if (source i.block).crosses (i.showing? source) e.path then none else some node := by
  obtain ⟨more, hmore, tag, props, children, hat⟩ :=
    Fragment.reaches_of_mem_edits [] (hi.edits ▸ he)
  rw [List.nil_append] at hmore
  subst hmore
  obtain ⟨t, hskeleton⟩ : ∃ t, (Fragment.element tag props children).skeleton = .ok t := ⟨_, rfl⟩
  obtain ⟨node, hplant, hle, hlt⟩ :=
    Fragment.exists_plant (x := s.document.size) hi.here.skeleton hat hskeleton
  obtain ⟨hled, hshows⟩ := (shows_staged i ht).resolve? hplant
  simp only [Skeleton.id_plant] at hled
  have hpos := t.nodeCount_pos
  refine ⟨tag, node, ⟨hled, ⟨props, children, t, hat, hskeleton, hshows⟩, hle, by omega⟩, ?_⟩
  simp [Fragment.target, hplant]

/-- An edit finds no node if its path crosses a nested instance, and otherwise it finds the node
that the copied skeleton has for its element, which is still that element. -/
theorem Turn.finds (h : i.Turn target s number e q) (hi : i.MadeFrom source)
    (hs : s.document.Closed) (ht : target < s.document.size) :
    (q.stage.document.resolve? s.document.size e.path = none ↔
      (source i.block).crosses (i.showing? source) e.path = true) ∧
    ∀ node, q.stage.document.resolve? s.document.size e.path = some node →
      ∃ tag held, Copied source i target s e.path tag node ∧
        q.stage.document.kind? node = some (.element tag held) := by
  obtain ⟨tag, node, hcopied, htarget⟩ := exists_copied hi ht h.mem
  rw [h.resolve? hi hs ht, htarget]
  refine ⟨by simp, fun node' hnode => ?_⟩
  obtain rfl : node = node' := by
    split at hnode
    · simp at hnode
    · exact Option.some.inj hnode
  obtain ⟨props, children, t, -, hskeleton, hshows⟩ := hcopied.shown
  obtain rfl := Except.ok.inj hskeleton
  simp only [plant, Document.Shows] at hshows
  -- it was an element in the copy, and no edit since has made anything else of it
  obtain ⟨held, hkind⟩ := (h.grounds hs ht).1.element hshows.1
  exact ⟨tag, held, hcopied, hkind⟩

/-- An edit finds a node if its path crosses no nested instance. -/
theorem Turn.exists_node (h : i.Turn target s number e q) (hi : i.MadeFrom source)
    (hs : s.document.Closed) (ht : target < s.document.size)
    (hpath : (source i.block).crosses (i.showing? source) e.path = false) :
    ∃ node, q.stage.document.resolve? s.document.size e.path = some node :=
  Option.ne_none_iff_exists'.mp fun hr => by simp [(h.finds hi hs ht).1.mp hr] at hpath

/-- An edit that fails at its turn has a reason to. -/
theorem Turn.fails_of_error (h : i.Turn target s number e q) (hi : i.MadeFrom source)
    (hs : s.document.Closed) (ht : target < s.document.size) {failure : Failure}
    (hfail : (q.fillEdit i.block (fillingsOf i.props) s.document.size number e).2 =
      .error failure) :
    ∃ error, failure = .refused error ∧ Fails source i s.document.size number q e error := by
  obtain ⟨hnone, -⟩ := h.finds hi hs ht
  have hcrosses : ∀ {node}, q.stage.document.resolve? s.document.size e.path = some node →
      (source i.block).crosses (i.showing? source) e.path = false := by
    intro node hr
    simpa [hr] using hnone
  have hfills := Progress.fills q i.block i.props s.document.size number e
  generalize q.fillEdit i.block (fillingsOf i.props) s.document.size number e = r at hfail hfills
  cases hfills with
  | unresolved hr => exact ⟨_, (Except.error.inj hfail).symm, .lost (hnone.mp hr)⟩
  | missing hr hv => exact ⟨_, (Except.error.inj hfail).symm, .missing (hcrosses hr) hv⟩
  | attr => simp at hfail
  | attrBlock hr hv => exact ⟨_, (Except.error.inj hfail).symm, .attrBlock (hcrosses hr) hv⟩
  | leaf => simp at hfail
  | shared hr hv huses =>
    exact ⟨_, (Except.error.inj hfail).symm, .shared (hcrosses hr) hv huses⟩
  | nestedFails hr hv huses hm =>
    rename_i path index hole node n failure'
    obtain rfl : failure' = failure := Except.error.inj hfail
    cases hmounted : n.isMounted with
    | true =>
      rw [mount_of_mounted hmounted] at hm
      exact ⟨_, (Except.error.inj hm).symm, .mounted (hcrosses hr) hv huses hmounted⟩
    | false =>
      -- a nested instance is refused, since the node was issued
      obtain ⟨-, hclosed, hroot⟩ := h.grounds hs ht
      have hnode := Document.lt_size_of_resolve? hclosed hroot hr
      have hsettles := settles (hi.nested ⟨_, h.mem, hv⟩) node q.stage hclosed hnode
      split at hsettles
      · rename_i error _
        obtain rfl := Except.error.inj (hm.symm.trans hsettles)
        exact ⟨error, rfl, .nested (hcrosses hr) hv huses hmounted hr hm⟩
      · obtain ⟨L, hL⟩ := hsettles
        rw [hL.outcome] at hm
        simp at hm
  | nested => simp at hfail

/-- An edit that has a reason to fail does so. -/
theorem Turn.error_of_fails (h : i.Turn target s number e q) (hi : i.MadeFrom source)
    (hs : s.document.Closed) (ht : target < s.document.size) {error : BlockError}
    (hfails : Fails source i s.document.size number q e error) :
    (q.fillEdit i.block (fillingsOf i.props) s.document.size number e).2 =
      .error (.refused error) := by
  cases hfails with
  | lost hpath =>
    rw [Progress.fillEdit, (h.finds hi hs ht).1.mpr hpath]
  | missing hpath hv =>
    obtain ⟨node, hr⟩ := h.exists_node hi hs ht hpath
    rw [Progress.fillEdit, hr, get?_fillingsOf, ← prop?, hv]
    rfl
  | attrBlock hpath hv =>
    obtain ⟨node, hr⟩ := h.exists_node hi hs ht hpath
    rw [Progress.outcome_fillEdit hr hv]
    rfl
  | shared hpath hv huses =>
    obtain ⟨node, hr⟩ := h.exists_node hi hs ht hpath
    rw [Progress.outcome_fillEdit hr hv]
    simp [Value.filling, Progress.fillSlot, huses, Except.map]
  | mounted hpath hv huses hm =>
    obtain ⟨node, hr⟩ := h.exists_node hi hs ht hpath
    rw [Progress.outcome_fillEdit hr hv]
    simp [Value.filling, Progress.fillSlot, Nat.not_lt_of_le huses, mount_of_mounted hm, Except.map]
  | nested hpath hv huses hm hr hfail =>
    rename_i path index hole n node
    have hr : q.stage.document.resolve? s.document.size (Edit.child path index hole).path =
      some node := hr
    rw [Progress.outcome_fillEdit hr hv]
    simp [Value.filling, Progress.fillSlot, Nat.not_lt_of_le huses, hfail, Except.map]

/-- **An edit fails at its turn for these reasons only.** -/
theorem Turn.fails_iff (h : i.Turn target s number e q) (hi : i.MadeFrom source)
    (hs : s.document.Closed) (ht : target < s.document.size) (failure : Failure) :
    (q.fillEdit i.block (fillingsOf i.props) s.document.size number e).2 = .error failure ↔
      ∃ error, failure = .refused error ∧ Fails source i s.document.size number q e error := by
  refine ⟨h.fails_of_error hi hs ht, ?_⟩
  rintro ⟨error, rfl, hfails⟩
  exact h.error_of_fails hi hs ht hfails

/-- A mount fails as the first of its edits does that fails. -/
theorem mount_error_iff (hi : i.MadeFrom source) (hs : s.document.Closed)
    (ht : target < s.document.size) (hu : i.isMounted = false) (failure : Failure) :
    (i.mount target s).outcome = .error failure ↔ ∃ number e q error,
      failure = .refused error ∧ i.Turn target s number e q ∧
        Fails source i s.document.size number q e error := by
  have hrun : (i.mount target s).outcome = .error failure ↔
      (i.filled target s).2 = .error failure := by
    rw [mount_of_unmounted hu ht]
    generalize i.filled target s = r
    obtain ⟨⟨stage, props⟩, outcome⟩ := r
    cases outcome <;> simp [concluded]
  rw [hrun, filled, Progress.fillEdits_error_iff]
  constructor
  · rintro ⟨done, e, rest, q, nodes, hes, hdone, hfail⟩
    rw [Nat.zero_add] at hfail
    have hturn : i.Turn target s done.length e q := ⟨done, rest, nodes, hes, rfl, hdone⟩
    obtain ⟨error, rfl, hfails⟩ := hturn.fails_of_error hi hs ht hfail
    exact ⟨done.length, e, q, error, rfl, hturn, hfails⟩
  · rintro ⟨number, e, q, error, rfl, hturn, hfails⟩
    have hfail := hturn.error_of_fails hi hs ht hfails
    obtain ⟨done, rest, nodes, hes, rfl, hdone⟩ := hturn
    exact ⟨done, e, rest, q, nodes, hes, hdone, by rwa [Nat.zero_add]⟩

end Turns

/-- **A mount makes its edits in order, up to the first that fails.** At its turn an edit finds
the node that the copied skeleton has for its element, unless its path crosses a nested
instance: then it finds none. It fails for one of the reasons that there are, and the mount with
it; the instance is not mounted then. -/
theorem mount_turns (hs : s.document.Reachable) (ht : s.document.issued target)
    (hi : i.MadeFrom source) (hu : i.isMounted = false) :
    (∀ number e q, i.Turn target s number e q →
      (q.stage.document.resolve? s.document.size e.path = none ↔
        (source i.block).crosses (i.showing? source) e.path = true) ∧
      (∀ node, q.stage.document.resolve? s.document.size e.path = some node →
        ∃ tag held, Copied source i target s e.path tag node ∧
          q.stage.document.kind? node = some (.element tag held)) ∧
      ∀ failure, (q.fillEdit i.block (fillingsOf i.props) s.document.size number e).2 =
          .error failure ↔
        ∃ error, failure = .refused error ∧ Fails source i s.document.size number q e error) ∧
    (∀ failure, (i.mount target s).outcome = .error failure ↔ ∃ number e q error,
      failure = .refused error ∧ i.Turn target s number e q ∧
        Fails source i s.document.size number q e error) ∧
    ((i.mount target s).outcome = .ok s.document.size ↔ ∀ number e q error,
      i.Turn target s number e q → ¬ Fails source i s.document.size number q e error) ∧
    ∀ failure, (i.mount target s).outcome = .error failure →
      (i.mount target s).mounted.isMounted = false := by
  have ht := Document.issued_iff.mp ht
  have hfailed := mount_error_iff hi hs.closed ht hu
  refine ⟨fun number e q h => ?_, hfailed, ⟨fun hok number e q error h hfails => ?_, fun hnone => ?_⟩,
    fun failure => isMounted_of_failed hu⟩
  · obtain ⟨hnone, hsome⟩ := h.finds hi hs.closed ht
    exact ⟨hnone, hsome, h.fails_iff hi hs.closed ht⟩
  · have herror := (hfailed _).mpr ⟨number, e, q, error, rfl, h, hfails⟩
    simp [hok] at herror
  · cases hm : (i.mount target s).outcome with
    | error failure =>
      obtain ⟨number, e, q, error, -, hturn, hfails⟩ := (hfailed failure).mp hm
      exact absurd hfails (hnone number e q error hturn)
    | ok root => rw [(lands_of_ok hi hs.closed ht hm).1]

/-- A badge before a line that has the lead. -/
def banner : List Fragment :=
  [.hole "badge", .element "i" [] [.hole "lead"]]

/-- The badge of a banner puts the line out of the tree, and the lead has no node. -/
theorem mount_turns_banner :
    let i := Sample.leadOf banner (.str "x")
    let m := i.mount 0 (.of .blank)
    m.outcome = .error (.refused (.pathUnresolved 1 [1])) ∧ m.mounted.isMounted = false := by
  intro i m
  obtain ⟨-, hfailed, -, hspared⟩ := @mount_turns (Sample.leadSource banner) i 0 (.of .blank) .refl
    rfl (Sample.leadOf_madeFrom ⟨{}, rfl⟩) rfl
  have hturn : i.Turn 0 (.of .blank) 1 (.child [1] 0 "lead") _ :=
    ⟨[.child [] 0 "badge"], [], _, rfl, rfl, rfl⟩
  have hm : m.outcome = .error (.refused (.pathUnresolved 1 [1])) :=
    (hfailed _).mpr ⟨1, _, _, _, rfl, hturn, .lost rfl⟩
  exact ⟨hm, hspared _ hm⟩

end Instance

end Stencil
