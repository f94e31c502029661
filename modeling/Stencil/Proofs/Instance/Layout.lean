import Stencil.Proofs.Document.Shown
import Stencil.Proofs.Rendering
/- Where a mounted instance stands in a document. A layout gives a node for each part of
   a fragment, also for those parts that a nested instance has put out of the tree. An
   instance `Stands` at a layout if the document has at these nodes what the fragment
   says, the instance knows its nodes, and the nested instances stand in turn. Then the
   tree below the root is the reference rendering (`Stands.tree`). -/
namespace Stencil

/-- A node for each part of a fragment. The parts of a nested instance are those of its
own fragment. -/
inductive Layout where
  | node (id : Nat) (kids : List Layout)

namespace Layout

/-- The node of the topmost part. -/
def id : Layout → Nat
  | node id _ => id

mutual
/-- The nodes of all parts. -/
def ids : Layout → List Nat
  | node id kids => id :: allIds kids

/-- The nodes of several layouts in turn. -/
def allIds : List Layout → List Nat
  | [] => []
  | L :: rest => L.ids ++ allIds rest
end

theorem id_mem_ids (L : Layout) : L.id ∈ L.ids := by
  cases L
  simp [id, ids]

end Layout

namespace Fragment

variable {d e : Document} {slots slots' : String → Option Showing}
  {values values' : String → Option Value}

mutual
/-- The document has at the nodes of a layout what the fragment says, up to the nested
instances. -/
def Placed (d : Document) (slots : String → Option Showing) : Fragment → Layout → Prop
  | text value, .node id _ => d.kind? id = some (.text value.text)
  | hole name, .node id _ =>
    match slots name with
    | some (.scalar value) => d.kind? id = some (.text value.text)
    | some (.block _) => True
    | none => False
  | element tag props children, .node id kids =>
    (∃ attributes, props.rendered slots = some attributes ∧
      d.kind? id = some (.element tag attributes)) ∧
      d.children id = staying slots children (kids.map Layout.id) ∧
      AllPlaced d slots children kids

/-- Each of the fragments is placed at its layout. -/
def AllPlaced (d : Document) (slots : String → Option Showing) :
    List Fragment → List Layout → Prop
  | [], [] => True
  | f :: rest, L :: Ls => f.Placed d slots L ∧ AllPlaced d slots rest Ls
  | _, _ => False
end

mutual
/-- The nodes that the edits of a fragment are made at, in the order of the edits. -/
def nodes : Fragment → Layout → List Nat
  | element _ props children, .node id kids =>
    (props.filterMap fun p => p.2.hole?).map (fun _ => id) ++ childNodes id children kids
  | _, _ => []

/-- The nodes that the edits of the children of the node `id` are made at. -/
def childNodes (id : Nat) : List Fragment → List Layout → List Nat
  | f :: rest, L :: Ls =>
    (if f.hole?.isSome then [id] else f.nodes L) ++ childNodes id rest Ls
  | _, _ => []
end

mutual
/-- The nested instances of a fragment, each with its layout. -/
def held (values : String → Option Value) : Fragment → Layout → List (Instance × Layout)
  | text _, _ => []
  | hole name, L =>
    match values name with
    | some (.block nested) => [(nested, L)]
    | _ => []
  | element _ _ children, .node _ kids => allHeld values children kids

/-- The nested instances of several fragments. -/
def allHeld (values : String → Option Value) :
    List Fragment → List Layout → List (Instance × Layout)
  | f :: rest, L :: Ls => f.held values L ++ allHeld values rest Ls
  | _, _ => []
end

mutual
/-- The nodes of a layout that are not those of a nested instance. -/
def own (slots : String → Option Showing) : Fragment → Layout → List Nat
  | text _, .node id _ => [id]
  | hole name, .node id _ => if (hole name).isBlock slots then [] else [id]
  | element _ _ children, .node id kids => id :: allOwn slots children kids

/-- The nodes of several layouts that are not those of nested instances. -/
def allOwn (slots : String → Option Showing) : List Fragment → List Layout → List Nat
  | f :: rest, L :: Ls => f.own slots L ++ allOwn slots rest Ls
  | _, _ => []
end

mutual
theorem nodes_subset : ∀ (f : Fragment) (L : Layout), f.nodes L ⊆ L.ids
  | .text _, .node id kids => by simp [nodes]
  | .hole _, .node id kids => by simp [nodes]
  | .element _ props children, .node id kids => by
    have hrest := childNodes_subset id children kids
    intro x hx
    rcases List.mem_append.mp hx with hx | hx
    · obtain ⟨_, -, rfl⟩ := List.mem_map.mp hx
      exact List.mem_cons_self
    · exact hrest hx

theorem childNodes_subset (id : Nat) : ∀ (fs : List Fragment) (Ls : List Layout),
    childNodes id fs Ls ⊆ id :: Layout.allIds Ls
  | [], _ => by simp [childNodes]
  | _ :: _, [] => by simp [childNodes]
  | f :: rest, L :: Ls => by
    have hfirst := nodes_subset f L
    have hrest := childNodes_subset id rest Ls
    intro x hx
    simp only [Layout.allIds, List.mem_cons, List.mem_append]
    rcases List.mem_append.mp hx with hx | hx
    · split at hx
      · exact .inl (List.mem_singleton.mp hx)
      · exact .inr (.inl (hfirst hx))
    · exact (List.mem_cons.mp (hrest hx)).imp_right .inr
end

mutual
theorem own_sublist : ∀ (f : Fragment) (L : Layout), (f.own slots L).Sublist L.ids
  | .text _, .node id kids => by simp [own, Layout.ids]
  | .hole name, .node id kids => by
    simp only [own, Layout.ids]
    split <;> simp
  | .element tag props children, .node id kids => by
    simp only [own, Layout.ids]
    exact (allOwn_sublist children kids).cons_cons id

theorem allOwn_sublist : ∀ (fs : List Fragment) (Ls : List Layout),
    (allOwn slots fs Ls).Sublist (Layout.allIds Ls)
  | [], _ => by simp [allOwn]
  | _ :: _, [] => by simp [allOwn]
  | f :: rest, L :: Ls => by
    simp only [allOwn, Layout.allIds]
    exact (own_sublist f L).append (allOwn_sublist rest Ls)
end

mutual
/-- What is placed stays placed where its own nodes and its slots stay the same. -/
theorem Placed.congr : ∀ {f : Fragment} {L : Layout}, f.Placed d slots L →
    (∀ hole ∈ f.holes, slots hole = slots' hole) → (∀ x ∈ f.own slots L, d.SameAt e x) →
    f.Placed e slots' L
  | .text value, .node id _, h, _, hs => by
    simp only [Placed] at h ⊢
    rw [(hs id (by simp [own])).1, h]
  | .hole name, .node id _, h, hslots, hs => by
    have hname := hslots name (by simp [holes])
    simp only [Placed] at h ⊢
    rw [← hname]
    cases hv : slots name with
    | none => simp [hv] at h
    | some showing =>
      cases showing with
      | scalar value =>
        simp only [hv] at h ⊢
        rw [(hs id (by simp [own, isBlock, hv, Showing.isBlock])).1, h]
      | block shape => trivial
  | .element tag props children, .node id kids, h, hslots, hs => by
    simp only [holes, List.mem_append] at hslots
    simp only [Placed] at h ⊢
    obtain ⟨⟨attributes, hattributes, hk⟩, hc, hall⟩ := h
    have hid := hs id (by simp [own])
    refine ⟨⟨attributes, ?_, hid.1.trans hk⟩, ?_, ?_⟩
    · rw [← hattributes, PropList.rendered, PropList.rendered,
        PropList.bound_congr fun name hn => hslots name (.inl hn)]
    · rw [hid.2, hc]
      refine staying_congr fun f hf => isBlock_congr fun name hn => ?_
      exact hslots name (.inr (mem_allHoles.mpr ⟨f, hf, hn⟩))
    · refine AllPlaced.congr hall (fun name hn => hslots name (.inr hn)) fun x hx => hs x ?_
      simp [own, hx]

theorem AllPlaced.congr : ∀ {fs : List Fragment} {Ls : List Layout}, AllPlaced d slots fs Ls →
    (∀ hole ∈ allHoles fs, slots hole = slots' hole) → (∀ x ∈ allOwn slots fs Ls, d.SameAt e x) →
    AllPlaced e slots' fs Ls
  | [], [], _, _, _ => trivial
  | [], _ :: _, h, _, _ => by simp [AllPlaced] at h
  | _ :: _, [], h, _, _ => by simp [AllPlaced] at h
  | f :: rest, L :: Ls, h, hslots, hs => by
    simp only [allHoles, List.mem_append] at hslots
    simp only [allOwn, List.mem_append] at hs
    exact ⟨Placed.congr h.1 (fun name hn => hslots name (.inl hn)) fun x hx => hs x (.inl hx),
      AllPlaced.congr h.2 (fun name hn => hslots name (.inr hn)) fun x hx => hs x (.inr hx)⟩
end

theorem AllPlaced.length : ∀ {fs : List Fragment} {Ls : List Layout}, AllPlaced d slots fs Ls →
    Ls.length = fs.length
  | [], [], _ => rfl
  | [], _ :: _, h => by simp [AllPlaced] at h
  | _ :: _, [], h => by simp [AllPlaced] at h
  | _ :: _, _ :: _, h => by simp [h.2.length]

mutual
theorem held_congr : ∀ {f : Fragment} {L : Layout},
    (∀ hole ∈ f.holes, values hole = values' hole) → f.held values L = f.held values' L
  | .text _, _, _ => rfl
  | .hole name, L, h => by simp only [held, h name (by simp [holes])]
  | .element _ _ children, .node _ kids, h => by
    simp only [holes, List.mem_append] at h
    exact allHeld_congr fun name hn => h name (.inr hn)

theorem allHeld_congr : ∀ {fs : List Fragment} {Ls : List Layout},
    (∀ hole ∈ allHoles fs, values hole = values' hole) → allHeld values fs Ls = allHeld values' fs Ls
  | [], _, _ => rfl
  | _ :: _, [], _ => rfl
  | f :: rest, L :: Ls, h => by
    simp only [allHoles, List.mem_append] at h
    simp only [allHeld, held_congr fun name hn => h name (.inl hn),
      allHeld_congr fun name hn => h name (.inr hn)]
end

mutual
theorem ids_of_mem_held {n : Instance} {K : Layout} : ∀ {f : Fragment} {L : Layout},
    (n, K) ∈ f.held values L → K.ids ⊆ L.ids ∧ ∃ hole ∈ f.holes, values hole = some (.block n)
  | .text _, _, h => by simp [held] at h
  | .hole name, L, h => by
    simp only [held] at h
    split at h
    · rename_i nested hv
      simp only [List.mem_singleton, Prod.mk.injEq] at h
      obtain ⟨rfl, rfl⟩ := h
      exact ⟨fun _ hx => hx, name, by simp [holes], hv⟩
    · simp at h
  | .element _ _ children, .node id kids, h => by
    obtain ⟨hids, hole, hm, hv⟩ := ids_of_mem_allHeld h
    refine ⟨fun x hx => ?_, hole, ?_, hv⟩
    · simp [Layout.ids, hids hx]
    · simp [holes, hm]

theorem ids_of_mem_allHeld {n : Instance} {K : Layout} : ∀ {fs : List Fragment} {Ls : List Layout},
    (n, K) ∈ allHeld values fs Ls →
      K.ids ⊆ Layout.allIds Ls ∧ ∃ hole ∈ allHoles fs, values hole = some (.block n)
  | [], _, h => by simp [allHeld] at h
  | _ :: _, [], h => by simp [allHeld] at h
  | f :: rest, L :: Ls, h => by
    rcases List.mem_append.mp h with h | h
    · obtain ⟨hids, hole, hm, hv⟩ := ids_of_mem_held h
      exact ⟨fun x hx => by simp [Layout.allIds, hids hx], hole, by simp [allHoles, hm], hv⟩
    · obtain ⟨hids, hole, hm, hv⟩ := ids_of_mem_allHeld h
      exact ⟨fun x hx => by simp [Layout.allIds, hids hx], hole, by simp [allHoles, hm], hv⟩
end

end Fragment

namespace Instance

variable {source : Block → Fragment} {d e : Document} {i : Instance} {L : Layout}

/-- The instance is mounted at the nodes of the layout, and so are the nested ones. -/
inductive Stands (source : Block → Fragment) (d : Document) : Instance → Layout → Prop where
  | intro {i : Instance} {L : Layout} (root : i.root = some L.id)
      (resolved : i.resolved = (source i.block).nodes L)
      (placed : (source i.block).Placed d (i.showing? source) L)
      (nested : ∀ n K, (n, K) ∈ (source i.block).held i.prop? L → Stands source d n K) :
      Stands source d i L

theorem Stands.congr (h : i.Stands source d L) (hs : ∀ x ∈ L.ids, d.SameAt e x) :
    i.Stands source e L := by
  induction h with
  | intro root resolved placed nested ih =>
    refine .intro root resolved (placed.congr (fun _ _ => rfl) fun x hx => ?_) fun n K hm => ?_
    · exact hs x ((Fragment.own_sublist _ _).subset hx)
    · exact ih n K hm fun x hx => hs x ((Fragment.ids_of_mem_held hm).1 hx)

end Instance

/-- A tree at a layout is shown and has this shape. -/
def Document.Pictures (d : Document) (L : Layout) (shape : Option Shape) : Prop :=
  ∃ t : Tree, d.Shows t ∧ t.id = L.id ∧ t.ids.Sublist L.ids ∧ shape = some t.shape

theorem Tree.allIds_sublist {ts us : List Tree} (h : ts.Sublist us) :
    (Tree.allIds ts).Sublist (Tree.allIds us) := by
  induction h with
  | slnil => simp
  | cons u _ ih => exact ih.trans (List.sublist_append_right _ _)
  | cons_cons u _ ih => exact (List.Sublist.refl _).append ih

theorem Document.ShowsAll.sublist {d : Document} {ts us : List Tree} (h : d.ShowsAll us)
    (hsub : ts.Sublist us) : d.ShowsAll ts := by
  induction hsub with
  | slnil => exact h
  | cons u _ ih => exact ih h.2
  | cons_cons u _ ih => exact ⟨h.1, ih h.2⟩

namespace Fragment

variable {source : Block → Fragment} {d : Document} {slots : String → Option Showing}
  {values : String → Option Value}

mutual
theorem Placed.pictures (hslots : ∀ hole, slots hole = (values hole).map (Value.showing source)) :
    ∀ {f : Fragment} {L : Layout}, f.Placed d slots L →
      (∀ n K, (n, K) ∈ f.held values L → d.Pictures K (n.render source)) →
      d.Pictures L (f.render slots)
  | .text value, .node id kids, h, _ => by
    refine ⟨.text id value.text, ?_, rfl, by simp [Tree.ids, Layout.ids], rfl⟩
    simpa [Document.Shows, Placed] using h
  | .hole name, .node id kids, h, hheld => by
    simp only [Placed] at h
    cases hv : values name with
    | none => simp [hslots, hv] at h
    | some value =>
      cases value with
      | scalar value =>
        simp only [hslots, hv, Option.map_some, Value.showing] at h
        refine ⟨.text id value.text, ?_, rfl, by simp [Tree.ids, Layout.ids], ?_⟩
        · simpa [Document.Shows] using h
        · simp [render, hslots, hv, Value.showing, Tree.shape]
      | block nested =>
        -- the root of the nested instance stands for the hole
        have hp := hheld nested (.node id kids) (by simp [held, hv])
        simpa [render, hslots, hv, Value.showing] using hp
  | .element tag props children, .node id kids, h, hheld => by
    simp only [Placed] at h
    obtain ⟨⟨attributes, hattributes, hk⟩, hc, hall⟩ := h
    obtain ⟨ts, hts, hids, hsub, hshapes⟩ := AllPlaced.pictures hslots hall hheld
    have hstay : (staying slots children ts).Sublist ts := staying_sublist ..
    refine ⟨.element id tag attributes (staying slots children ts), ⟨hk, ?_, hts.sublist hstay⟩,
      rfl, ?_, ?_⟩
    · rw [hc, ← hids, staying_map]
    · simp only [Tree.ids, Layout.ids]
      exact ((Tree.allIds_sublist hstay).trans hsub).cons_cons id
    · simp [render, hattributes, hshapes, Tree.shape, Tree.shapes_eq_map, staying_map]

theorem AllPlaced.pictures
    (hslots : ∀ hole, slots hole = (values hole).map (Value.showing source)) :
    ∀ {fs : List Fragment} {Ls : List Layout}, AllPlaced d slots fs Ls →
      (∀ n K, (n, K) ∈ allHeld values fs Ls → d.Pictures K (n.render source)) →
      ∃ ts : List Tree, d.ShowsAll ts ∧ ts.map Tree.id = Ls.map Layout.id ∧
        (Tree.allIds ts).Sublist (Layout.allIds Ls) ∧
        renderEach slots fs = some (ts.map Tree.shape)
  | [], [], _, _ => ⟨[], trivial, rfl, .slnil, rfl⟩
  | [], _ :: _, h, _ => by simp [AllPlaced] at h
  | _ :: _, [], h, _ => by simp [AllPlaced] at h
  | f :: rest, L :: Ls, h, hheld => by
    simp only [allHeld, List.mem_append] at hheld
    obtain ⟨t, ht, hid, hsub, hshape⟩ :=
      Placed.pictures hslots h.1 fun n K hm => hheld n K (.inl hm)
    obtain ⟨ts, hts, hids, hsubs, hshapes⟩ :=
      AllPlaced.pictures hslots h.2 fun n K hm => hheld n K (.inr hm)
    refine ⟨t :: ts, ⟨ht, hts⟩, by simp [hid, hids], hsub.append hsubs, ?_⟩
    simp [renderEach, hshape, hshapes]
end

end Fragment

namespace Instance

variable {source : Block → Fragment} {d : Document} {i : Instance} {L : Layout}

/-- Where an instance stands, the document shows its rendering. -/
theorem Stands.pictures (h : i.Stands source d L) : d.Pictures L (i.render source) := by
  induction h with
  | intro root resolved placed nested ih =>
    rw [render_eq]
    exact placed.pictures (fun _ => rfl) ih

/-- The tree below the root of an instance is its rendering. -/
theorem Stands.tree (h : i.Stands source d L) (hnodup : L.ids.Nodup)
    (hroot : d.isOwnAncestor L.id = false) : ∃ t, d.tree? L.id = some t ∧ d.Shows t ∧
      t.id = L.id ∧ t.ids.Nodup ∧ i.render source = some t.shape := by
  obtain ⟨t, hshows, hid, hsub, hshape⟩ := h.pictures
  have ht := hnodup.sublist hsub
  refine ⟨t, ?_, hshows, hid, ht, hshape⟩
  rw [← hid] at hroot ⊢
  exact Document.tree?_of_shows hshows ht hroot

end Instance

end Stencil
