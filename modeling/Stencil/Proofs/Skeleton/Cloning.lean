import Stencil.Document.Markup
import Stencil.Proofs.Document.Linkage
import Stencil.Proofs.Template.Crossing
/- Clones of skeletons, as the calls on a document make them. A clone is the skeleton's tree
   under the ids that come next, in reading order; nothing before it changes, and each node costs
   one mutation to create, one to put it below its parent, and one for each of its attribute
   entries (`clones_cloneSkeleton`). A path leads into the clone exactly where it leads in the
   skeleton: a node of a text has no children there, which needs that no node is in two lists. -/
namespace Stencil

namespace Bindings

/-- What attributes hold after a list was written: under each name, what its last entry says. -/
theorem get?_writeAll_reverse (pairs : List (String × Scalar)) (held : Bindings Scalar)
    (name : String) : (writeAll pairs held).get? name =
      match pairs.reverse.lookup name with
      | some value => present value
      | none => held.get? name := by
  induction pairs generalizing held with
  | nil => rfl
  | cons p rest ih =>
    obtain ⟨key, value⟩ := p
    have hrest := ih (write key value held)
    simp only [writeAll, List.foldl_cons] at hrest ⊢
    rw [hrest, List.reverse_cons, List.lookup_append, get?_write]
    cases rest.reverse.lookup name with
    | some value => rfl
    | none =>
      rw [Option.none_or, List.lookup_cons, List.lookup_nil]
      by_cases h : name = key
      · simp [h]
      · have hb : (name == key) = false := by simp [h]
        simp [h, hb]

end Bindings

namespace Skeleton

mutual
/-- The number of attribute entries. -/
def entryCount : Skeleton → Nat
  | text _ => 0
  | element _ attributes children => attributes.length + entryCounts children

/-- The number of attribute entries of a list of skeletons. -/
def entryCounts : List Skeleton → Nat
  | [] => 0
  | s :: rest => s.entryCount + entryCounts rest
end

theorem getElem?_plants (next : Nat) : ∀ (ss : List Skeleton) (k : Nat), (plants next ss)[k]? =
    ss[k]?.map fun s => s.plant (next + nodeCounts (ss.take k))
  | [], k => rfl
  | s :: rest, 0 => by simp [plants, nodeCounts]
  | s :: rest, k + 1 => by
    simp [plants, nodeCounts, getElem?_plants (next + s.nodeCount) rest k, Nat.add_assoc]

/-- At the end of a path, the tree of a copy has the copy of what the skeleton has there. -/
theorem exists_at?_plant {path : Path} : ∀ {s u : Skeleton} {x : Nat}, s.at? path = some u →
    ∃ y, (s.plant x).at? path = some (u.plant y) := by
  induction path with
  | nil =>
    intro s u x h
    obtain rfl : s = u := by simpa [at?] using h
    exact ⟨x, rfl⟩
  | cons index rest ih =>
    intro s u x h
    cases s with
    | text content => simp [at?, children] at h
    | element tag attributes kids =>
      obtain ⟨c, hc, hu⟩ := Option.bind_eq_some_iff.mp h
      obtain ⟨y, hy⟩ := ih (x := x + 1 + nodeCounts (kids.take index)) hu
      have hc : kids[index]? = some c := hc
      exact ⟨y, by simp [plant, Tree.at?, getElem?_plants, hc, hy]⟩

theorem at?_plant_eq_none {path : Path} : ∀ {s : Skeleton} {x : Nat}, s.at? path = none →
    (s.plant x).at? path = none := by
  induction path with
  | nil =>
    intro s x h
    simp [at?] at h
  | cons index rest ih =>
    intro s x h
    cases s with
    | text content => rfl
    | element tag attributes kids =>
      simp only [at?, children] at h
      simp only [plant, Tree.at?, getElem?_plants]
      cases hc : kids[index]? with
      | none => rfl
      | some c => simpa using ih (by simpa [hc] using h)

end Skeleton

namespace Document

open Skeleton (plant plants entryCount entryCounts nodeCount nodeCounts)

section Mutations

variable (d : Document)

theorem mutations_createElement (tag : String) :
    (d.createElement tag).mutations = d.mutations + 1 := rfl

theorem mutations_createText (content : String) :
    (d.createText content).mutations = d.mutations + 1 := rfl

theorem mutations_setAttribute (node : NodeId) (name : String) (value : Scalar) :
    (d.setAttribute node name value).mutations = d.mutations + 1 := rfl

theorem mutations_detach (id : NodeId) : (d.detach id).mutations = d.mutations := by
  unfold detach
  split <;> rfl

theorem mutations_appendChild (parent child : NodeId) :
    (d.appendChild parent child).mutations = d.mutations + 1 :=
  congrArg (· + 1) (d.mutations_detach child)

theorem mutations_attributes (node : NodeId) (pairs : List (String × Scalar)) :
    (d.applyAll (pairs.map fun a => .setAttribute node a.1 a.2)).mutations =
      d.mutations + pairs.length := by
  induction pairs generalizing d with
  | nil => rfl
  | cons p rest ih =>
    rw [List.map_cons, applyAll_cons, ih, List.length_cons, Document.apply, mutations_setAttribute]
    omega

end Mutations

mutual
/-- A copy costs a mutation for each entry and two for each node, but one for the topmost. -/
theorem mutations_copy : ∀ (s : Skeleton) (d : Document) (next : NodeId),
    (d.applyAll (s.copy next)).mutations + 1 = d.mutations + 2 * s.nodeCount + s.entryCount
  | .text content, d, next => by
    simp only [Skeleton.copy, applyAll_cons, applyAll_nil, Document.apply, mutations_createText,
      nodeCount, entryCount]
  | .element tag attributes children, d, next => by
    simp only [Skeleton.copy, List.cons_append, applyAll_cons, applyAll_append, mutations_copies,
      mutations_attributes, Document.apply, mutations_createElement, nodeCount, entryCount]
    omega

theorem mutations_copies : ∀ (ss : List Skeleton) (d : Document) (parent next : NodeId),
    (d.applyAll (Skeleton.copies parent next ss)).mutations =
      d.mutations + 2 * nodeCounts ss + entryCounts ss
  | [], d, parent, next => rfl
  | s :: rest, d, parent, next => by
    have hfirst := mutations_copy s d next
    simp only [Skeleton.copies, applyAll_append, applyAll_cons, mutations_copies rest,
      Document.apply, mutations_appendChild, nodeCounts, entryCounts]
    omega
end

section Paths

variable {d : Document}

mutual
/-- In a tree that is shown, all but the topmost node are children of its elements. -/
theorem Shows.exists_above : ∀ {t : Tree}, d.Shows t → ∀ c ∈ t.ids, c ≠ t.id →
    ∃ p tag held, d.kind? p = some (.element tag held) ∧ c ∈ d.children p
  | .text id content, _, c, hc, hne => absurd (List.mem_singleton.mp hc) hne
  | .element id tag attributes children, h, c, hc, hne => by
    obtain ⟨hkind, hchildren, hall⟩ := h
    rcases List.mem_cons.mp hc with rfl | hc
    · exact absurd rfl hne
    · rcases ShowsAll.exists_above hall c hc with htop | habove
      · exact ⟨id, tag, attributes, hkind, hchildren ▸ htop⟩
      · exact habove

theorem ShowsAll.exists_above : ∀ {ts : List Tree}, d.ShowsAll ts → ∀ c ∈ Tree.allIds ts,
    c ∈ ts.map Tree.id ∨ ∃ p tag held, d.kind? p = some (.element tag held) ∧ c ∈ d.children p
  | [], _, c, hc => by simp [Tree.allIds] at hc
  | t :: rest, h, c, hc => by
    rcases List.mem_append.mp hc with hc | hc
    · by_cases htop : c = t.id
      · exact .inl (htop ▸ List.mem_cons_self)
      · exact .inr (Shows.exists_above h.1 c hc htop)
    · exact (ShowsAll.exists_above h.2 c hc).imp_left (List.mem_cons_of_mem _)
end

/-- Texts without children end a path, so it leads nowhere else than in the tree. -/
theorem Shows.resolve?_eq_none {path : Path} : ∀ {t : Tree}, d.Shows t →
    (∀ x content, x ∈ t.ids → d.kind? x = some (.text content) → d.children x = []) →
    t.at? path = none → d.resolve? t.id path = none := by
  induction path with
  | nil =>
    intro t _ _ h
    simp [Tree.at?] at h
  | cons index rest ih =>
    intro t hshows hbare h
    cases t with
    | text id content =>
      rw [Document.resolve?, childAt?, Tree.id, hbare id content (by simp [Tree.ids]) hshows]
      rfl
    | element id tag attributes children =>
      obtain ⟨-, hchildren, hall⟩ := hshows
      rw [Document.resolve?, childAt?, Tree.id, hchildren, List.getElem?_map]
      cases hc : children[index]? with
      | none => rfl
      | some c =>
        have hsub : ∀ x ∈ c.ids, x ∈ Tree.ids (.element id tag attributes children) := fun x hx =>
          List.mem_cons_of_mem _ (Tree.mem_allIds.mpr ⟨c, List.mem_of_getElem? hc, hx⟩)
        exact ih (hall.of_getElem? hc) (fun x content hx => hbare x content (hsub x hx))
          (by simpa [Tree.at?, hc] using h)

end Paths

/-- The node shows the text of the skeleton, or has its tag and under each name what the last
entry of that name says, where the null value says that there is nothing. -/
def Mirrors (d : Document) (x : NodeId) : Skeleton → Prop
  | .text content => d.text? x = some content
  | .element tag pairs _ => d.tag? x = some tag ∧
      ∀ name, d.attribute? x name = (pairs.reverse.lookup name).bind Bindings.present

/-- The second document has a clone of the skeleton and all that the first one has. The clone's
root is no one's child, and paths lead in the clone where they lead in the skeleton. -/
structure Clones (d : Document) (s : Skeleton) (e : Document) : Prop where
  size : e.size = d.size + s.nodeCount
  tree : e.tree? d.size = some (s.plant d.size)
  ids : (s.plant d.size).ids = List.range' d.size s.nodeCount
  free : e.parent? d.size = none
  old : ∀ x, x < d.size → e.node? x = d.node? x
  mutations : e.mutations = d.mutations + (2 * s.nodeCount - 1) + s.entryCount
  found : ∀ path u, s.at? path = some u → ∃ x, (s.plant d.size).at? path = some (u.plant x) ∧
    e.resolve? d.size path = some x ∧ e.Mirrors x u
  lost : ∀ path, s.at? path = none → e.resolve? d.size path = none

section Clones

variable {d e : Document} {s : Skeleton}

theorem Shows.mirrors {x : NodeId} (h : e.Shows (s.plant x)) : e.Mirrors x s := by
  cases s with
  | text content =>
    have hkind : e.kind? x = some (.text content) := h
    simp [Mirrors, text?, hkind]
  | element tag pairs children =>
    have hkind : e.kind? x = some (.element tag (Bindings.writeAll pairs [])) := h.1
    refine ⟨by simp [tag?, hkind], fun name => ?_⟩
    simp only [attribute?, attributes, hkind, Bindings.get?_writeAll_reverse]
    cases pairs.reverse.lookup name <;> rfl

/-- A text of a new tree has no children, since all nodes but the root are children of elements. -/
theorem Linked.children_of_text {t : Tree} (h : e.Linked) (hclosed : e.Closed)
    (hshows : e.Shows t) (hids : ∀ x, t.id < x → x < e.size → x ∈ t.ids)
    (hbelow : ∀ x, x ∈ t.ids → ∀ c : NodeId, c ∈ e.children x → t.id < c) {x : NodeId}
    {content : String} (hx : x ∈ t.ids) (hkind : e.kind? x = some (.text content)) :
    e.children x = [] := by
  rw [List.eq_nil_iff_forall_not_mem]
  intro c hc
  have hlt : t.id < c := hbelow x hx c hc
  obtain ⟨p, tag, held, helement, hcp⟩ :=
    hshows.exists_above c (hids c hlt (hclosed.children hc)) (Nat.ne_of_gt hlt)
  -- the node has one parent only
  obtain rfl : p = x := by
    simpa [h.mem_children.mp hc] using (h.mem_children.mp hcp).symm
  rw [hkind] at helement
  cases helement

theorem Reachable.clones (hd : d.Reachable) (s : Skeleton) :
    d.Clones s (d.applyAll (s.copy d.size)) := by
  have hcopy := applyAll_copy s d
  have hevolves := hcopy.admits.evolves
  have hclosed := hevolves.closed hd.closed
  have hlinked := hevolves.linked hd.linked
  have hmutations := mutations_copy s d d.size
  have hpos := s.nodeCount_pos
  obtain ⟨-, hsize, hshows, hfree, hbelow, hold⟩ := hcopy
  generalize d.applyAll (s.copy d.size) = e at *
  have hid := s.id_plant d.size
  have hroot : e.isOwnAncestor (s.plant d.size).id = false := by
    refine isOwnAncestor_eq_false (fun _ => False) not_false (fun p hp => ?_) fun _ h => h.elim
    simp [hid, hfree] at hp
  have hbare : ∀ x content, x ∈ (s.plant d.size).ids → e.kind? x = some (.text content) →
      e.children x = [] := by
    intro x content hx hkind
    refine hlinked.children_of_text hclosed hshows (fun y hy hlt => ?_) (fun y hy c hc => ?_) hx hkind
    · rw [hid] at hy
      exact Skeleton.mem_ids_plant.mpr ⟨Nat.le_of_lt hy, hsize ▸ hlt⟩
    · rw [hid]
      exact hbelow y (Skeleton.mem_ids_plant.mp hy).1 c hc
  constructor
  case size => exact hsize
  case tree =>
    rw [← tree?_of_shows hshows (s.ids_plant d.size ▸ List.nodup_range') hroot, hid]
  case ids => exact s.ids_plant d.size
  case free => exact hfree
  case old => exact hold
  case mutations => omega
  case found =>
    intro path u hu
    obtain ⟨x, hx⟩ := Skeleton.exists_at?_plant (x := d.size) hu
    obtain ⟨hresolve, hshown⟩ := hshows.resolve? hx
    rw [hid, Skeleton.id_plant] at hresolve
    exact ⟨x, hx, hresolve, hshown.mirrors⟩
  case lost =>
    intro path hnone
    rw [← hid]
    exact hshows.resolve?_eq_none hbare (Skeleton.at?_plant_eq_none hnone)

/-- **A clone is a fresh, detached copy.** In every reachable document, a call for a clone of a
skeleton makes the skeleton's tree out of the nodes that come next, numbered in reading order, and
leaves all earlier nodes as they are. A clone that is made at any later time has none of these
nodes. -/
theorem clones_cloneSkeleton (hd : d.Reachable) (s : Skeleton) :
    ∃ e, d.calls? [.cloneSkeleton s] = some (e, List.range' d.size s.nodeCount) ∧ d.Clones s e ∧
      ∀ f g t ids, e.Evolves f → f.calls? [.cloneSkeleton t] = some (g, ids) →
        List.Disjoint (List.range' d.size s.nodeCount) ids := by
  have hclones := hd.clones s
  have hcalls : ∀ {d : Document}, d.Reachable → ∀ s : Skeleton, d.calls? [.cloneSkeleton s] =
      some (d.applyAll (s.copy d.size), List.range' d.size s.nodeCount) := by
    intro d hd s
    rw [(hd.closed.makes (.cloneSkeleton s) (by simp [Call.names])).calls?, Call.changes,
      (hd.clones s).size, Nat.add_sub_cancel_left]
  refine ⟨_, hcalls hd s, hclones, fun f g t ids hevolves hcall x hx hx' => ?_⟩
  have hf : f.Reachable := (hd.trans (applyAll_copy s d).admits.evolves).trans hevolves
  rw [hcalls hf t] at hcall
  obtain ⟨-, rfl⟩ := Prod.mk.inj (Option.some.inj hcall)
  have hle := hevolves.size_le
  rw [hclones.size] at hle
  have hlt := (List.mem_range'_1.mp hx).2
  have hge := (List.mem_range'_1.mp hx').1
  omega

/-- A line whose tone is set twice and whose tip is taken back. -/
def line : Skeleton :=
  .element "p" [("tone", .str "hot"), ("tip", .str "see"), ("tone", .str "cold"), ("tip", .null)]
    [.text "now", .element "b" [] [.text "new"]]

/-- Two clones of the line in one document. -/
theorem clones_cloneSkeleton_line : blank.Reachable ∧
    ∃ e, blank.calls? [.cloneSkeleton line] = some (e, [1, 2, 3, 4]) ∧ blank.Clones line e ∧
      e.markup? 1 = some "<p tone=\"cold\">now<b>new</b></p>" ∧ e.mutations = 11 ∧
      ∃ f, e.calls? [.cloneSkeleton line] = some (f, [5, 6, 7, 8]) ∧
        List.Disjoint [1, 2, 3, 4] [5, 6, 7, 8] := by
  obtain ⟨e, hcalls, hclones, hfresh⟩ := @clones_cloneSkeleton blank .refl line
  obtain ⟨rfl, -⟩ := Prod.mk.inj (Option.some.inj hcalls)
  exact ⟨.refl, _, hcalls, hclones, rfl, rfl, _, rfl, hfresh _ _ line _ .refl rfl⟩

end Clones

end Document

end Stencil
