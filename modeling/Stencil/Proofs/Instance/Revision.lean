import Stencil.Proofs.Instance.Families
import Stencil.Proofs.Instance.Replanning
/- Revising a mounted instance. Where an instance stands, a patch by one that is alike is
   planned without a refusal, and carrying it out leaves the patched instance standing at
   the same nodes (`revises`). The text of a child can be found again because the children that
   stay have its index for it (`staying_of_finds`), and an attribute is written by one edit only
   (`Distinct`). -/
namespace Stencil

namespace Fragment

mutual
/-- No element has two properties of one name. -/
def Distinct : Fragment → Prop
  | element _ props children => (props.map Prod.fst).Nodup ∧ AllDistinct children
  | _ => True

/-- In none of the fragments an element has two properties of one name. -/
def AllDistinct : List Fragment → Prop
  | [] => True
  | f :: rest => f.Distinct ∧ AllDistinct rest
end

section Standing

variable {source : Block → Fragment} {values : String → Option Value} {d e : Document}
  {f : Fragment} {fs : List Fragment} {L : Layout} {Ls : List Layout}

/-- Fragments are placed at their layouts with these values, and the nested instances among
the values stand in turn. -/
def Standing (source : Block → Fragment) (values : String → Option Value) (fs : List Fragment)
    (Ls : List Layout) (d : Document) : Prop :=
  AllPlaced d (showingOf source values) fs Ls ∧
    ∀ n K, (n, K) ∈ allHeld values fs Ls → n.Stands source d K

theorem Standing.congr (h : Standing source values fs Ls d)
    (hs : ∀ x ∈ Layout.allIds Ls, d.SameAt e x) : Standing source values fs Ls e := by
  refine ⟨h.1.congr (fun _ _ => rfl) fun x hx => hs x ((allOwn_sublist fs Ls).subset hx),
    fun n K hm => ?_⟩
  exact (h.2 n K hm).congr fun x hx => hs x ((ids_of_mem_allHeld hm).1 hx)

theorem Standing.cons (h : Standing source values [f] [L] d)
    (h' : Standing source values fs Ls d) : Standing source values (f :: fs) (L :: Ls) d := by
  refine ⟨⟨h.1.1, h'.1⟩, fun n K hm => ?_⟩
  rcases List.mem_append.mp hm with hm | hm
  · exact h.2 n K (by simpa [allHeld] using hm)
  · exact h'.2 n K hm

theorem Standing.head (h : Standing source values (f :: fs) (L :: Ls) d) :
    Standing source values [f] [L] d :=
  ⟨⟨h.1.1, trivial⟩, fun n K hm => h.2 n K (List.mem_append_left _ (by simpa [allHeld] using hm))⟩

theorem Standing.tail (h : Standing source values (f :: fs) (L :: Ls) d) :
    Standing source values fs Ls d :=
  ⟨h.1.2, fun n K hm => h.2 n K (List.mem_append_right _ hm)⟩

theorem Standing.congr_values {values' : String → Option Value}
    (h : Standing source values [f] [L] d) (hvalues : ∀ hole ∈ f.holes, values hole = values' hole) :
    Standing source values' [f] [L] d := by
  refine ⟨⟨h.1.1.congr (fun hole hm => ?_) fun x _ => .refl .., trivial⟩, fun n K hm => h.2 n K ?_⟩
  · rw [showingOf, showingOf, hvalues hole hm]
  · simp only [allHeld, List.append_nil] at hm ⊢
    rw [held_congr hvalues]
    exact hm

end Standing

end Fragment

/-- An instance stands where the fragment of its block does, with its values. -/
theorem Instance.stands_iff {source : Block → Fragment} {d : Document} {i : Instance}
    {L : Layout} : i.Stands source d L ↔
      i.root = some L.id ∧ i.resolved = (source i.block).nodes L ∧
        Fragment.Standing source i.prop? [source i.block] [L] d := by
  constructor
  · rintro ⟨root, resolved, placed, nested⟩
    exact ⟨root, resolved, ⟨placed, trivial⟩, fun n K hm =>
      nested n K (by simpa [Fragment.allHeld] using hm)⟩
  · rintro ⟨root, resolved, ⟨placed, -⟩, nested⟩
    exact .intro root resolved placed fun n K hm =>
      nested n K (by simpa [Fragment.allHeld] using hm)

namespace Instance

open Fragment (Standing)

variable {source : Block → Fragment} {d : Document} {live fresh : Instance}
  {after : String → Option Value} {hole : String} {L : Layout} {c : Cursor}
  {number index node : Nat}

/-- Planning for a hole among the children of an element whose slot has a scalar: the text
is found under the index of the hole. -/
theorem replans_leaf {a b : Scalar} (hold : live.prop? hole = some (.scalar a))
    (hnew : fresh.prop? hole = some (.scalar b)) (hafter : after hole = some (.scalar b))
    (heq : a.equal b = true → a = b) (hnode : node < d.size)
    (hkind : d.kind? L.id = some (.text a.text)) (hchild : d.childAt? node index = some L.id) :
    Replans d live fresh number [.child c.toPath index hole] [node] L.ids
      (Standing source after [.hole hole] [L]) := by
  have hshown : showingOf source after hole = some (.scalar b) := by
    simp [showingOf, hafter, Value.showing]
  have hgood : ∀ {e : Document}, e.kind? L.id = some (.text b.text) →
      Standing source after [.hole hole] [L] e := by
    intro e he
    obtain ⟨id, kids⟩ := L
    refine ⟨⟨?_, trivial⟩, fun n K hm => ?_⟩
    · simp only [Fragment.Placed, hshown]
      exact he
    · simp [Fragment.allHeld, Fragment.held, hafter] at hm
  have hedit := planEdit_scalars (d := d) (e := .child c.toPath index hole) hold hnew number node
  cases hequal : a.equal b with
  | true =>
    obtain rfl := heq hequal
    rw [hequal, if_pos rfl] at hedit
    refine replans_single hedit (.nil _ fun e he => hgood ?_)
    rw [(he _ L.id_mem_ids).1, hkind]
  | false =>
    have hissued : d.issued node = true := Document.issued_iff.mpr hnode
    simp only [hequal, planScalar, hissued, hchild, Bool.false_eq_true, Bool.not_true, if_false]
      at hedit
    refine replans_single hedit fun e he => ?_
    have hkind' : e.kind? L.id = some (.text a.text) := by rw [(he _ L.id_mem_ids).1, hkind]
    refine ⟨(Document.Redrawn.setText hkind' b.text).mono ?_, hgood ?_⟩
    · simpa using L.id_mem_ids
    · exact (Document.kind?_setText hkind' b.text L.id).trans (if_pos rfl)

/-- Planning for a hole among the children of an element whose slot has a nested instance. -/
theorem replans_nested {n m : Instance} (hold : live.prop? hole = some (.block n))
    (hnew : fresh.prop? hole = some (.block m)) {plan : Plan} (hplan : n.plan d m = .ok plan)
    (hafter : after hole = some (.block plan.adopted))
    (hredraws : d.Redraws (plan.steps.map Step.change) L.ids
      fun e => plan.adopted.Stands source e L) :
    Replans d live fresh number [.child c.toPath index hole] [node] L.ids
      (Standing source after [.hole hole] [L]) := by
  have hedit := @planEdit_blocks d live fresh c.toPath index hole n m hold hnew number node
  rw [hplan] at hedit
  refine replans_single hedit (hredraws.mono (List.Subset.refl _) fun e he => ?_)
  obtain ⟨id, kids⟩ := L
  have hshown : showingOf source after hole = some (.block (plan.adopted.render source)) := by
    simp [showingOf, hafter, Value.showing]
  refine ⟨⟨?_, trivial⟩, fun n K hm => ?_⟩
  · simp [Fragment.Placed, hshown]
  · obtain ⟨rfl, rfl⟩ : n = plan.adopted ∧ K = .node id kids := by
      simpa [Fragment.allHeld, Fragment.held, hafter] using hm
    exact he

/-- Planning for a hole among the children of an element. If its slot has a scalar, its text
has to be found under its index. -/
theorem replans_hole (h : Standing source live.prop? [.hole hole] [L] d) (hnodup : L.ids.Nodup)
    (hfits : Fits source d live fresh after hole) (hnode : node < d.size)
    (hchild : (Fragment.hole hole).isBlock (live.showing? source) = true ∨
      d.childAt? node index = some L.id) :
    Replans d live fresh number [.child c.toPath index hole] [node] L.ids
      (Standing source after [.hole hole] [L]) := by
  cases hfits with
  | @scalar a b hold hnew hafter heq =>
    have hkind : d.kind? L.id = some (.text a.text) := by
      have hplaced := h.1.1
      obtain ⟨id, kids⟩ := L
      simpa [Fragment.Placed, showingOf, hold, Value.showing, Layout.id] using hplaced
    have hnot : (Fragment.hole hole).isBlock (live.showing? source) = false := by
      simp [Fragment.isBlock, showing?, hold, Value.showing, Showing.isBlock]
    exact replans_leaf hold hnew hafter heq hnode hkind (hchild.resolve_left (by simp [hnot]))
  | @block n m hold hnew _ hnest =>
    have hstands : n.Stands source d L :=
      h.2 n L (by simp [Fragment.allHeld, Fragment.held, hold])
    obtain ⟨plan, hplan, hafter, hredraws⟩ := hnest L hstands hnodup
    exact replans_nested hold hnew hplan hafter hredraws

/-- What the steps for an element's properties leave at its node. -/
def Dressed (source : Block → Fragment) (after : String → Option Value) (d : Document) (id : Nat)
    (tag : String) (props : PropList) (e : Document) : Prop :=
  (∃ attributes, props.rendered (showingOf source after) = some attributes ∧
    e.kind? id = some (.element tag attributes)) ∧ e.children id = d.children id

theorem replans_props {id : Nat} {tag : String} {props : PropList} {attributes : Bindings Scalar}
    (hnodup : (props.map Prod.fst).Nodup)
    (hattributes : props.rendered (live.showing? source) = some attributes)
    (hkind : d.kind? id = some (.element tag attributes))
    (hfits : ∀ slot ∈ props.filterMap fun p => p.2.hole?, Fits source d live fresh after slot) :
    Replans d live fresh number (props.edits c) ((props.filterMap fun p => p.2.hole?).map fun _ => id)
      [id] (Dressed source after d id tag props) := by
  obtain ⟨old, hold, rfl⟩ := Option.map_eq_some_iff.mp hattributes
  have hnodup' : ∀ {pairs : List (String × Scalar)} {slots : String → Option Showing},
      props.bound slots = some pairs → (pairs.map Prod.fst).Nodup := fun hpairs =>
    hnodup.sublist (PropList.bound_sublist hpairs)
  obtain ⟨new, plans, hnew, hplans, hrepaints⟩ := @replans_attrs source d live fresh after c id props
    number old hnodup hold hfits
  have hbase : (Bindings.writeAll props.fixed []).Sorted := Bindings.Sorted.nil.writeAll _
  have hlen : ((props.filterMap fun p => p.2.hole?).map fun _ => id).length =
      (props.edits c).length := by
    rw [List.length_map, ← PropList.map_hole_edits c, List.length_map]
  refine ⟨hlen, plans, hplans, fun e he => ?_⟩
  have hid := he id (List.mem_singleton_self _)
  obtain ⟨hredrawn, held', hk, hsorted, hget⟩ := hrepaints e tag _ (hid.1.trans hkind)
    (hbase.writeAll old) (Bindings.bears_writeAll _ (hnodup' hold))
  refine ⟨hredrawn, ⟨_, by rw [PropList.rendered, hnew]; rfl, ?_⟩,
    (hredrawn.children id).trans hid.2⟩
  rw [hk]
  congr 2
  refine hsorted.ext (hbase.writeAll new) fun slot => ?_
  rw [hget, Bindings.get?_writeAll _ _ (hnodup' hnew)]
  cases hslot : Bindings.get? new slot with
  | some value => rfl
  | none =>
    -- the old scalars have the same names as the new ones
    have hnone : Bindings.get? old slot = none := by
      rw [Bindings.get?_eq_none] at hslot ⊢
      rwa [PropList.names_bound hold hnew]
    rw [Bindings.get?_writeAll _ _ (hnodup' hold), hnone]

mutual
theorem replans_fragment : ∀ {f : Fragment} {L : Layout} {c : Cursor} {number : Nat},
    f.hole? = none → Standing source live.prop? [f] [L] d → L.ids.Nodup → f.Distinct →
    (∀ children ∈ f.families, Fragment.FindsTexts (live.showing? source) children ∧
      Fragment.FindsAll (live.showing? source) children) →
    (∀ hole ∈ f.holes, Fits source d live fresh after hole) →
    Replans d live fresh number (f.edits c) (f.nodes L) L.ids (Standing source after [f] [L])
  | .text value, .node id kids, c, number, _, h, _, _, _, _ => by
    refine ⟨rfl, ⟨[], [], 0, 0⟩, rfl, .nil _ fun e he => ⟨⟨?_, trivial⟩, ?_⟩⟩
    · have hkind : d.kind? id = some (.text value.text) := h.1.1
      exact (he id (by simp [Layout.ids])).1.trans hkind
    · simp [Fragment.allHeld, Fragment.held]
  | .hole _, _, _, _, hhole, _, _, _, _, _ => by simp [Fragment.hole?] at hhole
  | .element tag props children, .node id kids, c, number, _, h, hnodup, hdistinct, hfinds,
      hfits => by
    simp only [Fragment.holes, List.mem_append] at hfits
    rw [Fragment.families, List.forall_mem_cons] at hfinds
    simp only [Layout.ids, List.nodup_cons] at hnodup
    obtain ⟨⟨attributes, hattributes, hkind⟩, hchildren, hall⟩ := h.1.1
    have hstanding : Standing source live.prop? children kids d :=
      ⟨hall, fun n K hm => h.2 n K (by simpa [Fragment.allHeld, Fragment.held] using hm)⟩
    have hkids : ∀ (k : Nat) (name : String) (K : Layout), children[k]? = some (.hole name) →
        (Fragment.hole name).isBlock (live.showing? source) = false → kids[k]? = some K →
        d.childAt? id (0 + k) = some K.id := by
      intro k name K hname hblock hK
      have hlen : (kids.map Layout.id).length = children.length := by
        rw [List.length_map, hall.length]
      have hindex := Fragment.mem_scalarsAt.mpr ⟨name, hname, hblock⟩
      calc d.childAt? id (0 + k)
          = (Fragment.staying (live.showing? source) children (kids.map Layout.id))[k]? := by
            rw [Nat.zero_add, Document.childAt?, hchildren]
            rfl
        _ = (kids.map Layout.id)[k]? :=
            Fragment.staying_of_finds hfinds.1.1 hfinds.1.2 hindex hlen
        _ = some K.id := by rw [List.getElem?_map, hK, Option.map_some]
    have hprops := @replans_props source d live fresh after c number id tag props attributes
      hdistinct.1 hattributes hkind fun slot hm => hfits slot (.inl hm)
    have hrest := @replans_children children kids c (number + (props.edits c).length) 0 id hstanding
      hnodup.2 hdistinct.2 hfinds.2 (fun slot hm => hfits slot (.inr hm))
      (Document.lt_size_of_kind? hkind) hkids
    refine (hprops.append hrest ?_ ?_).mono (List.Subset.refl _) ?_
    · intro x hx
      rw [List.mem_singleton.mp hx]
      exact hnodup.1
    · rintro e f ⟨⟨attributes', hrendered, hk⟩, hc⟩ hs
      have hid := hs id (List.mem_singleton_self _)
      exact ⟨⟨attributes', hrendered, hid.1.trans hk⟩, hid.2.trans hc⟩
    · rintro e ⟨⟨hdressed, hc⟩, hplaced, hheld⟩
      refine ⟨⟨⟨hdressed, ?_, hplaced⟩, trivial⟩, fun n K hm => hheld n K ?_⟩
      · rw [hc, hchildren]
        refine Fragment.staying_congr fun f hf => Eq.symm ?_
        refine Fragment.isBlock_of_kinds fun slot hm => (hfits slot (.inr ?_)).kind
        exact Fragment.mem_allHoles.mpr ⟨f, hf, hm⟩
      · simpa [Fragment.allHeld, Fragment.held] using hm

theorem replans_children : ∀ {fs : List Fragment} {Ls : List Layout} {c : Cursor}
    {number index id : Nat}, Standing source live.prop? fs Ls d → (Layout.allIds Ls).Nodup →
    Fragment.AllDistinct fs →
    (∀ children ∈ Fragment.allFamilies fs, Fragment.FindsTexts (live.showing? source) children ∧
      Fragment.FindsAll (live.showing? source) children) →
    (∀ hole ∈ Fragment.allHoles fs, Fits source d live fresh after hole) → id < d.size →
    (∀ (k : Nat) (name : String) (K : Layout), fs[k]? = some (.hole name) →
      (Fragment.hole name).isBlock (live.showing? source) = false → Ls[k]? = some K →
      d.childAt? id (index + k) = some K.id) →
    Replans d live fresh number (Fragment.childEdits c index fs) (Fragment.childNodes id fs Ls)
      (Layout.allIds Ls) (Standing source after fs Ls)
  | [], [], c, number, index, id, _, _, _, _, _, _, _ =>
    ⟨rfl, ⟨[], [], 0, 0⟩, rfl, .nil _ fun e he => ⟨trivial, by simp [Fragment.allHeld]⟩⟩
  | [], _ :: _, _, _, _, _, h, _, _, _, _, _, _ => by simp [Standing, Fragment.AllPlaced] at h
  | _ :: _, [], _, _, _, _, h, _, _, _, _, _, _ => by simp [Standing, Fragment.AllPlaced] at h
  | f :: rest, L :: Ls, c, number, index, id, h, hnodup, hdistinct, hfinds, hfits, hid, hkids => by
    simp only [Fragment.allHoles, List.mem_append] at hfits
    simp only [Layout.allIds, List.nodup_append] at hnodup
    rw [Fragment.allFamilies, List.forall_mem_append] at hfinds
    have hothers : ∀ (k : Nat) (name : String) (K : Layout), rest[k]? = some (.hole name) →
        (Fragment.hole name).isBlock (live.showing? source) = false → Ls[k]? = some K →
        d.childAt? id (index + 1 + k) = some K.id := by
      intro k name K hname hblock hK
      rw [Nat.add_right_comm]
      exact hkids (k + 1) name K (by simpa using hname) hblock (by simpa using hK)
    have hrest := fun {number} => @replans_children rest Ls c number (index + 1) id h.tail hnodup.2.1
      hdistinct.2 hfinds.2 (fun slot hm => hfits slot (.inr hm)) hid hothers
    have hboth : ∀ {es : List Edit} {ns : List Nat},
        Replans d live fresh number es ns L.ids (Standing source after [f] [L]) →
        Replans d live fresh number (es ++ Fragment.childEdits c (index + 1) rest)
          (ns ++ Fragment.childNodes id rest Ls) (Layout.allIds (L :: Ls))
          (Standing source after (f :: rest) (L :: Ls)) := by
      intro es ns hfirst
      refine (hfirst.append hrest ?_ ?_).mono (List.Subset.refl _) fun e he => he.1.cons he.2
      · exact fun x hx hx' => hnodup.2.2 x hx x hx' rfl
      · exact fun e f he hs => he.congr (by simpa [Layout.allIds] using hs)
    cases hf : f.hole? with
    | none =>
      have hfirst := @replans_fragment f L (c.down index) number hf h.head hnodup.1 hdistinct.1
        hfinds.1 fun slot hm => hfits slot (.inl hm)
      simpa [Fragment.childEdits, Fragment.childNodes, hf] using hboth hfirst
    | some name =>
      obtain rfl : f = .hole name := by
        cases f <;> simp_all [Fragment.hole?]
      have hchild : (Fragment.hole name).isBlock (live.showing? source) = true ∨
          d.childAt? id index = some L.id := by
        cases hblock : (Fragment.hole name).isBlock (live.showing? source) with
        | true => exact .inl rfl
        | false => exact .inr (hkids 0 name L rfl hblock rfl)
      have hfirst := @replans_hole source d live fresh after name L c number index id h.head
        hnodup.1 (hfits name (.inl (by simp [Fragment.holes]))) hid hchild
      simpa [Fragment.childEdits, Fragment.childNodes, hf] using hboth hfirst
end

/-- The block of an instance has no element with two properties of one name, and none with a
nested instance next to another hole. -/
structure Neat (source : Block → Fragment) (i : Instance) : Prop where
  distinct : (source i.block).Distinct
  apart : (source i.block).Apart (i.showing? source)

theorem Neat.steady (h : live.Neat source) : live.Steady source := by
  intro children hm index hindex f hf
  obtain ⟨g, hg, hleaf⟩ := Fragment.found_of_apart (h.apart.of_mem_families hm) hindex
  obtain rfl := Option.some.inj (hg.symm.trans hf)
  exact hleaf

theorem Neat.roomy (h : live.Neat source) : live.Roomy source := by
  intro children hm index hindex
  obtain ⟨g, hg, -⟩ := Fragment.found_of_apart (h.apart.of_mem_families hm) hindex
  exact (List.getElem?_eq_some_iff.mp hg).1

/-- The block of an instance has no element with two properties of one name, and in each element
a text is found for each scalar. -/
structure Regular (source : Block → Fragment) (i : Instance) : Prop where
  distinct : (source i.block).Distinct
  steady : i.Steady source
  roomy : i.Roomy source

theorem Neat.regular (h : live.Neat source) : live.Regular source :=
  ⟨h.distinct, h.steady, h.roomy⟩

theorem Kin.regular {i j : Instance} (h : i.Kin j) (hmade : i.MadeFrom source)
    (hi : i.Throughout (Regular source)) : j.Throughout (Regular source) := by
  have hdistinct : j.Throughout fun j => (source j.block).Distinct :=
    Along.throughout h (fun _ _ hab => hab) (fun _ _ hab ha => hab.block ▸ ha.distinct) hi
  have hsteady := h.steady hmade (hi.mono fun _ hj => hj.steady)
  have hroomy := h.roomy hmade (hi.mono fun _ hj => hj.roomy)
  exact ((hdistinct.and hsteady).and hroomy).mono fun _ hj => ⟨hj.1.1, hj.1.2, hj.2⟩

/-- The value of a slot after a patch. -/
def valueAfter (d : Document) (live fresh : Instance) (slot : String) : Option Value :=
  match live.prop? slot, fresh.prop? slot with
  | some (.block n), some (.block m) =>
    match n.plan d m with
    | .ok plan => some (.block plan.adopted)
    | .error _ => some (.block m)
  | _, value => value

theorem Adopts.valueAfter {a : Instance} (h : Adopts d live fresh a) (hlive : live.Whole)
    {e : Edit} (he : e ∈ live.block.edits) :
    a.prop? e.hole = live.valueAfter d fresh e.hole := by
  obtain ⟨value, hv⟩ := hlive.valued e he
  cases value with
  | scalar old =>
    obtain ⟨new, hnew, hnew'⟩ := h.scalars e he old hv
    rw [hnew', Instance.valueAfter, hv, hnew]
  | block n =>
    obtain ⟨m, plan, hm, hplan, ha⟩ := h.blocks e he n hv
    rw [ha, Instance.valueAfter, hv, hm]
    simp only [hplan]

/-- All slots fit if each nested instance can be patched wherever it stands. -/
theorem fits_valueAfter (hlive : live.Whole) (hmade : live.MadeFrom source)
    (halike : live.Alike fresh) (hdiscerns : live.Discerns fresh)
    (hnest : ∀ e ∈ live.block.edits, ∀ n m, live.prop? e.hole = some (.block n) →
      fresh.prop? e.hole = some (.block m) → ∀ K, n.Stands source d K → K.ids.Nodup →
      ∃ plan, n.plan d m = .ok plan ∧
        d.Redraws (plan.steps.map Step.change) K.ids fun e => plan.adopted.Stands source e K) :
    ∀ hole ∈ (source live.block).holes,
      Fits source d live fresh (live.valueAfter d fresh) hole := by
  intro hole hm
  obtain ⟨e, he, rfl⟩ := hmade.mem_holes.mp hm
  obtain ⟨value, hv⟩ := hlive.valued e he
  cases value with
  | scalar a =>
    obtain ⟨b, hnew⟩ := halike.scalar he hv
    exact .scalar hv hnew (by rw [valueAfter, hv, hnew]) fun heq =>
      Scalar.eq_of_equal heq fun hopposed => hdiscerns e he ⟨a, b, hv, hnew, hopposed⟩
  | block n =>
    obtain ⟨m, hnew⟩ := halike.nested he hv
    refine .block hv hnew ?_ fun K hK hnodup => ?_
    · rw [valueAfter, hv, hnew]
      cases hplan : n.plan d m with
      | error failure => exact ⟨m, by simp only [hplan]⟩
      | ok plan => exact ⟨plan.adopted, by simp only [hplan]⟩
    · obtain ⟨plan, hplan, hredraws⟩ := hnest e he n m hv hnew K hK hnodup
      refine ⟨plan, hplan, ?_, hredraws⟩
      rw [valueAfter, hv, hnew]
      simp only [hplan]

/-- **A patch by an instance that is alike is planned and can be carried out**, and the
patched instance stands where the live one stood. -/
theorem revises (hlive : live.Settled d.size) (hmade : live.MadeFrom source)
    (hregular : live.Throughout (Regular source)) :
    ∀ {fresh : Instance} {L : Layout}, live.Kin fresh → fresh.Everywhere Ordered →
      live.Along Discerns fresh → live.Stands source d L → L.ids.Nodup →
      ∃ plan, live.plan d fresh = .ok plan ∧
        d.Redraws (plan.steps.map Step.change) L.ids fun e => plan.adopted.Stands source e L := by
  induction live using Instance.induction with
  | _ live ih =>
    intro fresh L hkin hordered hdiscerns hstands hnodup
    have hwhole := hlive.here.1
    have hfits := fits_valueAfter hwhole hmade hkin.here hdiscerns.here
      fun e he n m hn hm K hK hKnodup => ih e.hole n hn (hlive.nested ⟨e, he, hn⟩)
        (hmade.nested ⟨e, he, hn⟩) (hregular.nested ⟨e, he, hn⟩) (hkin.nested he hn hm)
        (hordered.nested (Bindings.mem_of_get? hm)) (hdiscerns.nested he hn hm) hK hKnodup
    obtain ⟨root, resolved, hstanding⟩ := stands_iff.mp hstands
    obtain ⟨-, plans, hplans, hredraws⟩ := @replans_fragment source d live fresh
      (live.valueAfter d fresh) (source live.block) L .root 0
      (Fragment.hole?_eq_none hmade.here.skeleton) hstanding hnodup
      hregular.here.distinct
      (fun children hm => ⟨hregular.here.steady children hm, hregular.here.roomy children hm⟩) hfits
    rw [← hmade.here.edits, ← resolved] at hplans
    have hsame : live.block.sameAs fresh.block = true := by
      simp [Block.sameAs, hkin.here.block]
    have hplan := plan_of_planEdits hsame hwhole.mounted hplans
    have hadopts := adopts_of_plan hwhole hlive.here.2 hordered.here hplan
    refine ⟨_, hplan, hredraws.mono (List.Subset.refl _) fun e he => ?_⟩
    refine stands_iff.mpr ⟨root, resolved, he.congr_values fun hole hm => ?_⟩
    obtain ⟨e, he, rfl⟩ := hmade.mem_holes.mp hm
    exact (hadopts.valueAfter hwhole he).symm

end Instance

end Stencil
