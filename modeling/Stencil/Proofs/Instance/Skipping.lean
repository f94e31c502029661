import Stencil.Document.Markup
import Stencil.Proofs.Instance.Merging
import Stencil.Proofs.Instance.Patching
import Stencil.Proofs.Instance.Sites
/- What the edits show that a patch skips. A scalar that compares equal to the one it takes the
   place of is the same scalar, apart from the two zeros, which have different texts. Where an
   instance stands each of its edits shows its scalar (`Stands.shown?`), so what a patch skips is
   what a mount of the fresh instance would show, unless the edit goes from one zero to the other
   (`skipped_current`). Then it stays as it was (`labelled_stale`). -/
namespace Stencil

namespace Scalar

variable {a b : Scalar}

theorem text_ne_of_opposed (h : a.Opposed b) : a.text ≠ b.text := by
  rcases h with ⟨rfl, rfl⟩ | ⟨rfl, rfl⟩ <;> decide

theorem binding_ne_of_opposed (h : a.Opposed b) (name : String) :
    Markup.binding name a ≠ Markup.binding name b := by
  -- the sign is one more character
  have hlength : (Markup.binding name (.float .zero)).length ≠
      (Markup.binding name (.float .negativeZero)).length := by
    have hzero : (Markup.escape true (Scalar.float .zero).text).length = 1 := by decide
    have hnegative : (Markup.escape true (Scalar.float .negativeZero).text).length = 2 := by decide
    simp only [Markup.binding, String.length_append, hzero, hnegative]
    omega
  rcases h with ⟨rfl, rfl⟩ | ⟨rfl, rfl⟩
  · exact fun heq => hlength (congrArg String.length heq)
  · exact fun heq => hlength (congrArg String.length heq.symm)

/-- Scalars that compare equal have one text, apart from the zeros. -/
theorem text_eq_iff (h : a.equal b = true) : a.text = b.text ↔ ¬a.Opposed b :=
  ⟨fun htext hopposed => text_ne_of_opposed hopposed htext,
    fun hno => congrArg text (eq_of_equal h hno)⟩

/-- Attributes that hold scalars that compare equal are written alike, apart from the zeros. -/
theorem binding_eq_iff (h : a.equal b = true) (name : String) :
    Markup.binding name a = Markup.binding name b ↔ ¬a.Opposed b :=
  ⟨fun hbinding hopposed => binding_ne_of_opposed hopposed name hbinding,
    fun hno => congrArg (Markup.binding name) (eq_of_equal h hno)⟩

end Scalar

/-- What an edit makes a document show of a scalar: an attribute as it is written, unless the scalar
is null, or a text. -/
def Edit.shown? : Edit → Scalar → Option String
  | .attr _ name _, value => (Bindings.present value).map (Markup.binding name)
  | .child _ _ _, value => some value.text

/-- What a document shows where an edit is made at a node. -/
def Document.shown? (d : Document) (node : NodeId) : Edit → Option String
  | .attr _ name _ => (d.attribute? node name).map (Markup.binding name)
  | .child _ index _ => (d.childAt? node index).bind d.text?

/-- What an edit shows of scalars that compare equal is the same, apart from the zeros. -/
theorem Edit.shown?_eq_iff (e : Edit) {a b : Scalar} (h : a.equal b = true) :
    e.shown? a = e.shown? b ↔ ¬a.Opposed b := by
  constructor
  · intro hshown hopposed
    cases e with
    | attr path name hole =>
      have hpresent : ∀ x : Binary64, Bindings.present (.float x) = some (.float x) := fun _ => rfl
      refine Scalar.binding_ne_of_opposed hopposed name ?_
      rcases hopposed with ⟨rfl, rfl⟩ | ⟨rfl, rfl⟩ <;> simpa [shown?, hpresent] using hshown
    | child path index hole => exact Scalar.text_ne_of_opposed hopposed (Option.some.inj hshown)
  · intro hno
    rw [Scalar.eq_of_equal h hno]

namespace Fragment

variable {d : Document} {slots : String → Option Showing} {node : Nat} {path : Path}
  {name hole : String} {value : Scalar}

theorem PropList.mem_of_mem_edits {c : Cursor} {props : PropList}
    (h : Edit.attr path name hole ∈ props.edits c) : (name, .hole hole) ∈ props := by
  induction props with
  | nil => simp [PropList.edits] at h
  | cons p rest ih =>
    obtain ⟨key, v⟩ := p
    cases v with
    | fixed v => exact List.mem_cons_of_mem _ (ih h)
    | hole slot =>
      simp only [PropList.edits, List.mem_cons, Edit.attr.injEq] at h
      rcases h with ⟨-, rfl, rfl⟩ | h
      · exact List.mem_cons_self
      · exact List.mem_cons_of_mem _ (ih h)

theorem PropList.get?_bound {props : PropList} {pairs : List (String × Scalar)}
    (h : props.bound slots = some pairs) (hnodup : (props.map Prod.fst).Nodup)
    (hm : (name, .hole hole) ∈ props) (hv : slots hole = some (.scalar value)) :
    Bindings.get? pairs name = some value := by
  induction props generalizing pairs with
  | nil => simp at hm
  | cons p rest ih =>
    obtain ⟨key, v⟩ := p
    rw [List.map_cons, List.nodup_cons] at hnodup
    cases v with
    | fixed v => exact ih h hnodup.2 (by simpa using hm)
    | hole slot =>
      simp only [PropList.bound] at h
      split at h
      · rename_i v hslot
        obtain ⟨pairs', hbound, rfl⟩ := Option.map_eq_some_iff.mp h
        rw [Bindings.get?_cons]
        rcases List.mem_cons.mp hm with heq | hm
        · obtain ⟨rfl, hhole⟩ := Prod.mk.inj heq
          obtain rfl := PropValue.hole.inj hhole
          obtain rfl : v = value := by simpa [hslot] using hv
          rw [if_pos rfl]
        · have hmem : name ∈ rest.map Prod.fst := List.mem_map.mpr ⟨_, hm, rfl⟩
          have hne : name ≠ key := fun heq => hnodup.1 (heq ▸ hmem)
          rw [if_neg hne]
          exact ih hbound hnodup.2 hm
      · cases h

mutual
/-- An attribute that an edit writes holds its scalar. -/
theorem Placed.attribute? {c : Cursor} (hv : slots hole = some (.scalar value)) :
    ∀ {f : Fragment} {L : Layout}, f.Placed d slots L → f.Distinct →
    (Edit.attr path name hole, node) ∈ (f.edits c).zip (f.nodes L) →
    d.attribute? node name = Bindings.present value
  | .text _, _, _, _, hm => by simp [edits] at hm
  | .hole _, _, _, _, hm => by simp [edits] at hm
  | .element tag props children, .node id kids, h, hdistinct, hm => by
    have hprops := congrArg List.length (PropList.map_hole_edits c props)
    rw [List.length_map] at hprops
    rw [edits, nodes, List.zip_append (by rw [List.length_map, hprops])] at hm
    rcases List.mem_append.mp hm with hm | hm
    · obtain ⟨hedit, hnode⟩ := List.of_mem_zip hm
      obtain ⟨_, -, rfl⟩ := List.mem_map.mp hnode
      obtain ⟨⟨attributes, hattributes, hkind⟩, -, -⟩ := h
      obtain ⟨pairs, hpairs, rfl⟩ := Option.map_eq_some_iff.mp hattributes
      have hnodup := hdistinct.1.sublist (PropList.bound_sublist hpairs)
      have hget := PropList.get?_bound hpairs hdistinct.1 (PropList.mem_of_mem_edits hedit) hv
      rw [Document.attribute?, Document.attributes, hkind]
      simp only [Bindings.get?_writeAll _ _ hnodup, hget]
    · exact AllPlaced.attribute? hv h.2.2 hdistinct.2 hm

theorem AllPlaced.attribute? {c : Cursor} {start id : Nat}
    (hv : slots hole = some (.scalar value)) : ∀ {fs : List Fragment} {Ls : List Layout},
    AllPlaced d slots fs Ls → AllDistinct fs →
    (Edit.attr path name hole, node) ∈ (childEdits c start fs).zip (childNodes id fs Ls) →
    d.attribute? node name = Bindings.present value
  | [], _, _, _, hm => by simp [childEdits] at hm
  | _ :: _, [], h, _, _ => by simp [AllPlaced] at h
  | f :: rest, L :: Ls, h, hdistinct, hm => by
    cases hf : f.hole?.isSome with
    | true =>
      obtain ⟨slot, rfl⟩ : ∃ slot, f = .hole slot := by cases f <;> simp_all [hole?]
      simp only [childEdits, childNodes, hole?, Option.isSome_some, if_true, List.singleton_append,
        List.zip_cons_cons, List.mem_cons, Prod.mk.injEq, reduceCtorEq, false_and, false_or] at hm
      exact AllPlaced.attribute? hv h.2 hdistinct.2 hm
    | false =>
      have hnone : f.hole? = none := by simpa using hf
      simp only [childEdits, childNodes, hnone, Option.isSome_none, Bool.false_eq_true, if_false] at hm
      rw [List.zip_append (Placed.length_nodes _ h.1)] at hm
      rcases List.mem_append.mp hm with hm | hm
      · exact Placed.attribute? hv h.1 hdistinct.1 hm
      · exact AllPlaced.attribute? hv h.2 hdistinct.2 hm
end

/-- Where texts are found for all scalars of a site, the text of a scalar is found at its index. -/
theorem Site.Built.text? {site : Site} (h : site.Built d slots)
    (htexts : FindsTexts slots site.children) (hall : FindsAll slots site.children) {index : Nat}
    (hname : site.children[index]? = some (.hole hole)) (hv : slots hole = some (.scalar value)) :
    (d.childAt? site.node index).bind d.text? = some value.text := by
  have hindex : index ∈ scalarsAt slots site.children :=
    mem_scalarsAt.mpr ⟨hole, hname, by simp [isBlock, hv, Showing.isBlock]⟩
  have hlen := h.placed.length
  obtain ⟨K, hK⟩ : ∃ K, site.kids[index]? = some K :=
    ⟨_, List.getElem?_eq_getElem (hlen ▸ (List.getElem?_eq_some_iff.mp hname).1)⟩
  have hchild : d.childAt? site.node index = some K.id := by
    rw [Document.childAt?, h.children,
      staying_of_finds htexts hall hindex (by rw [List.length_map, hlen]), List.getElem?_map, hK,
      Option.map_some]
  have hplaced : (Fragment.hole hole).Placed d slots K := by
    refine h.placed.of_mem_zip (List.mem_of_getElem? (i := index) ?_)
    rw [List.getElem?_zip_eq_some]
    exact ⟨hname, hK⟩
  obtain ⟨id, kids⟩ := K
  simp only [Placed, hv] at hplaced
  rw [hchild, Option.bind_some, Document.text?, Layout.id, hplaced]

end Fragment

namespace Instance

variable {source : Block → Fragment} {d d' : Document} {i live fresh again : Instance}
  {L L' : Layout} {e : Edit}

/-- Where an instance stands, the document shows what each of its edits makes of its scalar. -/
theorem Stands.shown? (h : i.Stands source d L) (hmade : i.block.IsOf (source i.block))
    (hregular : i.Regular source) {node : Nat} {value : Scalar}
    (he : (e, node) ∈ i.block.edits.zip i.resolved) (hv : i.prop? e.hole = some (.scalar value)) :
    d.shown? node e = e.shown? value := by
  cases h with
  | intro _ resolved placed _ =>
    rw [hmade.edits, resolved] at he
    have hshowing : i.showing? source e.hole = some (.scalar value) := by
      simp [showing?, hv, Value.showing]
    cases e with
    | attr path name hole =>
      rw [Document.shown?, placed.attribute? hshowing hregular.distinct he, Edit.shown?]
    | child path index hole =>
      obtain ⟨site, hsite, rfl, hname⟩ := Fragment.site_of_mem_edits placed he
      obtain ⟨hbuilt, hfamily⟩ := placed.built site hsite
      exact hbuilt.text? (hregular.steady _ hfamily) (hregular.roomy _ hfamily) hname hshowing

/-- Each edit of an instance that stands has its node. -/
theorem Stands.node (h : i.Stands source d L) (hmade : i.block.IsOf (source i.block)) {k : Nat}
    (he : i.block.edits[k]? = some e) :
    ∃ x, i.resolved[k]? = some x ∧ (e, x) ∈ i.block.edits.zip i.resolved := by
  cases h with
  | intro _ resolved placed _ =>
    have hlen : i.block.edits.length = i.resolved.length := by
      rw [hmade.edits, resolved, placed.length_nodes]
    have hlt := (List.getElem?_eq_some_iff.mp he).1
    have hx := List.getElem?_eq_getElem (hlen ▸ hlt)
    exact ⟨_, hx, List.mem_of_getElem? (List.getElem?_zip_eq_some.mpr ⟨he, hx⟩)⟩

/-- The edits that a patch of the live instance by the fresh one skips show in the first document
what they show in the second, where the fresh one is mounted anew, unless they go from one zero to
the other. -/
def Current (d d' : Document) (live fresh again : Instance) : Prop :=
  ∀ (k : Nat) (e : Edit), live.block.edits[k]? = some e → live.unchanged fresh e = true →
    ∃ x y, live.resolved[k]? = some x ∧ again.resolved[k]? = some y ∧
      (d.shown? x e = d'.shown? y e ↔ ¬live.Opposes fresh e)

theorem scalars_of_unchanged (h : live.unchanged fresh e = true) :
    ∃ a b, live.prop? e.hole = some (.scalar a) ∧ fresh.prop? e.hole = some (.scalar b) ∧
      a.equal b = true := by
  rw [unchanged] at h
  split at h
  · rename_i a b ha hb
    exact ⟨a, b, ha, hb, h⟩
  · cases h

theorem Stands.current (h : live.Stands source d L) (h' : again.Stands source d' L')
    (hmade : live.MadeFrom source) (hregular : live.Throughout (Regular source))
    (hkin : live.Kin fresh) (hrepeats : fresh.Along Repeats again) :
    Current d d' live fresh again := by
  have hlast := hkin.trans hrepeats.kin
  intro k e he hskipped
  obtain ⟨a, b, ha, hb, hequal⟩ := scalars_of_unchanged hskipped
  have hblock : again.block = live.block := hlast.here.block
  obtain ⟨x, hx, hmem⟩ := h.node hmade.here he
  obtain ⟨y, hy, hmem'⟩ := h'.node (hlast.madeFrom hmade).here (hblock ▸ he)
  refine ⟨x, y, hx, hy, ?_⟩
  have hedit : e ∈ fresh.block.edits := hkin.here.block ▸ List.mem_of_getElem? he
  have hshown := h.shown? hmade.here hregular.here hmem ha
  have hshown' := h'.shown? (hlast.madeFrom hmade).here (hlast.regular hmade hregular).here hmem'
    ((hrepeats.here.scalar_iff hedit).mp hb)
  rw [hshown, hshown', e.shown?_eq_iff hequal]
  refine not_congr ⟨fun hopposed => ⟨a, b, ha, hb, hopposed⟩, fun ⟨a', b', ha', hb', hopposed⟩ => ?_⟩
  obtain rfl : a' = a := by simpa [ha'] using ha
  obtain rfl : b' = b := by simpa [hb'] using hb
  exact hopposed

theorem Stands.threefold_current (h : live.Stands source d L) (hmade : live.MadeFrom source)
    (hregular : live.Throughout (Regular source)) (hkin : live.Kin fresh)
    (hrepeats : fresh.Along Repeats again) (h' : again.Stands source d' L') :
    live.Threefold (Current d d') fresh again := by
  induction hkin generalizing L again L' with
  | @intro live fresh halike hnested ih =>
    have hkin : live.Kin fresh := .intro halike hnested
    have hlast := hkin.trans hrepeats.kin
    refine .intro (h.current h' hmade hregular hkin hrepeats) fun e he n m l hn hm hl => ?_
    obtain ⟨K, hK, -⟩ := h.uses hmade.here ⟨e, he, hn⟩
    obtain ⟨K', hK', -⟩ := h'.uses (hlast.madeFrom hmade).here ⟨e, hlast.here.block ▸ he, hl⟩
    exact ih e he n m hn hm hK (hmade.nested ⟨e, he, hn⟩) (hregular.nested ⟨e, he, hn⟩)
      (hrepeats.nested (halike.block ▸ he) hm hl) hK'

/-- **What a patch skips is current.** Scalars that compare equal have one text, and are written
alike in an attribute, unless they are the two zeros. So after a mount and patches of which none
goes from one zero to the other, each edit that the next patch skips, at any depth, shows what it
shows where the fresh instance is mounted anew, unless it goes from one zero to the other: then it
does not. -/
theorem skipped_current {p : Instance} {s : Stage} {target root : Nat} {qs : List Instance}
    (hs : s.document.Reachable) (ht : s.document.issued target) (hmade : p.MadeFrom source)
    (hregular : p.Throughout (Regular source)) (hm : (p.mount target s).outcome = .ok root)
    (hqs : ∀ q ∈ qs, p.Suited q) (hchain : (p :: qs).IsChain (Along Discerns))
    (hfresh : p.Kin fresh) :
    (∀ a b : Scalar, a.equal b = true → (a.text = b.text ↔ ¬a.Opposed b) ∧
      ∀ name, Markup.binding name a = Markup.binding name b ↔ ¬a.Opposed b) ∧
    ∃ live s', (p.mount target s).mounted.patchAll (p.mount target s).stage qs =
        some (live, s') ∧
      (∀ stats, (live.patch fresh s').outcome = .ok stats →
        stats.skipped = live.block.edits.countP (live.unchanged fresh)) ∧
      ∀ (target' : Nat) (s'' : Stage), s''.document.Reachable → s''.document.issued target' →
        let m := fresh.anew.mount target' s''
        (∃ root', m.outcome = .ok root') ∧
          live.Threefold (Current s'.document m.stage.document) fresh m.mounted := by
  refine ⟨fun a b hequal => ⟨Scalar.text_eq_iff hequal, Scalar.binding_eq_iff hequal⟩, ?_⟩
  obtain ⟨rfl, hfault, L, hL⟩ := lands_of_ok hmade hs.closed (Document.issued_iff.mp ht) hm
  obtain ⟨live, s', hall, hstays, -, -, -⟩ := (hL.stays hs.closed hm).patchAll hmade hregular
    hL.nodup (mount_repeats p target s) hqs hchain
  refine ⟨live, s', hall, fun stats hok => ?_, fun target' s'' hs'' ht'' => ?_⟩
  · obtain ⟨-, -, -, -, -, hskipped, -⟩ := patch_owes hstays.closed (fun _ => hstays.settled) hok
    exact hskipped
  · obtain ⟨L', hL'⟩ := anew_lands hmade hfault hfresh hs''.closed (Document.issued_iff.mp ht'')
    have hrepeats := (anew_repeats fresh).repeats_trans (mount_repeats fresh.anew target' s'')
    exact ⟨⟨_, hL'.outcome⟩, hstays.stands.threefold_current (hstays.kin.madeFrom hmade)
      (hstays.kin.regular hmade hregular) (hstays.kin.symm.trans hfresh) hrepeats hL'.stands⟩

/-- A card whose tip goes from null to zero, and then stays. -/
theorem skipped_current_card :
    let before := labelled .null (.str "new") .null .null
    let next := labelled .null (.str "new") (.str "sold") (.float .zero)
    let m := before.mount 0 (.of .blank)
    let n := next.anew.mount 0 (.of .blank)
    m.outcome = .ok 1 ∧ ∃ live s', m.mounted.patchAll m.stage [next] = some (live, s') ∧
      live.Threefold (Current s'.document n.stage.document) next n.mounted := by
  intro before next m n
  have hregular : before.Throughout (Regular Sample.source) :=
    (labelled_neat ..).mono fun _ => Neat.regular
  have hqs : ∀ q ∈ [next], before.Suited q := by
    simpa using ⟨labelled_kin .., labelled_ordered ..⟩
  have hchain : [before, next].IsChain (Along Discerns) :=
    .cons_cons ((labelled_kin ..).discerns (labelled_exact (by simp)) (labelled_exact (by decide)))
      (.singleton _)
  have hm : m.outcome = .ok 1 := rfl
  obtain ⟨-, live, s', hall, -, hcurrent⟩ := @skipped_current Sample.source next before
    (.of .blank) 0 1 [next] .refl rfl (Sample.cardOf_madeFrom ..) hregular hm hqs hchain (labelled_kin ..)
  exact ⟨hm, live, s', hall, (hcurrent 0 (.of .blank) .refl rfl).2⟩

/-- A card whose tip and word go from zero to the negative zero. The patch skips them, and the card
shows other texts than the same card mounted anew. -/
theorem labelled_stale :
    let next := labelled .null (.float .negativeZero) .null (.float .negativeZero)
    let m := (labelled .null (.float .zero) .null (.float .zero)).mount 0 (.of .blank)
    let q := m.mounted.patch next m.stage
    let n := next.mount 0 (.of .blank)
    (Scalar.float .zero).equal (.float .negativeZero) = true ∧ m.outcome = .ok 1 ∧
      q.outcome = .ok ⟨3, 1, 2⟩ ∧ n.outcome = .ok 1 ∧
      q.stage.document.innerMarkup? 0 = some "<p title=\"0\"><b>0</b></p>" ∧
      n.stage.document.innerMarkup? 0 = some "<p title=\"-0\"><b>-0</b></p>" :=
  ⟨rfl, rfl, rfl, rfl, rfl, rfl⟩

end Instance

end Stencil
