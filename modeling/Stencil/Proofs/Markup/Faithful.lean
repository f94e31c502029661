import Stencil.Proofs.Document.Walk
import Stencil.Proofs.Markup.NormalForm
import Stencil.Proofs.Document.Moving
/- The markup of a document is faithful: two nodes have the same markup if and only if what is
   seen below them has the same normal form (`markup_eq_iff`). Names are assumed to be plain;
   texts and values are arbitrary, since they are escaped. That the markup has the attributes in
   the order of the normal form needs that a document keeps them so (`Evolves.ordered`). -/
namespace Stencil.Document

/-- The normal form of the tree below a node, unless the node is its own ancestor. -/
def normal? (d : Document) (id : NodeId) : Option (List Normal) :=
  (d.tree? id).map Tree.normal

/-- The condition holds of all elements that are seen from a node. -/
def SeenAll (d : Document) (x : NodeId) (P : String → Bindings Scalar → Prop) : Prop :=
  ∀ y, d.Seen x y → ∀ tag attributes, d.kind? y = some (.element tag attributes) → P tag attributes

/-- All elements have their attributes in the order of the names. -/
def Ordered (d : Document) : Prop :=
  ∀ x tag attributes, d.kind? x = some (.element tag attributes) → attributes.Sorted

section Ordered

variable {d : Document}

theorem ordered_blank : blank.Ordered := by
  intro x tag attributes h
  rcases Nat.eq_zero_or_pos x with rfl | hx
  · obtain ⟨-, rfl⟩ := NodeKind.element.inj (Option.some.inj h)
    exact Bindings.Sorted.nil
  · exact absurd (lt_size_of_kind? h) (Nat.not_lt.mpr hx)

theorem Ordered.createElement (h : d.Ordered) (tag : String) : (d.createElement tag).Ordered := by
  intro x tag' attributes hk
  rw [kind?_createElement] at hk
  split at hk
  · obtain ⟨-, rfl⟩ := NodeKind.element.inj (Option.some.inj hk)
    exact Bindings.Sorted.nil
  · exact h x tag' attributes hk

theorem Ordered.createText (h : d.Ordered) (content : String) : (d.createText content).Ordered := by
  intro x tag attributes hk
  rw [kind?_createText] at hk
  split at hk
  · cases Option.some.inj hk
  · exact h x tag attributes hk

theorem Ordered.setAttribute (h : d.Ordered) (node : NodeId) (name : String) (value : Scalar) :
    (d.setAttribute node name value).Ordered := by
  intro x tag attributes hk
  rw [kind?_setAttribute] at hk
  split at hk
  · obtain ⟨kind, hkind, hwrite⟩ := Option.map_eq_some_iff.mp hk
    cases kind with
    | text content => cases hwrite
    | element tag' held =>
      obtain ⟨-, rfl⟩ := NodeKind.element.inj hwrite
      exact (h x tag' held hkind).write name value
  · exact h x tag attributes hk

theorem Ordered.setText (h : d.Ordered) (node : NodeId) (content : String) :
    (d.setText node content).Ordered := by
  intro x tag attributes hk
  cases htext : d.isText node with
  | false =>
    rw [kind?_setText_of_element htext] at hk
    split at hk
    · cases Option.some.inj hk
    · exact h x tag attributes hk
  | true =>
    rw [Document.setText, if_pos htext, kind?_count, kind?_writeText] at hk
    split at hk
    · obtain ⟨kind, hkind, hwrite⟩ := Option.map_eq_some_iff.mp hk
      cases kind with
      | text _ => cases hwrite
      | element tag' held => exact h x tag attributes (hwrite ▸ hkind)
    · exact h x tag attributes hk

/-- A change leaves the attributes of all elements in order. -/
theorem Ordered.apply (h : d.Ordered) : ∀ c : Change, (d.apply c).Ordered
  | .createElement tag _ => h.createElement tag
  | .createText content _ => h.createText content
  | .setAttribute node name value => h.setAttribute node name value
  | .appendChild parent child => fun x tag attributes hk =>
    h x tag attributes (by simpa [Document.apply] using hk)
  | .insertChild parent index child => fun x tag attributes hk =>
    h x tag attributes (by simpa [Document.apply] using hk)
  | .clearChildren node => fun x tag attributes hk =>
    h x tag attributes (by simpa [Document.apply] using hk)
  | .setText node content => h.setText node content

theorem Evolves.ordered {e : Document} (h : d.Evolves e) (hd : d.Ordered) : e.Ordered := by
  induction h with
  | refl => exact hd
  | step _ _ ih => exact ih.apply _

theorem Reachable.ordered (h : d.Reachable) : d.Ordered :=
  Evolves.ordered h ordered_blank

end Ordered

mutual
/-- A condition on the elements of a tree that is shown is one on those of the document. -/
theorem Shows.all_iff {d : Document} {P : String → Bindings Scalar → Prop} : ∀ {t : Tree},
    d.Shows t → (t.All P ↔ ∀ x ∈ t.ids, ∀ tag attributes,
      d.kind? x = some (.element tag attributes) → P tag attributes)
  | .text id content, h => by
    refine ⟨fun _ x hx tag attributes hk => ?_, fun _ => trivial⟩
    obtain rfl := List.mem_singleton.mp hx
    cases Option.some.inj (hk.symm.trans h)
  | .element id tag attributes children, ⟨hkind, _, hall⟩ => by
    rw [Tree.All, ShowsAll.all_iff hall, Tree.ids, List.forall_mem_cons]
    refine and_congr_left fun _ => ⟨fun h tag' attributes' hk => ?_, fun h => h _ _ hkind⟩
    obtain ⟨rfl, rfl⟩ := NodeKind.element.inj (Option.some.inj (hkind.symm.trans hk))
    exact h

theorem ShowsAll.all_iff {d : Document} {P : String → Bindings Scalar → Prop} : ∀ {ts : List Tree},
    d.ShowsAll ts → (Tree.AllOf P ts ↔ ∀ x ∈ Tree.allIds ts, ∀ tag attributes,
      d.kind? x = some (.element tag attributes) → P tag attributes)
  | [], _ => by simp [Tree.AllOf, Tree.allIds]
  | t :: rest, ⟨ht, hrest⟩ => by
    rw [Tree.AllOf, Shows.all_iff ht, ShowsAll.all_iff hrest, Tree.allIds, List.forall_mem_append]
end

/-- What is seen from a node is the tree that is shown there. -/
theorem Forest.seenAll_iff {d : Document} (hf : d.Forest) (hl : d.Linked) {t : Tree}
    (h : d.Shows t) {P : String → Bindings Scalar → Prop} : d.SeenAll t.id P ↔ t.All P := by
  simp only [SeenAll, h.all_iff, hf.mem_ids hl h]

/-- The tree below a node from which all names are plain is one that markup is faithful for. -/
theorem Reachable.exists_regular {d : Document} (hd : d.Reachable) (hf : d.Forest) {x : NodeId}
    (hx : d.issued x = true) (hplain : d.SeenAll x Markup.PlainNames) :
    ∃ t, d.tree? x = some t ∧ t.All Markup.Regular := by
  obtain ⟨t, ht⟩ := hf.exists_tree hd.linked hd.closed (issued_iff.mp hx)
  obtain ⟨hshows, rfl⟩ := shows_of_treeWithin d.size x t (treeWithin_of_tree? ht)
  refine ⟨t, ht, (hf.seenAll_iff hd.linked hshows).mp fun y hy tag attributes hk => ?_⟩
  exact ⟨hplain y hy tag attributes hk, hd.ordered y tag attributes hk⟩

/-- **Markup is faithful.** -/
theorem markup_eq_iff {d e : Document} (hd : d.Reachable) (he : e.Reachable) (hdf : d.Forest)
    (hef : e.Forest) {x y : NodeId} (hx : d.issued x = true) (hy : e.issued y = true)
    (hdx : d.SeenAll x Markup.PlainNames) (hey : e.SeenAll y Markup.PlainNames) :
    ∃ out out' ns ns', d.markup? x = some out ∧ e.markup? y = some out' ∧
      d.normal? x = some ns ∧ e.normal? y = some ns' ∧ (out = out' ↔ ns = ns') := by
  obtain ⟨t, ht, hregular⟩ := hd.exists_regular hdf hx hdx
  obtain ⟨u, hu, hregular'⟩ := he.exists_regular hef hy hey
  refine ⟨Markup.tree t, Markup.tree u, t.normal, u.normal, ?_, ?_, ?_, ?_,
    Tree.normal_eq_iff hregular hregular'⟩
  · rw [markup?, ht, Option.map_some]
  · rw [markup?, hu, Option.map_some]
  · rw [normal?, ht, Option.map_some]
  · rw [normal?, hu, Option.map_some]

/-- A remark in one text. -/
def remark : Skeleton :=
  .element "p" [("tip", .str "\"<")] [.text "1 < 2"]

/-- The remark in three texts, one of which is empty. -/
def splitRemark : Skeleton :=
  .element "p" [("tip", .str "\"<")] [.text "1 ", .text "", .text "< 2"]

theorem reachable_clone (s : Skeleton) : (blank.applyAll (s.copy 1)).Reachable :=
  (applyAll_copy s blank).admits.evolves

theorem forest_clone (s : Skeleton) : (blank.applyAll (s.copy 1)).Forest :=
  forest_blank.sprouts closed_blank (.copy linked_blank s)

theorem seenAll_clone {s : Skeleton} {P : String → Bindings Scalar → Prop}
    (h : (s.plant 1).All P) : (blank.applyAll (s.copy 1)).SeenAll 1 P := by
  have hshows : (blank.applyAll (s.copy 1)).Shows (s.plant 1) := (applyAll_copy s blank).shows
  rw [← (forest_clone s).seenAll_iff (reachable_clone s).linked hshows, Skeleton.id_plant] at h
  exact h

/-- Where a text is split makes no difference to the markup, and none to the normal form. -/
theorem markup_eq_iff_remark :
    (blank.applyAll (remark.copy 1)).SeenAll 1 Markup.PlainNames ∧
    (blank.applyAll (splitRemark.copy 1)).SeenAll 1 Markup.PlainNames ∧
    (blank.applyAll (remark.copy 1)).markup? 1 =
      some "<p tip=\"&quot;&lt;\">1 &lt; 2</p>" ∧
    (blank.applyAll (remark.copy 1)).normal? 1 =
      (blank.applyAll (splitRemark.copy 1)).normal? 1 := by
  have hnames : Markup.PlainNames "p" [("tip", .str "\"<")] := by
    simp [Markup.PlainNames, Markup.Plain]
  have hplain : (blank.applyAll (remark.copy 1)).SeenAll 1 Markup.PlainNames :=
    seenAll_clone ⟨hnames, trivial, trivial⟩
  have hplain' : (blank.applyAll (splitRemark.copy 1)).SeenAll 1 Markup.PlainNames :=
    seenAll_clone ⟨hnames, trivial, trivial, trivial, trivial⟩
  obtain ⟨out, out', ns, ns', hout, hout', hns, hns', hiff⟩ :=
    markup_eq_iff (reachable_clone remark) (reachable_clone splitRemark) (forest_clone remark)
      (forest_clone splitRemark) rfl rfl hplain hplain'
  have hsame : out = out' := Option.some.inj (hout.symm.trans hout')
  refine ⟨hplain, hplain', rfl, ?_⟩
  rw [hns, hns', hiff.mp hsame]

end Stencil.Document
