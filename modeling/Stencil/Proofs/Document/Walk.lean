import Stencil.Document.Markup
import Stencil.Proofs.Document.Forest
/- Walks: how a document is read from a node down. The reader visits the node and then, if the
   node is an element, its children in turn, each with all below it before the next (`Walks`).
   A walk compares no ids and counts no levels, so it is the document that makes it end. In a
   forest it ends at every node, visits none twice, and passes over nothing but what is below
   a text node (`Forest.legible`). -/
namespace Stencil

/-- What a reader writes for a text, and for an element around what its children give. -/
structure Reader where
  text : String → String
  element : String → Bindings Scalar → String → String

namespace Reader

/-- The reader that writes markup. -/
def markup : Reader where
  text := Markup.escape false
  element tag attributes inner :=
    "<" ++ tag ++ Markup.bindings attributes ++ ">" ++ inner ++ "</" ++ tag ++ ">"

/-- The reader that writes texts only. -/
def textContent : Reader where
  text content := content
  element _ _ inner := inner

mutual
/-- What a reader writes for a tree. -/
def tree (r : Reader) : Tree → String
  | .text _ content => r.text content
  | .element _ tag attributes children => r.element tag attributes (r.trees children)

/-- What a reader writes for several trees in turn. -/
def trees (r : Reader) : List Tree → String
  | [] => ""
  | t :: rest => r.tree t ++ r.trees rest
end

mutual
theorem tree_markup : ∀ t : Tree, markup.tree t = Markup.tree t
  | .text id content => rfl
  | .element id tag attributes children => by
    rw [tree, Markup.tree, ← trees_markup children]
    rfl

theorem trees_markup : ∀ ts : List Tree, markup.trees ts = Markup.trees ts
  | [] => rfl
  | t :: rest => by simp only [trees, Markup.trees, tree_markup t, trees_markup rest]
end

mutual
theorem tree_textContent : ∀ t : Tree, textContent.tree t = t.textContent
  | .text id content => rfl
  | .element id tag attributes children => by
    rw [tree, Tree.textContent, ← trees_textContent children]
    rfl

theorem trees_textContent : ∀ ts : List Tree, textContent.trees ts = Tree.allTextContent ts
  | [] => rfl
  | t :: rest => by
    simp only [trees, Tree.allTextContent, tree_textContent t, trees_textContent rest]
end

end Reader

namespace Document

mutual
/-- A walk from the node comes to its end, after these visits in turn, with this text. -/
inductive Walks (d : Document) (r : Reader) : NodeId → List NodeId → String → Prop where
  | text {x : NodeId} {content : String} :
      d.kind? x = some (.text content) → Walks d r x [x] (r.text content)
  | element {x : NodeId} {tag : String} {attributes : Bindings Scalar} {ys : List NodeId}
      {out : String} :
      d.kind? x = some (.element tag attributes) → WalksAll d r (d.children x) ys out →
      Walks d r x (x :: ys) (r.element tag attributes out)

/-- Walks from the nodes in turn come to their end. -/
inductive WalksAll (d : Document) (r : Reader) : List NodeId → List NodeId → String → Prop where
  | nil : WalksAll d r [] [] ""
  | cons {x : NodeId} {rest ys zs : List NodeId} {out out' : String} :
      Walks d r x ys out → WalksAll d r rest zs out' →
      WalksAll d r (x :: rest) (ys ++ zs) (out ++ out')
end

mutual
/-- A walk visits the nodes of the tree that is shown, in reading order. -/
theorem Shows.walks {d : Document} (r : Reader) : ∀ {t : Tree}, d.Shows t →
    d.Walks r t.id t.ids (r.tree t)
  | .text id content, h => .text h
  | .element id tag attributes children, h => by
    obtain ⟨hk, hc, hall⟩ := h
    exact .element hk (hc ▸ ShowsAll.walks r hall)

theorem ShowsAll.walks {d : Document} (r : Reader) : ∀ {ts : List Tree}, d.ShowsAll ts →
    d.WalksAll r (ts.map Tree.id) (Tree.allIds ts) (r.trees ts)
  | [], _ => .nil
  | _ :: _, h => .cons (Shows.walks r h.1) (ShowsAll.walks r h.2)
end

mutual
/-- There is one walk from a node, if any. -/
theorem Walks.unique {d : Document} {r : Reader} {x : NodeId} {ys zs : List NodeId}
    {out out' : String} : d.Walks r x ys out → d.Walks r x zs out' → ys = zs ∧ out = out'
  | .text h, .text h' => by
    obtain rfl : _ = _ := NodeKind.text.inj (Option.some.inj (h.symm.trans h'))
    exact ⟨rfl, rfl⟩
  | .text h, .element h' _ => by cases Option.some.inj (h.symm.trans h')
  | .element h _, .text h' => by cases Option.some.inj (h.symm.trans h')
  | .element h hall, .element h' hall' => by
    obtain ⟨rfl, rfl⟩ := NodeKind.element.inj (Option.some.inj (h.symm.trans h'))
    obtain ⟨rfl, rfl⟩ := WalksAll.unique hall hall'
    exact ⟨rfl, rfl⟩

theorem WalksAll.unique {d : Document} {r : Reader} {xs ys zs : List NodeId}
    {out out' : String} : d.WalksAll r xs ys out → d.WalksAll r xs zs out' → ys = zs ∧ out = out'
  | .nil, .nil => ⟨rfl, rfl⟩
  | .cons h hrest, .cons h' hrest' => by
    obtain ⟨rfl, rfl⟩ := Walks.unique h h'
    obtain ⟨rfl, rfl⟩ := WalksAll.unique hrest hrest'
    exact ⟨rfl, rfl⟩
end

theorem showsAll_of_mapM {d : Document} {f : NodeId → Option Tree}
    (hf : ∀ x t, f x = some t → d.Shows t ∧ t.id = x) : ∀ {xs : List NodeId} {ts : List Tree},
    xs.mapM f = some ts → d.ShowsAll ts ∧ ts.map Tree.id = xs
  | [], ts, h => by
    obtain rfl : ts = [] := by simpa using h.symm
    exact ⟨trivial, rfl⟩
  | x :: rest, ts, h => by
    simp only [List.mapM_cons, Option.bind_eq_bind, Option.bind_eq_some_iff, Option.pure_def,
      Option.some.injEq] at h
    obtain ⟨t, ht, us, hus, rfl⟩ := h
    obtain ⟨hshows, hid⟩ := hf x t ht
    obtain ⟨hall, hids⟩ := showsAll_of_mapM hf hus
    exact ⟨⟨hshows, hall⟩, by rw [List.map_cons, hid, hids]⟩

/-- The tree that is found below a node is shown there. -/
theorem shows_of_treeWithin {d : Document} : ∀ (depth : Nat) (x : NodeId) (t : Tree),
    d.treeWithin depth x = some t → d.Shows t ∧ t.id = x
  | 0, x, t, h => by cases h
  | depth + 1, x, t, h => by
    simp only [treeWithin] at h
    cases hk : d.kind? x with
    | none => simp [hk] at h
    | some kind =>
      cases kind with
      | text content =>
        obtain rfl : .text x content = t := by simpa [hk] using h
        exact ⟨hk, rfl⟩
      | element tag attributes =>
        simp only [hk, Option.map_eq_some_iff] at h
        obtain ⟨ts, hts, rfl⟩ := h
        obtain ⟨hall, hids⟩ := showsAll_of_mapM (shows_of_treeWithin depth) hts
        exact ⟨⟨hk, hids.symm, hall⟩, rfl⟩

/-- The second node is the first one or below it. -/
def Below (d : Document) (x y : NodeId) : Prop :=
  y = x ∨ d.Above y x

/-- The second node is below the first, and no text node is between them. -/
def SeenBelow (d : Document) (x y : NodeId) : Prop :=
  d.Above y x ∧ ∀ z, d.Above y z → d.Above z x → d.isText z = false

/-- The second node is the first one or below it, and it is not below a text node that is. -/
def Seen (d : Document) (x y : NodeId) : Prop :=
  d.Below x y ∧ ∀ z, d.Above y z → d.Below x z → d.isText z = false

section Forest

variable {d : Document} {x y z c : NodeId}

theorem Below.reaches (h : d.Below x y) :
    Relation.ReflTransGen (fun x p => d.parent? x = some p) y x := by
  rcases h with rfl | h
  · exact .refl
  · exact h.to_reflTransGen

theorem below_of_reaches (h : Relation.ReflTransGen (fun x p => d.parent? x = some p) y x) :
    d.Below x y := by
  rcases Relation.reflTransGen_iff_eq_or_transGen.mp h with rfl | h
  · exact .inl rfl
  · exact .inr h

/-- The links up from a node make one line. -/
theorem Below.total (hx : d.Below x y) (hz : d.Below z y) : d.Below x z ∨ d.Below z x := by
  have hunique : Relator.RightUnique fun x p => d.parent? x = some p := by
    intro a p q hp hq
    exact Option.some.inj (hp.symm.trans hq)
  rcases Relation.ReflTransGen.total_of_right_unique hunique hx.reaches hz.reaches with h | h
  · exact .inr (below_of_reaches h)
  · exact .inl (below_of_reaches h)

theorem above_of_below (hc : d.parent? c = some x) (h : d.Below c y) : d.Above y x := by
  rcases h with rfl | h
  · exact .single hc
  · exact h.tail hc

/-- Above a child is its parent, and then what is above the parent. -/
theorem below_of_above (hc : d.parent? c = some x) (h : d.Above c z) : d.Below z x := by
  obtain ⟨p, hp, h⟩ := Relation.TransGen.head'_iff.mp h
  obtain rfl := Option.some.inj (hc.symm.trans hp)
  exact below_of_reaches h

theorem exists_child (h : d.Above y x) : ∃ c, d.parent? c = some x ∧ d.Below c y := by
  obtain ⟨c, hc, hx⟩ := Relation.TransGen.tail'_iff.mp h
  exact ⟨c, hx, below_of_reaches hc⟩

/-- Nothing is below two children. -/
theorem Forest.eq_of_below (hf : d.Forest) {a b : NodeId} (ha : d.parent? a = some x)
    (hb : d.parent? b = some x) (hya : d.Below a y) (hyb : d.Below b y) : a = b := by
  have hside : ∀ {a b}, d.parent? a = some x → d.parent? b = some x → d.Above a b → False := by
    intro a b ha hb hab
    exact hf x (above_of_below hb (below_of_above ha hab))
  rcases hya.total hyb with (h | h) | (h | h)
  · exact h.symm
  · exact (hside hb ha h).elim
  · exact h
  · exact (hside ha hb h).elim

/-- A node between a node below a child and the parent is below the child. -/
theorem Forest.below_child (hf : d.Forest) (hc : d.parent? c = some x) (hy : d.Below c y)
    (hyz : d.Above y z) (hzx : d.Above z x) : d.Below c z := by
  rcases hy.total (.inr hyz) with h | h | h
  · exact h
  · exact .inl h.symm
  · rcases below_of_above hc h with rfl | h
    · exact (hf x hzx).elim
    · exact (hf x (h.trans hzx)).elim

/-- Below a node are its children and what is below them. -/
theorem Forest.seenBelow_iff (hf : d.Forest) :
    d.SeenBelow x y ↔ ∃ c, d.parent? c = some x ∧ d.Seen c y := by
  constructor
  · intro h
    obtain ⟨c, hc, hy⟩ := exists_child h.1
    exact ⟨c, hc, hy, fun z hyz hz => h.2 z hyz (above_of_below hc hz)⟩
  · intro ⟨c, hc, hy⟩
    exact ⟨above_of_below hc hy.1, fun z hyz hzx => hy.2 z hyz (hf.below_child hc hy.1 hyz hzx)⟩

theorem Forest.seen_iff (hf : d.Forest) :
    d.Seen x y ↔ y = x ∨ d.isText x = false ∧ d.SeenBelow x y := by
  constructor
  · intro h
    rcases h.1 with rfl | hy
    · exact .inl rfl
    · exact .inr ⟨h.2 x hy (.inl rfl), hy, fun z hyz hzx => h.2 z hyz (.inr hzx)⟩
  · intro h
    rcases h with rfl | ⟨htext, hy⟩
    · refine ⟨.inl rfl, fun z hyz hz => ?_⟩
      rcases hz with rfl | hz
      · exact (hf z hyz).elim
      · exact (hf y (hyz.trans hz)).elim
    · refine ⟨.inr hy.1, fun z hyz hz => ?_⟩
      rcases hz with rfl | hz
      · exact htext
      · exact hy.2 z hyz hz

theorem Linked.parent?_of_shown (hl : d.Linked) {ts : List Tree}
    (hids : d.children x = ts.map Tree.id) : ∀ t ∈ ts, d.parent? t.id = some x := by
  intro t ht
  exact hl.mem_children.mp (hids ▸ List.mem_map_of_mem ht)

/-- What is seen below a node is what is seen from its children, whose trees are shown. -/
theorem Forest.exists_seen_iff (hf : d.Forest) (hl : d.Linked) {ts : List Tree}
    (hids : d.children x = ts.map Tree.id) : (∃ t ∈ ts, d.Seen t.id y) ↔ d.SeenBelow x y := by
  rw [hf.seenBelow_iff]
  constructor
  · intro ⟨t, ht, hy⟩
    exact ⟨t.id, hl.parent?_of_shown hids t ht, hy⟩
  · intro ⟨c, hc, hy⟩
    obtain ⟨t, ht, rfl⟩ := List.mem_map.mp (hids ▸ hl.mem_children.mpr hc)
    exact ⟨t, ht, hy⟩

mutual
/-- A tree that is shown has the nodes that are seen. -/
theorem Forest.mem_ids (hf : d.Forest) (hl : d.Linked) : ∀ {t : Tree}, d.Shows t →
    ∀ y, y ∈ t.ids ↔ d.Seen t.id y
  | .text id content, h, y => by
    have hk : d.kind? id = some (.text content) := h
    have htext : d.isText id = true := by simp [isText, text?, hk]
    simp [Tree.ids, Tree.id, hf.seen_iff, htext]
  | .element id tag attributes children, h, y => by
    obtain ⟨hk, hc, hall⟩ := h
    have htext : d.isText id = false := by simp [isText, text?, hk]
    rw [Tree.ids, List.mem_cons, hf.mem_allIds hl hall, hf.exists_seen_iff hl hc, Tree.id,
      hf.seen_iff]
    simp [htext]

theorem Forest.mem_allIds (hf : d.Forest) (hl : d.Linked) : ∀ {ts : List Tree}, d.ShowsAll ts →
    ∀ {y : NodeId}, y ∈ Tree.allIds ts ↔ ∃ t ∈ ts, d.Seen t.id y
  | [], _, y => by simp [Tree.allIds]
  | t :: rest, h, y => by
    rw [Tree.allIds, List.mem_append, hf.mem_ids hl h.1, hf.mem_allIds hl h.2]
    simp
end

mutual
/-- A tree that is shown has no node twice. -/
theorem Forest.nodup_ids (hf : d.Forest) (hl : d.Linked) : ∀ {t : Tree}, d.Shows t → t.ids.Nodup
  | .text id content, _ => List.nodup_singleton id
  | .element id tag attributes children, h => by
    obtain ⟨hk, hc, hall⟩ := h
    have hparent := hl.parent?_of_shown hc
    rw [Tree.ids, List.nodup_cons]
    refine ⟨fun hid => ?_, hf.nodup_allIds hl hall hparent (hc ▸ hl.nodup id)⟩
    obtain ⟨t, ht, hseen⟩ := (hf.mem_allIds hl hall).mp hid
    exact hf id (above_of_below (hparent t ht) hseen.1)

theorem Forest.nodup_allIds {x : NodeId} (hf : d.Forest) (hl : d.Linked) : ∀ {ts : List Tree}, d.ShowsAll ts →
    (∀ t ∈ ts, d.parent? t.id = some x) → (ts.map Tree.id).Nodup → (Tree.allIds ts).Nodup
  | [], _, _, _ => List.nodup_nil
  | t :: rest, h, hparent, hids => by
    rw [List.forall_mem_cons] at hparent
    rw [List.map_cons, List.nodup_cons] at hids
    rw [Tree.allIds, List.nodup_append]
    refine ⟨hf.nodup_ids hl h.1, hf.nodup_allIds hl h.2 hparent.2 hids.2, fun y hy z hz hyz => ?_⟩
    subst hyz
    obtain ⟨u, hu, hseen⟩ := (hf.mem_allIds hl h.2).mp hz
    have hsame := hf.eq_of_below hparent.1 (hparent.2 u hu) ((hf.mem_ids hl h.1 y).mp hy).1 hseen.1
    exact hids.1 (hsame ▸ List.mem_map_of_mem hu)
end

/-- The readers come to their end: the markup and the text of the node, with the same visits,
and the markup of what is below it. They visit each node once that is not below a text node, and
no other. -/
def Legible (d : Document) (x : NodeId) : Prop :=
  (∃ ys out text, d.Walks .markup x ys out ∧ d.markup? x = some out ∧
    d.Walks .textContent x ys text ∧ d.textContent? x = some text ∧
    ys.Nodup ∧ ∀ y, y ∈ ys ↔ d.Seen x y) ∧
  ∃ zs inner, d.WalksAll .markup (d.children x) zs inner ∧ d.innerMarkup? x = some inner ∧
    zs.Nodup ∧ ∀ y, y ∈ zs ↔ d.SeenBelow x y

theorem Forest.exists_childTrees (hf : d.Forest) (hl : d.Linked) (hd : d.Closed) (x : NodeId) :
    ∃ ts, d.childTrees? x = some ts ∧ d.ShowsAll ts ∧ d.children x = ts.map Tree.id := by
  have hbelow : ∀ c ∈ d.children x, ∃ t, d.treeWithin d.size c = some t := by
    intro c hc
    obtain ⟨t, ht⟩ := hf.exists_tree hl hd (hd.children hc)
    exact ⟨t, treeWithin_of_tree? ht⟩
  obtain ⟨ts, hts⟩ := exists_mapM hbelow
  obtain ⟨hall, hids⟩ := showsAll_of_mapM (shows_of_treeWithin d.size) hts
  refine ⟨ts, ?_, hall, hids.symm⟩
  simp only [childTrees?, hf.isOwnAncestor x, Bool.false_eq_true, if_false]
  exact hts

/-- **In a forest every reader comes to its end at every node.** -/
theorem Forest.legible (hf : d.Forest) (hl : d.Linked) (hd : d.Closed) (hx : x < d.size) :
    d.Legible x := by
  constructor
  · obtain ⟨t, ht⟩ := hf.exists_tree hl hd hx
    obtain ⟨hshows, rfl⟩ := shows_of_treeWithin d.size x t (treeWithin_of_tree? ht)
    refine ⟨t.ids, Reader.markup.tree t, Reader.textContent.tree t, hshows.walks _, ?_,
      hshows.walks _, ?_, hf.nodup_ids hl hshows, hf.mem_ids hl hshows⟩
    · rw [markup?, ht, Option.map_some, Reader.tree_markup]
    · rw [textContent?, ht, Option.map_some, Reader.tree_textContent]
  · obtain ⟨ts, hts, hall, hids⟩ := hf.exists_childTrees hl hd x
    refine ⟨Tree.allIds ts, Reader.markup.trees ts, hids ▸ hall.walks _, ?_, ?_, fun y => ?_⟩
    · rw [innerMarkup?, hts, Option.map_some, Reader.trees_markup]
    · exact hf.nodup_allIds hl hall (hl.parent?_of_shown hids) (hids ▸ hl.nodup x)
    · rw [hf.mem_allIds hl hall, hf.exists_seen_iff hl hids]

end Forest

end Document

end Stencil
