import Stencil.Document.Tree
import Stencil.Proofs.Bindings
import Stencil.Proofs.Instance.Depth
import Stencil.Proofs.Template.Splitting
/- The reference rendering of an instance: what its fragment looks like with the holes
   filled in, without a document, a skeleton or edits. A nested instance takes the
   place of all that stands before it in its element and of the fixed children after
   it (`staying`). The rendering reads the holes of the fragment only, and not whether
   an instance is mounted. -/
namespace Stencil

/-- A tree without ids. -/
inductive Shape where
  | text (content : String)
  | element (tag : String) (attributes : Bindings Scalar) (children : List Shape)
  deriving Repr

mutual
/-- A tree with the ids left out. -/
def Tree.shape : Tree → Shape
  | .text _ content => .text content
  | .element _ tag attributes children => .element tag attributes (Tree.shapes children)

/-- Several trees with the ids left out. -/
def Tree.shapes : List Tree → List Shape
  | [] => []
  | t :: rest => t.shape :: Tree.shapes rest
end

theorem Tree.shapes_eq_map (ts : List Tree) : Tree.shapes ts = ts.map Tree.shape := by
  induction ts with
  | nil => rfl
  | cons t rest ih => simp [Tree.shapes, ih]

/-- The value of a slot as a rendering uses it. A nested instance has no shape if one of
its own slots has none. -/
inductive Showing where
  | scalar (value : Scalar)
  | block (shape : Option Shape)

namespace Showing

/-- Whether it is a nested instance. -/
def isBlock : Showing → Bool
  | scalar _ => false
  | block _ => true

end Showing

namespace PropList

/-- The properties that are holes, with the scalars in their slots. -/
def bound (slots : String → Option Showing) : PropList → Option (List (String × Scalar))
  | [] => some []
  | (_, .fixed _) :: rest => bound slots rest
  | (name, .hole hole) :: rest =>
    match slots hole with
    | some (.scalar value) => (bound slots rest).map fun pairs => (name, value) :: pairs
    | _ => none

/-- The attributes that result from writing the fixed properties in their order and then
those that are holes in theirs. -/
def rendered (slots : String → Option Showing) (props : PropList) : Option (Bindings Scalar) :=
  (bound slots props).map fun pairs =>
    Bindings.writeAll pairs (Bindings.writeAll props.fixed [])

theorem bound_congr {slots slots' : String → Option Showing} {props : PropList}
    (h : ∀ hole ∈ props.filterMap fun p => p.2.hole?, slots hole = slots' hole) :
    bound slots props = bound slots' props := by
  induction props with
  | nil => rfl
  | cons p rest ih =>
    obtain ⟨name, value⟩ := p
    cases value with
    | fixed value => exact ih (by simpa [PropValue.hole?] using h)
    | hole hole =>
      simp only [List.filterMap_cons, PropValue.hole?, List.forall_mem_cons] at h
      simp only [bound, h.1, ih h.2]

end PropList

namespace Fragment

/-- Whether the fragment is a hole whose slot holds a nested instance. -/
def isBlock (slots : String → Option Showing) : Fragment → Bool
  | hole name => (slots name).any Showing.isBlock
  | _ => false

variable {α β : Type}

/-- Of one entry for each fragment, those of the holes. -/
def ofHoles : List Fragment → List α → List α
  | f :: rest, x :: xs => if f.hole?.isSome then x :: ofHoles rest xs else ofHoles rest xs
  | _, _ => []

/-- Of one entry for each child of an element, those that stay: all of them if no slot
holds a nested instance, and otherwise the last nested instance and the holes after it. -/
def staying (slots : String → Option Showing) : List Fragment → List α → List α
  | f :: rest, x :: xs =>
    if rest.any (isBlock slots) then staying slots rest xs
    else if f.isBlock slots then x :: ofHoles rest xs
    else x :: staying slots rest xs
  | _, _ => []

mutual
/-- A fragment with its holes filled in, if all of them have a value. -/
def render (slots : String → Option Showing) : Fragment → Option Shape
  | text value => some (.text value.text)
  | hole name =>
    match slots name with
    | some (.scalar value) => some (.text value.text)
    | some (.block shape) => shape
    | none => none
  | element tag props children =>
    match props.rendered slots, renderEach slots children with
    | some attributes, some shapes =>
      some (.element tag attributes (staying slots children shapes))
    | _, _ => none

/-- Each of several fragments with its holes filled in. -/
def renderEach (slots : String → Option Showing) : List Fragment → Option (List Shape)
  | [] => some []
  | f :: rest =>
    match f.render slots, renderEach slots rest with
    | some shape, some shapes => some (shape :: shapes)
    | _, _ => none
end

theorem ofHoles_map (g : α → β) : ∀ (fs : List Fragment) (xs : List α),
    ofHoles fs (xs.map g) = (ofHoles fs xs).map g
  | [], _ => by simp [ofHoles]
  | _ :: _, [] => by simp [ofHoles]
  | f :: rest, x :: xs => by
    simp only [List.map_cons, ofHoles, ofHoles_map g rest xs]
    split <;> simp

theorem ofHoles_sublist : ∀ (fs : List Fragment) (xs : List α), (ofHoles fs xs).Sublist xs
  | [], _ => by simp [ofHoles]
  | _ :: _, [] => by simp [ofHoles]
  | f :: rest, x :: xs => by
    simp only [ofHoles]
    split
    · exact (ofHoles_sublist rest xs).cons_cons x
    · exact (ofHoles_sublist rest xs).cons x

section Staying

variable {slots slots' : String → Option Showing}

theorem staying_map (g : α → β) : ∀ (fs : List Fragment) (xs : List α),
    staying slots fs (xs.map g) = (staying slots fs xs).map g
  | [], _ => by simp [staying]
  | _ :: _, [] => by simp [staying]
  | f :: rest, x :: xs => by
    simp only [List.map_cons, staying, staying_map g rest xs, ofHoles_map]
    split
    · rfl
    · split <;> simp

theorem staying_sublist : ∀ (fs : List Fragment) (xs : List α), (staying slots fs xs).Sublist xs
  | [], _ => by simp [staying]
  | _ :: _, [] => by simp [staying]
  | f :: rest, x :: xs => by
    simp only [staying]
    split
    · exact (staying_sublist rest xs).cons x
    · split
      · exact (ofHoles_sublist rest xs).cons_cons x
      · exact (staying_sublist rest xs).cons_cons x

/-- An element without nested instances keeps all its children. -/
theorem staying_of_scalars : ∀ {fs : List Fragment} {xs : List α},
    fs.any (isBlock slots) = false → xs.length = fs.length → staying slots fs xs = xs
  | [], [], _, _ => rfl
  | [], _ :: _, _, hlen => by simp at hlen
  | _ :: _, [], _, hlen => by simp at hlen
  | f :: rest, x :: xs, hany, hlen => by
    simp only [List.any_cons, Bool.or_eq_false_iff] at hany
    simp only [List.length_cons, Nat.add_right_cancel_iff] at hlen
    simp [staying, hany.1, hany.2, staying_of_scalars hany.2 hlen]

theorem any_isBlock_congr : ∀ {fs : List Fragment},
    (∀ f ∈ fs, f.isBlock slots = f.isBlock slots') →
    fs.any (isBlock slots) = fs.any (isBlock slots')
  | [], _ => rfl
  | f :: rest, h => by
    rw [List.forall_mem_cons] at h
    simp [List.any_cons, h.1, any_isBlock_congr h.2]

theorem staying_congr : ∀ {fs : List Fragment} {xs : List α},
    (∀ f ∈ fs, f.isBlock slots = f.isBlock slots') → staying slots fs xs = staying slots' fs xs
  | [], _, _ => rfl
  | _ :: _, [], _ => rfl
  | f :: rest, x :: xs, h => by
    rw [List.forall_mem_cons] at h
    simp only [staying, h.1, any_isBlock_congr h.2, staying_congr h.2]

end Staying

section Congruence

variable {slots slots' : String → Option Showing}

theorem isBlock_congr {f : Fragment} (h : ∀ hole ∈ f.holes, slots hole = slots' hole) :
    f.isBlock slots = f.isBlock slots' := by
  cases f <;> simp_all [isBlock, holes]

theorem isBlock_of_kinds {f : Fragment} (h : ∀ hole ∈ f.holes,
    (slots' hole).map Showing.isBlock = (slots hole).map Showing.isBlock) :
    f.isBlock slots' = f.isBlock slots := by
  cases f with
  | text value => rfl
  | element tag props children => rfl
  | hole name =>
    have hname := h name (by simp [holes])
    simp only [isBlock]
    cases hs : slots name <;> cases hs' : slots' name <;> simp_all

theorem mem_allHoles {fs : List Fragment} {name : String} :
    name ∈ allHoles fs ↔ ∃ f ∈ fs, name ∈ f.holes := by
  induction fs with
  | nil => simp [allHoles]
  | cons f rest ih => simp [allHoles, ih]

mutual
/-- A rendering reads the holes of the fragment only. -/
theorem render_congr : ∀ {f : Fragment}, (∀ hole ∈ f.holes, slots hole = slots' hole) →
    f.render slots = f.render slots'
  | .text _, _ => rfl
  | .hole name, h => by
    simp only [render, h name (by simp [holes])]
  | .element tag props children, h => by
    simp only [holes, List.mem_append] at h
    have hprops : props.rendered slots = props.rendered slots' := by
      rw [PropList.rendered, PropList.rendered, PropList.bound_congr fun name hn => h name (.inl hn)]
    have hstay : ∀ shapes : List Shape,
        staying slots children shapes = staying slots' children shapes := fun shapes =>
      staying_congr fun f hf => isBlock_congr fun name hn =>
        h name (.inr (mem_allHoles.mpr ⟨f, hf, hn⟩))
    simp only [render, hprops, hstay, renderEach_congr fun name hn => h name (.inr hn)]

theorem renderEach_congr : ∀ {fs : List Fragment}, (∀ hole ∈ allHoles fs, slots hole = slots' hole) →
    renderEach slots fs = renderEach slots' fs
  | [], _ => rfl
  | f :: rest, h => by
    simp only [allHoles, List.mem_append] at h
    simp only [renderEach, render_congr fun name hn => h name (.inl hn),
      renderEach_congr fun name hn => h name (.inr hn)]
end

end Congruence

end Fragment

mutual
/-- The rendering of an instance whose blocks come of these fragments. -/
def Instance.render (source : Block → Fragment) : Instance → Option Shape
  | ⟨block, props, _, _⟩ => (source block).render (Bindings.get? (showingsOf source props))

/-- A value as a rendering uses it. -/
def Value.showing (source : Block → Fragment) : Value → Showing
  | .scalar value => .scalar value
  | .block nested => .block (nested.render source)

/-- Values of slots as a rendering uses them. -/
def showingsOf (source : Block → Fragment) : List (String × Value) → List (String × Showing)
  | [] => []
  | (slot, value) :: rest => (slot, value.showing source) :: showingsOf source rest
end

theorem get?_showingsOf (source : Block → Fragment) (props : Bindings Value) (slot : String) :
    Bindings.get? (showingsOf source props) slot = (props.get? slot).map (Value.showing source) := by
  induction props with
  | nil => rfl
  | cons entry rest ih =>
    obtain ⟨key, value⟩ := entry
    rw [showingsOf, Bindings.get?_cons, Bindings.get?_cons, ih]
    split <;> rfl

namespace Instance

variable {source : Block → Fragment}

/-- The value of a slot as a rendering uses it. -/
def showing? (source : Block → Fragment) (i : Instance) (slot : String) : Option Showing :=
  (i.prop? slot).map (Value.showing source)

theorem render_eq (i : Instance) : i.render source = (source i.block).render (i.showing? source) := by
  obtain ⟨block, props, resolved, root⟩ := i
  have hslots : Bindings.get? (showingsOf source props) =
      (Instance.mk block props resolved root).showing? source := by
    funext slot
    exact get?_showingsOf source props slot
  rw [render, hslots]

/-- The blocks of an instance, nested ones included, come of these fragments. -/
def MadeFrom (source : Block → Fragment) (i : Instance) : Prop :=
  i.Throughout fun j => j.block.IsOf (source j.block)

theorem MadeFrom.mem_holes {i : Instance} (h : i.MadeFrom source) {hole : String} :
    hole ∈ (source i.block).holes ↔ ∃ e ∈ i.block.edits, e.hole = hole :=
  h.here.mem_holes

end Instance

/-! A badge at the end of a card, as an example. Where a badge is mounted, the text and the
remark before it are not shown. -/

namespace Sample

/-- A word with a tone. -/
def badge : Fragment :=
  .element "b" [("class", .hole "tone")] [.hole "word"]

/-- A tip, a remark and a badge. -/
def card : Fragment :=
  .element "p" [("title", .hole "tip")]
    [.text (.str "see"), .element "i" [] [.hole "remark"], .hole "badge"]

/-- The block of the badge. -/
def badgeBlock : Block :=
  ⟨0, ["tone", "word"], .element "b" [] [], badge.edits .root⟩

/-- The block of the card. -/
def cardBlock : Block :=
  ⟨1, ["tip", "remark", "badge"], .element "p" [] [.text "see", .element "i" [] []],
    card.edits .root⟩

/-- The fragments that the two blocks come of. -/
def source (b : Block) : Fragment :=
  if b.serial = 0 then badge else card

/-- A new badge. -/
def badgeOf (tone word : Scalar) : Instance :=
  .new badgeBlock [("tone", .scalar tone), ("word", .scalar word)]

/-- A new card. -/
def cardOf (nested : Instance) (remark tip : Scalar) : Instance :=
  .new cardBlock [("badge", .block nested), ("remark", .scalar remark), ("tip", .scalar tip)]

theorem prop?_badgeOf_ne {tone word : Scalar} {slot : String} {n : Instance} :
    (badgeOf tone word).prop? slot ≠ some (.block n) := by
  intro h
  have hm := Bindings.mem_of_get? h
  simp [badgeOf, Instance.new] at hm

theorem eq_of_prop?_cardOf {nested n : Instance} {remark tip : Scalar} {slot : String}
    (h : (cardOf nested remark tip).prop? slot = some (.block n)) : n = nested := by
  have hm := Bindings.mem_of_get? h
  simp only [cardOf, Instance.new, List.mem_cons, Prod.mk.injEq, Value.block.injEq,
    reduceCtorEq, and_false, List.not_mem_nil, or_false] at hm
  exact hm.2

theorem badgeOf_throughout {P : Instance → Prop} {tone word : Scalar}
    (h : P (badgeOf tone word)) : (badgeOf tone word).Throughout P :=
  .intro h fun _ ⟨_, _, hv⟩ => absurd hv prop?_badgeOf_ne

theorem cardOf_throughout {P : Instance → Prop} {nested : Instance} {remark tip : Scalar}
    (h : P (cardOf nested remark tip)) (hnested : nested.Throughout P) :
    (cardOf nested remark tip).Throughout P :=
  .intro h fun _ ⟨_, _, hv⟩ => eq_of_prop?_cardOf hv ▸ hnested

theorem cardOf_madeFrom (tone word remark tip : Scalar) :
    (cardOf (badgeOf tone word) remark tip).MadeFrom source :=
  cardOf_throughout ⟨{}, rfl⟩ (badgeOf_throughout ⟨{}, rfl⟩)

example : (cardOf (badgeOf (.str "red") (.str "new")) .null .null).render source =
    some (.element "p" [] [.element "b" [("class", .str "red")] [.text "new"]]) := rfl

/-- The block of a paragraph in which a lead and a badge stand. -/
def leadBlock (children : List Fragment) : Block :=
  ⟨1, ["lead", "badge"], .element "p" [] (Fragment.skeletons children),
    (Fragment.element "p" [] children).edits .root⟩

/-- The fragments that this block and that of the badge come of. -/
def leadSource (children : List Fragment) (b : Block) : Fragment :=
  if b.serial = 0 then badge else .element "p" [] children

/-- A new paragraph with a lead and a badge. -/
def leadOf (children : List Fragment) (lead : Scalar) : Instance :=
  .new (leadBlock children)
    [("badge", .block (badgeOf .null (.str "new"))), ("lead", .scalar lead)]

theorem eq_of_prop?_leadOf {children : List Fragment} {lead : Scalar} {slot : String}
    {n : Instance} (h : (leadOf children lead).prop? slot = some (.block n)) :
    n = badgeOf .null (.str "new") := by
  have hm := Bindings.mem_of_get? h
  simp only [leadOf, Instance.new, List.mem_cons, Prod.mk.injEq, Value.block.injEq,
    reduceCtorEq, and_false, List.not_mem_nil, or_false] at hm
  exact hm.2

theorem leadOf_madeFrom {children : List Fragment} {lead : Scalar}
    (h : (leadBlock children).IsOf (.element "p" [] children)) :
    (leadOf children lead).MadeFrom (leadSource children) :=
  .intro h fun _ ⟨_, _, hv⟩ => eq_of_prop?_leadOf hv ▸ badgeOf_throughout ⟨{}, rfl⟩

end Sample

end Stencil
