import Mathlib.Data.List.Forall2
import Stencil.Proofs.Document.Forest
import Stencil.Proofs.Rendering
/- Two documents side by side. Some nodes of the one are twins of some nodes of the other: they
   are of one kind and their children are twins in turn (`Twins`). What is written to both
   twins keeps them so, and what it creates are twins again, under whatever ids
   (`Twins.applyAll`); what is written to other nodes does not matter (`Twins.keep`). Below
   twins, the trees have the same shape (`Twins.shape_eq`). A set of nodes without links to
   the outside is one whose nodes are their own twins (`Owns`). -/
namespace Stencil

/-- The same is written to two nodes that are related. -/
inductive Change.Twin (T : Nat → Nat → Prop) : Change → Change → Prop where
  | setAttribute {x y : Nat} (h : T x y) (name : String) (value : Scalar) :
      Twin T (.setAttribute x name value) (.setAttribute y name value)
  | setText {x y : Nat} (h : T x y) (content : String) :
      Twin T (.setText x content) (.setText y content)

theorem Change.Twin.mono {T T' : Nat → Nat → Prop} {c c' : Change} (h : c.Twin T c')
    (hT : ∀ x y, T x y → T' x y) : c.Twin T' c' := by
  cases h with
  | setAttribute h name value => exact .setAttribute (hT _ _ h) name value
  | setText h content => exact .setText (hT _ _ h) content

namespace Document

/-- Nodes of the two documents are related one to one, and those related are of one kind and
have related children. -/
structure Twins (T : Nat → Nat → Prop) (d e : Document) : Prop where
  kind : ∀ {x y}, T x y → e.kind? y = d.kind? x
  children : ∀ {x y}, T x y → List.Forall₂ T (d.children x) (e.children y)
  lt_size : ∀ {x y}, T x y → x < d.size ∧ y < e.size
  left : ∀ {x x' y}, T x y → T x' y → x = x'
  right : ∀ {x y y'}, T x y → T x y' → y = y'

/-- The relation holds of more nodes, all of which are new. -/
structure Widens (T : Nat → Nat → Prop) (d e : Document) (T' : Nat → Nat → Prop) : Prop where
  old : ∀ x y, T x y → T' x y
  new : ∀ x y, T' x y → T x y ∨ ∃ k, x = d.size + k ∧ y = e.size + k

namespace Twins

variable {T : Nat → Nat → Prop} {d e d' e' : Document} {x y a b : Nat}

theorem eq_iff (h : Twins T d e) (hxy : T x y) (hab : T a b) : a = x ↔ b = y := by
  constructor
  · rintro rfl
    exact h.right hab hxy
  · rintro rfl
    exact h.left hab hxy

theorem isText (h : Twins T d e) (hxy : T x y) : e.isText y = d.isText x := by
  simp only [Document.isText, text?, h.kind hxy]

/-- Twins stay so where they keep kind and children. -/
theorem keep (h : Twins T d e) (hd : ∀ x y, T x y → d.SameAt d' x)
    (he : ∀ x y, T x y → e.SameAt e' y) (hdsize : d.size ≤ d'.size) (hesize : e.size ≤ e'.size) :
    Twins T d' e' where
  kind hxy := by rw [(hd _ _ hxy).1, (he _ _ hxy).1, h.kind hxy]
  children hxy := by
    rw [(hd _ _ hxy).2, (he _ _ hxy).2]
    exact h.children hxy
  lt_size hxy := ⟨Nat.lt_of_lt_of_le (h.lt_size hxy).1 hdsize,
    Nat.lt_of_lt_of_le (h.lt_size hxy).2 hesize⟩
  left := h.left
  right := h.right

/-- Both twins are of another kind, and the others are as they were. -/
theorem rewrite (h : Twins T d e) (hxy : T x y) (change : NodeKind → NodeKind)
    (hd : ∀ a, d'.kind? a = if a = x then (d.kind? a).map change else d.kind? a)
    (he : ∀ b, e'.kind? b = if b = y then (e.kind? b).map change else e.kind? b)
    (hdchildren : ∀ a, d'.children a = d.children a) (hechildren : ∀ b, e'.children b = e.children b)
    (hdsize : d'.size = d.size) (hesize : e'.size = e.size) : Twins T d' e' where
  kind {a b} hab := by
    have hiff := h.eq_iff hxy hab
    rw [hd, he, h.kind hab]
    by_cases ha : a = x
    · rw [if_pos ha, if_pos (hiff.mp ha)]
    · rw [if_neg ha, if_neg (mt hiff.mpr ha)]
  children hab := by
    rw [hdchildren, hechildren]
    exact h.children hab
  lt_size hab := by
    rw [hdsize, hesize]
    exact h.lt_size hab
  left := h.left
  right := h.right

/-- Twin elements get a text for their only child; the new texts are twins too. -/
theorem setText_of_element (h : Twins T d e) (hxy : T x y) (htext : d.isText x = false)
    (content : String) :
    Twins (fun a b => T a b ∨ a = d.size ∧ b = e.size) (d.setText x content)
      (e.setText y content) := by
  have htext' : e.isText y = false := (h.isText hxy).trans htext
  obtain ⟨hx, hy⟩ := h.lt_size hxy
  -- related nodes are none of the new ones
  have hne : ∀ {a b}, T a b → a ≠ d.size ∧ b ≠ e.size := fun hab =>
    ⟨Nat.ne_of_lt (h.lt_size hab).1, Nat.ne_of_lt (h.lt_size hab).2⟩
  constructor
  case kind =>
    intro a b hab
    rw [kind?_setText_of_element htext, kind?_setText_of_element htext']
    rcases hab with hab | ⟨rfl, rfl⟩
    · rw [if_neg (hne hab).1, if_neg (hne hab).2, h.kind hab]
    · simp
  case children =>
    intro a b hab
    rw [children_setText_of_element htext hx, children_setText_of_element htext' hy]
    rcases hab with hab | ⟨rfl, rfl⟩
    · have hiff := h.eq_iff hxy hab
      by_cases ha : a = x
      · rw [if_pos ha, if_pos (hiff.mp ha)]
        exact .cons (.inr ⟨rfl, rfl⟩) .nil
      · rw [if_neg ha, if_neg (mt hiff.mpr ha)]
        exact (h.children hab).imp fun _ _ => .inl
    · rw [if_neg (Nat.ne_of_gt hx), if_neg (Nat.ne_of_gt hy), children_of_size_le (Nat.le_refl _),
        children_of_size_le (Nat.le_refl _)]
      exact .nil
  case lt_size =>
    intro a b hab
    rw [size_setText_of_element htext, size_setText_of_element htext']
    rcases hab with hab | ⟨rfl, rfl⟩
    · exact ⟨Nat.lt_succ_of_lt (h.lt_size hab).1, Nat.lt_succ_of_lt (h.lt_size hab).2⟩
    · exact ⟨Nat.lt_succ_self _, Nat.lt_succ_self _⟩
  -- an id is new on both sides or on neither
  case left =>
    rintro a a' b (hab | ⟨rfl, rfl⟩) (hab' | ⟨rfl, hb⟩)
    · exact h.left hab hab'
    · exact absurd hb (hne hab).2
    · exact absurd rfl (hne hab').2
    · rfl
  case right =>
    rintro a b b' (hab | ⟨rfl, rfl⟩) (hab' | ⟨ha, rfl⟩)
    · exact h.right hab hab'
    · exact absurd ha (hne hab).1
    · exact absurd rfl (hne hab').1
    · rfl

/-- What is written to twins keeps them twins, and makes twins of the nodes it creates. -/
theorem apply (h : Twins T d e) {c c' : Change} (hc : c.Twin T c') :
    ∃ T', Twins T' (d.apply c) (e.apply c') ∧ Widens T d e T' ∧
      ∃ n, (d.apply c).size = d.size + n ∧ (e.apply c').size = e.size + n := by
  have hself : Widens T d e T := ⟨fun _ _ hab => hab, fun _ _ hab => .inl hab⟩
  cases hc with
  | @setAttribute x y hxy name value =>
    refine ⟨T, ?_, hself, 0, size_setAttribute .., size_setAttribute ..⟩
    exact h.rewrite hxy (.writeAttribute name value) (kind?_setAttribute d x name value)
      (kind?_setAttribute e y name value) (children_setAttribute d x name value)
      (children_setAttribute e y name value) (size_setAttribute ..) (size_setAttribute ..)
  | @setText x y hxy content =>
    have heq := h.isText hxy
    cases htext : d.isText x with
    | true =>
      rw [htext] at heq
      simp only [Document.apply, Document.setText, htext, heq, if_true]
      refine ⟨T, ?_, hself, 0, size_writeText .., size_writeText ..⟩
      exact h.rewrite hxy (.writeText content) (kind?_writeText d x content)
        (kind?_writeText e y content) (children_writeText d x content)
        (children_writeText e y content) (size_writeText ..) (size_writeText ..)
    | false =>
      refine ⟨_, h.setText_of_element hxy htext content, ⟨fun _ _ => .inl, ?_⟩, 1, ?_, ?_⟩
      · rintro a b (hab | ⟨rfl, rfl⟩)
        · exact .inl hab
        · exact .inr ⟨0, rfl, rfl⟩
      · exact size_setText_of_element htext content
      · exact size_setText_of_element (heq.trans htext) content

/-- **The same writes to twins keep them twins**, whatever ids the new nodes get. -/
theorem applyAll : ∀ {cs cs' : List Change} {T : Nat → Nat → Prop} {d e : Document},
    Twins T d e → List.Forall₂ (Change.Twin T) cs cs' →
    ∃ T', Twins T' (d.applyAll cs) (e.applyAll cs') ∧ Widens T d e T'
  | [], _, T, _, _, h, hcs => by
    cases hcs
    exact ⟨T, h, fun _ _ hab => hab, fun _ _ hab => .inl hab⟩
  | c :: cs, _, T, d, e, h, hcs => by
    cases hcs with
    | @cons _ c' _ cs' hc hcs =>
      obtain ⟨T₁, h₁, hwidens₁, n, hdsize, hesize⟩ := h.apply hc
      obtain ⟨T₂, h₂, hwidens₂⟩ := applyAll h₁ (hcs.imp fun _ _ hc => hc.mono hwidens₁.old)
      refine ⟨T₂, h₂, fun a b hab => hwidens₂.old a b (hwidens₁.old a b hab), fun a b hab => ?_⟩
      rcases hwidens₂.new a b hab with hab | ⟨k, ha, hb⟩
      · exact hwidens₁.new a b hab
      · exact .inr ⟨n + k, by omega, by omega⟩

end Twins

section Frame

variable {T : Nat → Nat → Prop} {x : Nat}

/-- What is written to related nodes changes no other node that there was. -/
theorem sameAt_apply {d : Document} {c c' : Change} (hc : c.Twin T c')
    (hT : ∀ a b, T a b → a < d.size) (hx : x < d.size) (hout : ∀ b, ¬ T x b) :
    d.SameAt (d.apply c) x := by
  cases hc with
  | @setAttribute a b hab name value =>
    have hne : x ≠ a := fun hxa => hout b (hxa ▸ hab)
    exact .of_node? (node?_setAttribute_of_ne d hne name value)
  | @setText a b hab content =>
    have hne : x ≠ a := fun hxa => hout b (hxa ▸ hab)
    simp only [Document.apply]
    cases htext : d.isText a with
    | true =>
      rw [setText, if_pos htext]
      exact .of_node? (node?_update_of_ne hne d _)
    | false =>
      constructor
      · rw [kind?_setText_of_element htext, if_neg (Nat.ne_of_lt hx)]
      · rw [children_setText_of_element htext (hT a b hab), if_neg hne]

theorem sameAt_applyAll : ∀ {cs cs' : List Change} {d : Document},
    List.Forall₂ (Change.Twin T) cs cs' → (∀ a b, T a b → a < d.size) → x < d.size →
    (∀ b, ¬ T x b) → d.SameAt (d.applyAll cs) x
  | [], _, d, _, _, _, _ => .refl d x
  | c :: cs, _, d, hcs, hT, hx, hout => by
    cases hcs with
    | cons hc hcs =>
      have hle := size_le_apply d c
      have hfirst := sameAt_apply hc hT hx hout
      refine hfirst.trans (sameAt_applyAll hcs (fun a b hab => ?_) (Nat.lt_of_lt_of_le hx hle) hout)
      exact Nat.lt_of_lt_of_le (hT a b hab) hle

end Frame

section Shapes

variable {T : Nat → Nat → Prop} {d e : Document}

theorem forall₂_of_mapM {α β : Type} {f : α → Option β} : ∀ {as : List α} {bs : List β},
    as.mapM f = some bs → List.Forall₂ (fun a b => f a = some b) as bs
  | [], bs, h => by
    obtain rfl : [] = bs := by simpa using h
    exact .nil
  | a :: as, bs, h => by
    simp only [List.mapM_cons, Option.bind_eq_bind, Option.bind_eq_some_iff, Option.pure_def,
      Option.some.injEq] at h
    obtain ⟨b, hb, bs', hbs, rfl⟩ := h
    exact .cons hb (forall₂_of_mapM hbs)

/-- Trees below related nodes have the same shapes if those of any two have. -/
theorem shapes_eq {f g : Nat → Option Tree} (hfg : ∀ x y t u, T x y → f x = some t →
      g y = some u → t.shape = u.shape) : ∀ {xs ys : List Nat} {ts us : List Tree},
    List.Forall₂ T xs ys → List.Forall₂ (fun x t => f x = some t) xs ts →
    List.Forall₂ (fun y u => g y = some u) ys us → Tree.shapes ts = Tree.shapes us
  | [], _, _, _, hT, hf, hg => by
    cases hT
    cases hf
    cases hg
    rfl
  | x :: xs, _, _, _, hT, hf, hg => by
    cases hT with
    | cons hxy hT =>
      cases hf with
      | cons ht hf =>
        cases hg with
        | cons hu hg =>
          rw [Tree.shapes, Tree.shapes, hfg _ _ _ _ hxy ht hu, shapes_eq hfg hT hf hg]

/-- Below twins the trees have the same shape, with as many levels as one likes. -/
theorem Twins.shape_eq (h : Twins T d e) : ∀ {m n x y : Nat} {t u : Tree}, T x y →
    d.treeWithin m x = some t → e.treeWithin n y = some u → t.shape = u.shape
  | 0, _, _, _, _, _, _, ht, _ => by simp [treeWithin] at ht
  | _ + 1, 0, _, _, _, _, _, _, hu => by simp [treeWithin] at hu
  | m + 1, n + 1, x, y, t, u, hxy, ht, hu => by
    simp only [treeWithin, h.kind hxy] at ht hu
    cases hk : d.kind? x with
    | none => simp [hk] at ht
    | some kind =>
      cases kind with
      | text content =>
        obtain rfl : Tree.text x content = t := by simpa [hk] using ht
        obtain rfl : Tree.text y content = u := by simpa [hk] using hu
        rfl
      | element tag attributes =>
        simp only [hk, Option.map_eq_some_iff] at ht hu
        obtain ⟨ts, hts, rfl⟩ := ht
        obtain ⟨us, hus, rfl⟩ := hu
        have hbelow : ∀ a b t u, T a b → d.treeWithin m a = some t → e.treeWithin n b = some u →
            t.shape = u.shape := fun _ _ _ _ => h.shape_eq
        have hshapes := shapes_eq hbelow (h.children hxy) (forall₂_of_mapM hts) (forall₂_of_mapM hus)
        rw [Tree.shape, Tree.shape, hshapes]

/-- In forests there are trees below twins, of one shape. -/
theorem Twins.exists_trees (h : Twins T d e) (hd : d.Reachable) (hdforest : d.Forest)
    (he : e.Reachable) (heforest : e.Forest) {x y : Nat} (hxy : T x y) :
    ∃ t u, d.tree? x = some t ∧ e.tree? y = some u ∧ t.shape = u.shape := by
  obtain ⟨hx, hy⟩ := h.lt_size hxy
  obtain ⟨t, ht⟩ := hdforest.exists_tree hd.linked hd.closed hx
  obtain ⟨u, hu⟩ := heforest.exists_tree he.linked he.closed hy
  exact ⟨t, u, ht, hu, h.shape_eq hxy (treeWithin_of_tree? ht) (treeWithin_of_tree? hu)⟩

end Shapes

/-- The nodes of the set have their children in the set: they are their own twins. -/
def Owns (S : Nat → Prop) (d : Document) : Prop :=
  Twins (fun x y => x = y ∧ S x) d d

namespace Owns

variable {S : Nat → Prop} {d e : Document}

theorem of_children (hlt : ∀ x, S x → x < d.size)
    (hchildren : ∀ x c : Nat, S x → c ∈ d.children x → S c) : Owns S d where
  kind := by
    rintro x _ ⟨rfl, -⟩
    rfl
  children := by
    rintro x _ ⟨rfl, hx⟩
    exact List.forall₂_same.mpr fun c hc => ⟨rfl, hchildren x c hx hc⟩
  lt_size := by
    rintro x _ ⟨rfl, hx⟩
    exact ⟨hlt x hx, hlt x hx⟩
  left := by
    rintro x x' y ⟨rfl, -⟩ ⟨rfl, -⟩
    rfl
  right := by
    rintro x y y' ⟨rfl, -⟩ ⟨rfl, -⟩
    rfl

theorem lt_size (h : Owns S d) {x : Nat} (hx : S x) : x < d.size :=
  (Twins.lt_size h ⟨rfl, hx⟩).1

theorem keep (h : Owns S d) (hsame : ∀ x, S x → d.SameAt e x) (hle : d.size ≤ e.size) : Owns S e :=
  Twins.keep h (fun x _ hx => hsame x hx.2) (fun x _ hx => hx.1 ▸ hsame x hx.2) hle hle

/-- What is written to nodes of the set creates nodes for it only. -/
theorem applyAll (h : Owns S d) {cs cs' : List Change}
    (hcs : List.Forall₂ (Change.Twin fun x y => x = y ∧ S x) cs cs')
    (heq : d.applyAll cs' = d.applyAll cs) :
    ∃ S', Owns S' (d.applyAll cs) ∧ (∀ x, S x → S' x) ∧ ∀ x, S' x → S x ∨ d.size ≤ x := by
  obtain ⟨T, htwins, hwidens⟩ := Twins.applyAll h hcs
  rw [heq] at htwins
  have hself : T = fun x y => x = y ∧ T x x := by
    funext x y
    apply propext
    constructor
    · intro hxy
      have heq : x = y := by
        rcases hwidens.new x y hxy with ⟨heq, -⟩ | ⟨k, rfl, rfl⟩
        · exact heq
        · rfl
      exact ⟨heq, heq ▸ hxy⟩
    · rintro ⟨rfl, hx⟩
      exact hx
  rw [hself] at htwins
  refine ⟨fun x => T x x, htwins, fun x hx => hwidens.old x x ⟨rfl, hx⟩, fun x hx => ?_⟩
  rcases hwidens.new x x hx with ⟨-, hx⟩ | ⟨k, rfl, -⟩
  · exact .inl hx
  · exact .inr (Nat.le_add_right ..)

end Owns

end Document

end Stencil
