import Mathlib.Data.List.Basic
import Stencil.Proofs.Bindings
import Stencil.Proofs.Markup.Escaping
/- Normal forms of trees: what markup keeps. Texts that stand next to each other become one, empty
   texts go, and of an attribute's value only its text is left, or the mark of a callback. The
   markup of a tree is that of its normal form (`toList_trees`), and a normal form can be told from
   its markup (`writes_inj`): each part ends at the first character that it cannot have itself.
   The induction is on the normal form, with whatever follows on both sides. -/
namespace Stencil

/-- A node in normal form: a text, or an element with its attributes in the order of their names,
each with the text of its value if that is no callback. -/
inductive Normal where
  | text (content : String)
  | element (tag : String) (attributes : List (String × Option String)) (children : List Normal)

namespace Normal

/-- Nodes in normal form with a text put before them. -/
def consText (content : String) : List Normal → List Normal
  | text next :: rest => text (content ++ next) :: rest
  | rest => if content = "" then rest else text content :: rest

/-- The text of a value that is no callback. -/
def valueText : Scalar → Option String
  | .callback _ => none
  | value => some value.text

/-- Attributes in the order of their names, each with the text of its value. -/
def ofAttributes (attributes : List (String × Scalar)) : List (String × Option String) :=
  (attributes.map fun a => (a.1, valueText a.2)).mergeSort fun a b => a.1 ≤ b.1

end Normal

namespace Tree

mutual
/-- Nodes in normal form with a tree put before them. -/
def consNormal : Tree → List Normal → List Normal
  | .text _ content, rest => Normal.consText content rest
  | .element _ tag attributes children, rest =>
    .element tag (Normal.ofAttributes attributes) (normals children) :: rest

/-- The normal form of several trees in turn. -/
def normals : List Tree → List Normal
  | [] => []
  | t :: rest => t.consNormal (normals rest)
end

/-- The normal form of a tree: one node, or none for an empty text. -/
def normal (t : Tree) : List Normal :=
  t.consNormal []

mutual
/-- The condition holds of all elements of the tree, as a condition on their tags and attributes. -/
def All (P : String → Bindings Scalar → Prop) : Tree → Prop
  | .text _ _ => True
  | .element _ tag attributes children => P tag attributes ∧ AllOf P children

/-- The condition holds of all elements of the trees. -/
def AllOf (P : String → Bindings Scalar → Prop) : List Tree → Prop
  | [] => True
  | t :: rest => t.All P ∧ AllOf P rest
end

end Tree

namespace Markup

/-- The name is not empty, and has no character that markup gives a meaning to. -/
def Plain (name : String) : Prop :=
  name ≠ "" ∧ ∀ c ∈ name.toList, c ∉ [' ', '<', '>', '/', '=', '"', '&']

/-- The tag and the names of the attributes are plain. -/
def PlainNames (tag : String) (attributes : Bindings Scalar) : Prop :=
  Plain tag ∧ ∀ a ∈ attributes, Plain a.1

/-- The names are plain, and those of the attributes are in order. -/
def Regular (tag : String) (attributes : Bindings Scalar) : Prop :=
  PlainNames tag attributes ∧ attributes.Sorted

end Markup

open Markup (Plain Regular escape)

namespace Normal

/-- An attribute after its name. -/
def writeValue : Option String → List Char
  | none => []
  | some value => '=' :: '"' :: ((escape true value).toList ++ ['"'])

/-- Attributes in turn. -/
def writeAttributes : List (String × Option String) → List Char
  | [] => []
  | (name, value) :: rest => ' ' :: (name.toList ++ (writeValue value ++ writeAttributes rest))

mutual
/-- The markup of a node in normal form. -/
def write : Normal → List Char
  | text content => (escape false content).toList
  | element tag attributes children =>
    '<' :: (tag.toList ++ (writeAttributes attributes ++
      '>' :: (writes children ++ '<' :: '/' :: (tag.toList ++ ['>']))))

/-- The markup of several nodes in turn. -/
def writes : List Normal → List Char
  | [] => []
  | n :: rest => n.write ++ writes rest
end

/-- Whether the node is a text. -/
def isText : Normal → Bool
  | text _ => true
  | element _ _ _ => false

mutual
/-- No text in the node is empty or next to another, and its names are plain. -/
def Proper : Normal → Prop
  | text content => content ≠ ""
  | element tag attributes children =>
    (Plain tag ∧ ∀ a ∈ attributes, Plain a.1) ∧ AllProper children

/-- No text is empty or next to another, and all names are plain. -/
def AllProper : List Normal → Prop
  | [] => True
  | n :: rest => n.Proper ∧ (n.isText = true → rest.head?.all (!·.isText) = true) ∧ AllProper rest
end

theorem writes_consText (content : String) (rest : List Normal) :
    writes (consText content rest) = (escape false content).toList ++ writes rest := by
  unfold consText
  split
  · simp [writes, write, Markup.toList_escape]
  · split
    · rename_i h
      subst h
      simp [Markup.toList_escape]
    · rfl

theorem allProper_consText (content : String) {rest : List Normal} (h : AllProper rest) :
    AllProper (consText content rest) := by
  unfold consText
  split
  · rename_i next rest
    obtain ⟨hnext, halone, hrest⟩ := h
    refine ⟨fun hempty => hnext ?_, halone, hrest⟩
    have hlist := congrArg String.toList hempty
    rw [String.toList_append] at hlist
    exact String.toList_inj.mp (List.append_eq_nil_iff.mp hlist).2
  · rename_i hout
    split
    · exact h
    · rename_i hne
      refine ⟨hne, fun _ => ?_, h⟩
      cases rest with
      | nil => rfl
      | cons n rest =>
        cases n with
        | text next => exact absurd rfl (hout next rest)
        | element => rfl

theorem toList_bindings : ∀ held : Bindings Scalar,
    (Markup.bindings held).toList = writeAttributes (held.map fun a => (a.1, valueText a.2))
  | [] => rfl
  | (name, value) :: rest => by
    rw [Markup.bindings, String.toList_append, toList_bindings rest, List.map_cons, writeAttributes]
    cases value <;> simp [Markup.binding, valueText, writeValue]

/-- Attributes that are in order stay as they are. -/
theorem ofAttributes_of_sorted {held : Bindings Scalar} (h : held.Sorted) :
    ofAttributes held = held.map fun a => (a.1, valueText a.2) := by
  refine List.mergeSort_of_pairwise (List.pairwise_map.mpr ?_)
  exact h.imp fun hlt => decide_eq_true (le_of_lt hlt)

end Normal

mutual
/-- The markup of a tree is that of its normal form. -/
theorem Tree.toList_tree : ∀ {t : Tree} (rest : List Normal), t.All Regular →
    Normal.writes (t.consNormal rest) = (Markup.tree t).toList ++ Normal.writes rest
  | .text id content, rest, _ => Normal.writes_consText content rest
  | .element id tag attributes children, rest, ⟨hregular, hchildren⟩ => by
    rw [consNormal, Normal.writes, Normal.write, Markup.tree,
      Normal.ofAttributes_of_sorted hregular.2, Tree.toList_trees hchildren]
    simp [Normal.toList_bindings]

theorem Tree.toList_trees : ∀ {ts : List Tree}, Tree.AllOf Regular ts →
    Normal.writes (Tree.normals ts) = (Markup.trees ts).toList
  | [], _ => rfl
  | t :: rest, ⟨ht, hrest⟩ => by
    rw [Tree.normals, Tree.toList_tree _ ht, Tree.toList_trees hrest, Markup.trees,
      String.toList_append]
end

mutual
theorem Tree.allProper_consNormal : ∀ {t : Tree} {rest : List Normal}, t.All Regular →
    Normal.AllProper rest → Normal.AllProper (t.consNormal rest)
  | .text id content, rest, _, h => Normal.allProper_consText content h
  | .element id tag attributes children, rest, ⟨⟨⟨htag, hnames⟩, hsorted⟩, hchildren⟩, h => by
    rw [consNormal, Normal.ofAttributes_of_sorted hsorted]
    refine ⟨⟨⟨htag, fun a ha => ?_⟩, Tree.allProper_normals hchildren⟩, fun htext => ?_, h⟩
    · obtain ⟨b, hb, rfl⟩ := List.mem_map.mp ha
      exact hnames b hb
    · cases htext

theorem Tree.allProper_normals : ∀ {ts : List Tree}, Tree.AllOf Regular ts →
    Normal.AllProper (Tree.normals ts)
  | [], _ => trivial
  | _ :: _, ⟨ht, hrest⟩ => Tree.allProper_consNormal ht (Tree.allProper_normals hrest)
end

namespace Normal

/-- What consists of characters of one kind ends at the first character of another kind. -/
theorem append_inj_of_head {p : Char → Prop} {as bs xs ys : List Char} (ha : ∀ c ∈ as, p c)
    (hb : ∀ c ∈ bs, p c) (hx : ∀ c ∈ xs.head?, ¬p c) (hy : ∀ c ∈ ys.head?, ¬p c)
    (h : as ++ xs = bs ++ ys) : as = bs ∧ xs = ys := by
  rcases List.append_eq_append_iff.mp h with ⟨cs, rfl, rfl⟩ | ⟨cs, rfl, rfl⟩
  · cases cs with
    | nil => simp
    | cons c cs => exact (hx c (by simp) (hb c (by simp))).elim
  · cases cs with
    | nil => simp
    | cons c cs => exact (hy c (by simp) (ha c (by simp))).elim

/-- A plain name ends at the first character that it cannot have. -/
theorem plain_append_inj {s t : String} {xs ys : List Char} (hs : Plain s) (ht : Plain t)
    (hx : ∀ c ∈ xs.head?, c = ' ' ∨ c = '>' ∨ c = '=')
    (hy : ∀ c ∈ ys.head?, c = ' ' ∨ c = '>' ∨ c = '=') (h : s.toList ++ xs = t.toList ++ ys) :
    s = t ∧ xs = ys := by
  have hstop : ∀ c, c = ' ' ∨ c = '>' ∨ c = '=' → ¬c ∉ [' ', '<', '>', '/', '=', '"', '&'] := by
    rintro c (rfl | rfl | rfl) <;> simp
  obtain ⟨hst, hxy⟩ := append_inj_of_head hs.2 ht.2 (fun c hc => hstop c (hx c hc))
    (fun c hc => hstop c (hy c hc)) h
  exact ⟨String.toList_inj.mp hst, hxy⟩

theorem head?_writeAttributes (as : List (String × Option String)) (rest : List Char) :
    ∀ c ∈ (writeAttributes as ++ '>' :: rest).head?, c = ' ' ∨ c = '>' := by
  cases as <;> simp [writeAttributes]

theorem head?_writeValue (value : Option String) {rest : List Char}
    (h : ∀ c ∈ rest.head?, c = ' ' ∨ c = '>') :
    ∀ c ∈ (writeValue value ++ rest).head?, c = ' ' ∨ c = '>' ∨ c = '=' := by
  cases value with
  | none => exact fun c hc => (h c hc).imp_right .inl
  | some value => simp [writeValue]

/-- A value can be told from what is written after the name. -/
theorem writeValue_inj {v w : Option String} {xs ys : List Char}
    (hx : ∀ c ∈ xs.head?, c = ' ' ∨ c = '>') (hy : ∀ c ∈ ys.head?, c = ' ' ∨ c = '>')
    (h : writeValue v ++ xs = writeValue w ++ ys) : v = w ∧ xs = ys := by
  cases v with
  | none =>
    cases w with
    | none => exact ⟨rfl, h⟩
    | some w =>
      obtain rfl : xs = _ := h
      simp [writeValue] at hx
  | some v =>
    cases w with
    | none =>
      obtain rfl : _ = ys := h
      simp [writeValue] at hy
    | some w =>
      simp only [writeValue, List.cons_append, List.append_assoc, List.nil_append, List.cons.injEq,
        true_and] at h
      -- the value ends at the first quote
      obtain ⟨hvw, hxy⟩ := append_inj_of_head (fun c hc => (Markup.ne_of_mem_escape hc).2.2 rfl)
        (fun c hc => (Markup.ne_of_mem_escape hc).2.2 rfl) (by simp) (by simp) h
      exact ⟨congrArg some (Markup.escape_injective hvw), (List.cons.inj hxy).2⟩

theorem writeAttributes_inj : ∀ {as bs : List (String × Option String)} {xs ys : List Char},
    (∀ a ∈ as, Plain a.1) → (∀ b ∈ bs, Plain b.1) →
    writeAttributes as ++ '>' :: xs = writeAttributes bs ++ '>' :: ys → as = bs ∧ xs = ys
  | [], [], xs, ys, _, _, h => ⟨rfl, (List.cons.inj h).2⟩
  | [], (name, value) :: bs, xs, ys, _, _, h => by simp [writeAttributes] at h
  | (name, value) :: as, [], xs, ys, _, _, h => by simp [writeAttributes] at h
  | (name, value) :: as, (name', value') :: bs, xs, ys, ha, hb, h => by
    rw [List.forall_mem_cons] at ha hb
    simp only [writeAttributes, List.cons_append, List.append_assoc, List.cons.injEq,
      true_and] at h
    have hxs := head?_writeAttributes as xs
    have hys := head?_writeAttributes bs ys
    obtain ⟨hname, hnext⟩ := plain_append_inj ha.1 hb.1 (head?_writeValue value hxs)
      (head?_writeValue value' hys) h
    obtain ⟨hvalue, hmore⟩ := writeValue_inj hxs hys hnext
    obtain ⟨hrest, hxy⟩ := writeAttributes_inj ha.2 hb.2 hmore
    exact ⟨by rw [show name = name' from hname, hvalue, hrest], hxy⟩

/-- Nothing is left, or a tag comes next. -/
def Stops (cs : List Char) : Prop :=
  ∀ c ∈ cs.head?, c = '<'

/-- Nothing is left, or a closing tag comes next. -/
def Closes (cs : List Char) : Prop :=
  cs = [] ∨ ∃ rest, cs = '<' :: '/' :: rest

theorem Closes.stops {cs : List Char} (h : Closes cs) : Stops cs := by
  rcases h with rfl | ⟨rest, rfl⟩ <;> simp [Stops]

/-- A text comes to an end where nothing but another node can come next. -/
theorem stops_writes {n : Normal} {ns : List Normal} {rest : List Char} (h : AllProper (n :: ns))
    (hrest : Closes rest) (htext : n.isText = true) : Stops (writes ns ++ rest) := by
  cases ns with
  | nil => exact hrest.stops
  | cons m ns =>
    cases m with
    | text content => simpa [isText] using h.2.1 htext
    | element tag attributes children => simp [Stops, writes, write]

theorem not_stops_escape {content : String} (h : content ≠ "") (rest : List Char) :
    ¬Stops ((escape false content).toList ++ rest) := by
  intro hstops
  obtain ⟨c, cs, hcs⟩ := List.exists_cons_of_ne_nil (@Markup.escape_ne_nil false content h)
  have hc : c ≠ '<' := (@Markup.ne_of_mem_escape false content c (by simp [hcs])).1
  exact hc (hstops c (by simp [hcs]))

/-- No node begins as a closing tag does. -/
theorem not_closes_write {n : Normal} (h : n.Proper) (rest : List Char) :
    ¬Closes (n.write ++ rest) := by
  cases n with
  | text content => exact fun hcloses => not_stops_escape h rest hcloses.stops
  | element tag attributes children =>
    obtain ⟨c, cs, hcs⟩ := List.exists_cons_of_ne_nil
      (fun hnil => h.1.1.1 (String.toList_inj.mp hnil) : tag.toList ≠ [])
    have hc : c ≠ '/' := fun heq => h.1.1.2 c (by simp [hcs]) (by simp [heq])
    rintro (hnil | ⟨cs', hcons⟩)
    · simp [write] at hnil
    · simp only [write, hcs, List.cons_append, List.cons.injEq, true_and] at hcons
      exact hc hcons.1

mutual
/-- A node can be told from its markup, whatever comes next. -/
theorem write_inj : ∀ {n m : Normal} {xs ys : List Char}, n.Proper → m.Proper →
    (n.isText = true → Stops xs) → (m.isText = true → Stops ys) →
    n.write ++ xs = m.write ++ ys → n = m ∧ xs = ys
  | .text content, .text content', xs, ys, _, _, hx, hy, h => by
    have hstop : ∀ {cs : List Char}, Stops cs → ∀ c ∈ cs.head?, ¬c ≠ '<' :=
      fun hcs c hc hne => hne (hcs c hc)
    obtain ⟨hcontent, hxy⟩ := append_inj_of_head (fun c hc => (Markup.ne_of_mem_escape hc).1)
      (fun c hc => (Markup.ne_of_mem_escape hc).1) (hstop (hx rfl)) (hstop (hy rfl)) h
    exact ⟨congrArg text (Markup.escape_injective hcontent), hxy⟩
  | .text content, .element tag attributes children, xs, ys, hn, _, _, _, h => by
    refine (not_stops_escape hn xs ?_).elim
    rw [write] at h
    simp [h, Stops, write]
  | .element tag attributes children, .text content, xs, ys, _, hm, _, _, h => by
    refine (not_stops_escape hm ys ?_).elim
    rw [write.eq_1 content] at h
    simp [← h, Stops, write]
  | .element tag attributes children, .element tag' attributes' children', xs, ys, hn, hm, _, _,
      h => by
    obtain ⟨⟨htag, hnames⟩, hchildren⟩ := hn
    obtain ⟨⟨htag', hnames'⟩, hchildren'⟩ := hm
    simp only [write, List.cons_append, List.append_assoc, List.cons.injEq, true_and] at h
    obtain ⟨rfl, hnext⟩ := plain_append_inj htag htag'
      (fun c hc => (head?_writeAttributes _ _ c hc).imp_right .inl)
      (fun c hc => (head?_writeAttributes _ _ c hc).imp_right .inl) h
    obtain ⟨rfl, hinner⟩ := writeAttributes_inj hnames hnames' hnext
    obtain ⟨rfl, hclose⟩ := writes_inj hchildren hchildren' (.inr ⟨_, rfl⟩) (.inr ⟨_, rfl⟩) hinner
    simpa using hclose

/-- **Nodes in normal form can be told from their markup**, if what comes next is no node. -/
theorem writes_inj : ∀ {ns ms : List Normal} {xs ys : List Char}, AllProper ns → AllProper ms →
    Closes xs → Closes ys → writes ns ++ xs = writes ms ++ ys → ns = ms ∧ xs = ys
  | [], [], xs, ys, _, _, _, _, h => ⟨rfl, h⟩
  | [], m :: ms, xs, ys, _, hm, hx, _, h => by
    refine (not_closes_write hm.1 (writes ms ++ ys) ?_).elim
    rwa [← List.append_assoc, ← writes, ← h]
  | n :: ns, [], xs, ys, hn, _, _, hy, h => by
    refine (not_closes_write hn.1 (writes ns ++ xs) ?_).elim
    rwa [← List.append_assoc, ← writes, h]
  | n :: ns, m :: ms, xs, ys, hn, hm, hx, hy, h => by
    rw [writes, writes, List.append_assoc, List.append_assoc] at h
    obtain ⟨rfl, hnext⟩ := write_inj hn.1 hm.1 (stops_writes hn hx) (stops_writes hm hy) h
    obtain ⟨rfl, hxy⟩ := writes_inj hn.2.2 hm.2.2 hx hy hnext
    exact ⟨rfl, hxy⟩
end

end Normal

/-- **Trees have the same markup if and only if they have the same normal form.** -/
theorem Tree.normal_eq_iff {t u : Tree} (ht : t.All Regular) (hu : u.All Regular) :
    Markup.tree t = Markup.tree u ↔ t.normal = u.normal := by
  have htree : ∀ {t : Tree}, t.All Regular → (Markup.tree t).toList = Normal.writes t.normal := by
    intro t h
    rw [Tree.normal, Tree.toList_tree [] h, Normal.writes, List.append_nil]
  have hproper : ∀ {t : Tree}, t.All Regular → Normal.AllProper t.normal := by
    intro t h
    exact Tree.allProper_consNormal h trivial
  constructor
  · intro h
    have hwrites : Normal.writes t.normal ++ [] = Normal.writes u.normal ++ [] := by
      rw [← htree ht, ← htree hu, h]
    exact (Normal.writes_inj (hproper ht) (hproper hu) (.inl rfl) (.inl rfl) hwrites).1
  · intro h
    rw [← String.toList_inj, htree ht, htree hu, h]

end Stencil
