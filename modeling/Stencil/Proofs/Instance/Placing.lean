import Stencil.Proofs.Instance.Run
/- The parts of a mount. `Filled` says what a run over the edits of some fragments leaves:
   they are placed, their nested instances stand, and all else is kept. It is true of one
   hole (`filled_leaf`, `filled_nested`), and what was filled first stays while the rest
   is filled (`Filled.cons`). `arranged` is the list of children that comes of it. -/
namespace Stencil

open Progress (shows refuses Ends)

/-- What the edits below a node leave as it was: the nodes that are not touched, the
rendering of the slots, and the slots other than those of the nested instances. -/
structure Progress.Keeps (source : Block → Fragment) (block : Block) (es : List Edit)
    (touched : List Nat) (p q : Progress) : Prop where
  evolves : p.stage.document.Evolves q.stage.document
  same : ∀ x, x < p.stage.document.size → x ∉ touched →
    p.stage.document.SameAt q.stage.document x
  showing : ∀ slot, shows source q.props slot = shows source p.props slot
  slots : ∀ slot, q.props.get? slot = p.props.get? slot ∨
    block.usesOf slot ≤ 1 ∧ ∃ e ∈ es, e.hole = slot

namespace Progress.Keeps

variable {source : Block → Fragment} {block : Block} {es es' : List Edit}
  {touched touched' : List Nat} {p q r : Progress}

theorem size_le (h : Keeps source block es touched p q) :
    p.stage.document.size ≤ q.stage.document.size :=
  h.evolves.size_le

theorem refl : Keeps source block [] touched p p :=
  ⟨.refl, fun _ _ _ => .refl .., fun _ => rfl, fun _ => .inl rfl⟩

theorem mono (h : Keeps source block es touched p q) (hsub : ∀ x ∈ touched, x ∈ touched') :
    Keeps source block es touched' p q :=
  ⟨h.evolves, fun x hx ht => h.same x hx fun hm => ht (hsub x hm), h.showing, h.slots⟩

theorem trans (h : Keeps source block es touched p q) (h' : Keeps source block es' touched q r) :
    Keeps source block (es ++ es') touched p r where
  evolves := h.evolves.trans h'.evolves
  same x hx ht :=
    (h.same x hx ht).trans (h'.same x (Nat.lt_of_lt_of_le hx h.size_le) ht)
  showing slot := (h'.showing slot).trans (h.showing slot)
  slots slot := by
    rcases h'.slots slot with heq | ⟨huses, e, he, hslot⟩
    · rcases h.slots slot with heq' | ⟨huses, e, he, hslot⟩
      · exact .inl (heq.trans heq')
      · exact .inr ⟨huses, e, List.mem_append_left _ he, hslot⟩
    · exact .inr ⟨huses, e, List.mem_append_right _ he, hslot⟩

end Progress.Keeps

/-- A slot whose nested instance mounts once is read by one of two runs of edits only. -/
theorem Block.not_mem_of_usesOf {b : Block} {es es' : List Edit} {slot : String}
    (hsub : (es ++ es').Sublist b.edits) (huses : b.usesOf slot ≤ 1)
    (h : ∃ e ∈ es, e.hole = slot) : ¬ ∃ e ∈ es', e.hole = slot := by
  intro h'
  have hcount : ∀ {fs : List Edit}, (∃ e ∈ fs, e.hole = slot) →
      0 < fs.countP fun e => e.hole == slot := by
    rintro fs ⟨e, he, rfl⟩
    exact List.countP_pos_iff.mpr ⟨e, he, by simp⟩
  have hle := hsub.countP_le (p := fun e => e.hole == slot)
  rw [List.countP_append] at hle
  have := hcount h
  have := hcount h'
  simp only [usesOf, Edit.usesOf] at huses
  omega

namespace Fragment

/-- What a run over the edits of fragments leaves when it succeeds: they are placed at
layouts of new nodes and of the nodes in `room`. -/
structure Filled (source : Block → Fragment) (block : Block) (slots : Bindings Value)
    (es : List Edit) (touched room : List Nat) (p q : Progress) (fs : List Fragment)
    (Ls : List Layout) : Prop where
  keeps : p.Keeps source block es touched q
  placed : AllPlaced q.stage.document (shows source slots) fs Ls
  held : ∀ n K, (n, K) ∈ allHeld (Bindings.get? q.props) fs Ls →
    n.Stands source q.stage.document K
  nodup : (Layout.allIds Ls).Nodup
  within : ∀ x ∈ Layout.allIds Ls,
    x ∈ room ∨ p.stage.document.size ≤ x ∧ x < q.stage.document.size

namespace Filled

variable {source : Block → Fragment} {block : Block} {slots : Bindings Value}
  {es es' : List Edit} {touched touched' room room' : List Nat} {p q r : Progress}
  {f : Fragment} {fs : List Fragment} {L : Layout} {Ls : List Layout}

/-- What was filled first stays as it is while the rest is filled. -/
theorem cons (h : Filled source block slots es touched room p q [f] [L])
    (h' : Filled source block slots es' touched' room' q r fs Ls)
    (hes : ∀ hole ∈ f.holes, ∃ e ∈ es, e.hole = hole) (hsub : (es ++ es').Sublist block.edits)
    (htouched : ∀ x ∈ touched', x < p.stage.document.size ∧ x ∉ room)
    (hroom : ∀ x ∈ room, x < p.stage.document.size)
    (hroom' : ∀ x ∈ room', x ∈ touched') {both : List Nat}
    (hboth : ∀ x, x ∈ touched ∨ x ∈ touched' → x ∈ both) :
    Filled source block slots (es ++ es') both (room ++ room') p r (f :: fs) (L :: Ls) := by
  -- the second run touches none of the nodes that the first has left
  have hnew : ∀ x ∈ L.ids, x < q.stage.document.size ∧ x ∉ touched' := by
    intro x hx
    have hsize := h.keeps.size_le
    rcases h.within x (by simpa [Layout.allIds] using hx) with hx | ⟨hge, hlt⟩
    · exact ⟨Nat.lt_of_lt_of_le (hroom x hx) hsize, fun hm => (htouched x hm).2 hx⟩
    · exact ⟨hlt, fun hm => absurd (htouched x hm).1 (Nat.not_lt_of_le hge)⟩
  have hsame : ∀ x ∈ L.ids, q.stage.document.SameAt r.stage.document x := fun x hx =>
    h'.keeps.same x (hnew x hx).1 (hnew x hx).2
  -- nor does it change a slot of the first, which would have two edits then
  have hslots : ∀ hole ∈ f.holes, Bindings.get? r.props hole = Bindings.get? q.props hole := by
    intro hole hm
    rcases h'.keeps.slots hole with heq | ⟨huses, hmem⟩
    · exact heq
    · exact absurd hmem (Block.not_mem_of_usesOf hsub huses (hes hole hm))
  constructor
  · exact (h.keeps.mono fun x hx => hboth x (.inl hx)).trans
      (h'.keeps.mono fun x hx => hboth x (.inr hx))
  · refine ⟨h.placed.1.congr (fun _ _ => rfl) fun x hx => ?_, h'.placed⟩
    exact hsame x ((own_sublist f L).subset hx)
  · intro n K hm
    rcases List.mem_append.mp hm with hm | hm
    · rw [held_congr hslots] at hm
      have hstands := h.held n K (by simpa [allHeld] using hm)
      exact hstands.congr fun x hx => hsame x ((ids_of_mem_held hm).1 hx)
    · exact h'.held n K hm
  · rw [Layout.allIds, List.nodup_append]
    refine ⟨by simpa [Layout.allIds] using h.nodup, h'.nodup, ?_⟩
    rintro x hx y hy rfl
    rcases h'.within x hy with hr | ⟨hge, -⟩
    · exact (hnew x hx).2 (hroom' x hr)
    · exact absurd (hnew x hx).1 (Nat.not_lt_of_le hge)
  · intro x hx
    have hsize := h.keeps.size_le
    have hsize' := h'.keeps.size_le
    rcases List.mem_append.mp hx with hx | hx
    · rcases h.within x (by simpa [Layout.allIds] using hx) with hx | ⟨hge, hlt⟩
      · exact .inl (List.mem_append_left _ hx)
      · exact .inr ⟨hge, Nat.lt_of_lt_of_le hlt hsize'⟩
    · rcases h'.within x hx with hx | ⟨hge, hlt⟩
      · exact .inl (List.mem_append_right _ hx)
      · exact .inr ⟨Nat.le_trans hsize hge, hlt⟩

end Filled

section Heads

variable {source : Block → Fragment} {block : Block} {slots : Bindings Value} {p q : Progress}
  {x index : Nat} {path : Path} {name : String}

theorem filled_leaf {value : Scalar}
    (hshowing : ∀ slot, shows source p.props slot = shows source slots slot)
    (hx : x < p.stage.document.size) (hv : slots.get? name = some (.scalar value))
    (hprops : q.props = p.props)
    (hdoc : q.stage.document = (p.stage.document.createText value.text).insertChild x index
      p.stage.document.size) :
    Filled source block slots [.child path index name] [x] [] p q [.hole name]
      [.node p.stage.document.size []] := by
  have hshows : shows source slots name = some (.scalar value) := by
    simp [shows, hv, Value.showing]
  have hsize : q.stage.document.size = p.stage.document.size + 1 := by simp [hdoc]
  constructor
  · refine ⟨?_, fun y hy hne => ?_, fun slot => by rw [hprops], fun slot => .inl (by rw [hprops])⟩
    · rw [hdoc]
      exact Document.evolves_insertText _ _ hx
    · rw [hdoc]
      exact .of_node? (Document.node?_insertText _ _ hy (by simpa using hne))
  · refine ⟨?_, trivial⟩
    simp only [Placed, hshows, hdoc, Document.kind?_insertChild, Document.kind?_createText, if_true]
  · intro n K hm
    simp only [allHeld, held, List.append_nil] at hm
    split at hm
    · rename_i nested hn
      have hkept : shows source q.props name = some (.scalar value) := by
        rw [hprops, hshowing, hshows]
      simp [shows, hn, Value.showing] at hkept
    · simp at hm
  · simp [Layout.allIds, Layout.ids]
  · intro y hy
    simp only [Layout.allIds, Layout.ids, List.append_nil, List.mem_singleton] at hy
    exact .inr ⟨by omega, by omega⟩

theorem filled_nested {n : Instance} {L : Layout}
    (hshowing : ∀ slot, shows source p.props slot = shows source slots slot)
    (hclosed : p.stage.document.Closed) (hx : x < p.stage.document.size)
    (hv : slots.get? name = some (.block n)) (huses : block.usesOf name ≤ 1)
    (hunmounted : n.isMounted = false)
    (hlands : n.Lands source p.stage.document (n.mount x p.stage) L)
    (hdoc : q.stage.document = (n.mount x p.stage).stage.document)
    (hprops : q.props = p.props.insert name (.block (n.mount x p.stage).mounted)) :
    Filled source block slots [.child path index name] [x] [] p q [.hole name] [L] := by
  have hhosts := Instance.mount_hosts n hclosed hx hunmounted
  rw [← hdoc] at hhosts
  have hget : ∀ slot, q.props.get? slot = if slot = name
      then some (.block (n.mount x p.stage).mounted) else p.props.get? slot := by
    intro slot
    rw [hprops, Bindings.get?_insert]
  constructor
  · refine ⟨hhosts.evolves, fun y hy hne => ?_, fun slot => ?_, fun slot => ?_⟩
    · exact ⟨hhosts.kind y hy, hhosts.children y hy (by simpa using hne)⟩
    · by_cases hslot : slot = name
      · subst hslot
        rw [hshowing, shows, shows, hget, if_pos rfl, hv]
        simp [Value.showing, hlands.render]
      · rw [shows, shows, hget, if_neg hslot]
    · by_cases hslot : slot = name
      · subst hslot
        exact .inr ⟨huses, _, List.mem_singleton_self _, rfl⟩
      · exact .inl (by rw [hget, if_neg hslot])
  · refine ⟨?_, trivial⟩
    obtain ⟨id, kids⟩ := L
    simp [Placed, shows, hv, Value.showing]
  · intro m K hm
    have hname : Bindings.get? q.props name = some (.block (n.mount x p.stage).mounted) := by
      rw [hget, if_pos rfl]
    simp only [allHeld, held, hname, List.append_nil, List.mem_singleton, Prod.mk.injEq] at hm
    obtain ⟨rfl, rfl⟩ := hm
    rw [hdoc]
    exact hlands.stands
  · simpa [Layout.allIds] using hlands.nodup
  · intro y hy
    rw [hdoc]
    exact .inr (hlands.fresh y (by simpa [Layout.allIds] using hy))

end Heads

/-- The children of a node once the rest of its fragments are filled, with the entries
that stand for them: those before, if no nested instance comes, and of the rest only the
holes, if one came before. -/
def arranged (slots : String → Option Showing) (covered : Bool) (before : List Nat)
    (fs : List Fragment) (ids : List Nat) : List Nat :=
  if fs.any (isBlock slots) then staying slots fs ids
  else before ++ if covered then ofHoles fs ids else ids

section Arranged

variable {slots : String → Option Showing} {covered : Bool} {before ids : List Nat}
  {f : Fragment} {fs : List Fragment}

theorem arranged_leaf {name : String} (hblock : (hole name).isBlock slots = false) (x : Nat) :
    arranged slots covered before (hole name :: fs) (x :: ids) =
      arranged slots covered (before ++ [x]) fs ids := by
  cases hany : fs.any (isBlock slots) <;> cases covered <;>
    simp [-List.any_eq_true, -List.any_eq_false, arranged, hblock, hany, staying, ofHoles, hole?]

theorem arranged_nested {name : String} (hblock : (hole name).isBlock slots = true) (x : Nat) :
    arranged slots covered before (hole name :: fs) (x :: ids) = arranged slots true [x] fs ids := by
  simp [arranged, hblock, staying]

theorem arranged_static (hf : f.hole? = none) (x : Nat) :
    arranged slots covered before (f :: fs) (x :: ids) =
      arranged slots covered (if covered then before else before ++ [x]) fs ids := by
  have hblock : f.isBlock slots = false := by
    cases f <;> simp_all [isBlock, hole?]
  cases hany : fs.any (isBlock slots) <;> cases covered <;>
    simp [-List.any_eq_true, -List.any_eq_false, arranged, hblock, hany, staying, ofHoles, hf]

theorem arranged_all (hlen : ids.length = fs.length) :
    arranged slots false [] fs ids = staying slots fs ids := by
  unfold arranged
  split
  · rfl
  · rename_i hany
    simp [staying_of_scalars (by simpa using hany) hlen]

end Arranged

end Fragment

end Stencil
