import Mathlib.Data.List.Induction
import Stencil.Proofs.Instance.Revision
/- Setting the properties of an element one after another. What comes of a sequence of pairs has
   each name once, in the order in which the names first come up, with the value that comes last
   (`SumsUp`), and nothing else is so (`sumsUp_iff`). It does not matter whether the pairs are
   given at once or one by one (`foldl_withProp`). So no element that is made of its parts has two
   properties of one name (`Built.distinct`), as patching asks. -/
namespace Stencil

/-- The names that come up in a sequence, each once, in the order of their first places. -/
structure Firsts (names sequence : List String) : Prop where
  nodup : names.Nodup
  mem_iff : ∀ name, name ∈ names ↔ name ∈ sequence
  ordered : names.Pairwise fun a b => sequence.idxOf a < sequence.idxOf b

namespace Firsts

variable {names other sequence : List String} {name : String}

theorem nil : Firsts [] [] where
  nodup := List.nodup_nil
  mem_iff _ := Iff.rfl
  ordered := List.Pairwise.nil

/-- Names that have come up keep their first places in a longer sequence. -/
theorem ordered_append (h : Firsts names sequence) (more : List String) :
    names.Pairwise fun a b => (sequence ++ more).idxOf a < (sequence ++ more).idxOf b := by
  refine h.ordered.imp_of_mem fun {a b} ha hb hlt => ?_
  rw [List.idxOf_append_of_mem ((h.mem_iff a).mp ha),
    List.idxOf_append_of_mem ((h.mem_iff b).mp hb)]
  exact hlt

theorem again (h : Firsts names sequence) (hmem : name ∈ names) :
    Firsts names (sequence ++ [name]) where
  nodup := h.nodup
  mem_iff a := by
    have hname := (h.mem_iff name).mp hmem
    rw [h.mem_iff a, List.mem_append]
    exact ⟨.inl, fun ha => ha.elim id fun ha => List.mem_singleton.mp ha ▸ hname⟩
  ordered := h.ordered_append [name]

theorem next (h : Firsts names sequence) (hnew : name ∉ names) :
    Firsts (names ++ [name]) (sequence ++ [name]) where
  nodup := by
    rw [← List.concat_eq_append]
    exact h.nodup.concat hnew
  mem_iff a := by rw [List.mem_append, List.mem_append, h.mem_iff a]
  ordered := by
    refine List.pairwise_append.mpr ⟨h.ordered_append [name], List.pairwise_singleton _ _, ?_⟩
    intro a ha b hb
    obtain rfl := List.mem_singleton.mp hb
    -- `a` comes up in the sequence, and the new name at its end
    have hin := (h.mem_iff a).mp ha
    have hout : b ∉ sequence := fun hb => hnew ((h.mem_iff b).mpr hb)
    have hlt := List.idxOf_lt_length_of_mem hin
    rw [List.idxOf_append_of_mem hin, List.idxOf_append_of_notMem hout]
    omega

theorem unique (h : Firsts names sequence) (h' : Firsts other sequence) : names = other := by
  have hperm : names.Perm other := (List.perm_ext_iff_of_nodup h.nodup h'.nodup).mpr
    fun name => (h.mem_iff name).trans (h'.mem_iff name).symm
  exact hperm.eq_of_pairwise (fun a b _ _ hab hba => absurd hab (Nat.lt_asymm hba))
    h.ordered h'.ordered

end Firsts

namespace PropList

variable {pairs : List (String × PropValue)} {props other : PropList} {name : String}

/-- The properties sum up a sequence of pairs: they have the names of the pairs, in the order in
which these first come up, and each name has the value of its last pair. -/
structure SumsUp (props : PropList) (pairs : List (String × PropValue)) : Prop where
  names : Firsts (props.map Prod.fst) (pairs.map Prod.fst)
  last : ∀ name, props.lookup name = pairs.reverse.lookup name

theorem lookup_cons (name : String) (value : PropValue) (props : PropList) (key : String) :
    List.lookup key ((name, value) :: props) =
      if key = name then some value else props.lookup key := by
  by_cases h : key = name
  · rw [h, List.lookup_cons_self, if_pos rfl]
  · rw [List.lookup_cons, beq_false_of_ne h, if_neg h]

theorem lookup_eq_none (h : name ∉ props.map Prod.fst) : props.lookup name = none := by
  refine List.lookup_eq_none_iff.mpr fun p hp => bne_iff_ne.mpr fun heq => h ?_
  rw [heq]
  exact List.mem_map_of_mem hp

theorem lookup_set (name : String) (value : PropValue) (props : PropList) (key : String) :
    (set name value props).lookup key = if key = name then some value else props.lookup key := by
  induction props with
  | nil => rw [set, lookup_cons]
  | cons p rest ih =>
    obtain ⟨held, v⟩ := p
    rw [set, lookup_cons]
    by_cases h : held = name
    · subst h
      rw [if_pos rfl, lookup_cons]
      split <;> rfl
    · rw [if_neg h, lookup_cons, ih]
      by_cases hkey : key = held
      · subst hkey
        rw [if_pos rfl, if_neg h, if_pos rfl]
      · rw [if_neg hkey, if_neg hkey]

theorem names_set (name : String) (value : PropValue) (props : PropList) :
    (set name value props).map Prod.fst =
      if name ∈ props.map Prod.fst then props.map Prod.fst else props.map Prod.fst ++ [name] := by
  induction props with
  | nil => rfl
  | cons p rest ih =>
    obtain ⟨key, held⟩ := p
    by_cases h : key = name
    · simp [set, h]
    · have hmem : name ∈ ((key, held) :: rest).map Prod.fst ↔ name ∈ rest.map Prod.fst :=
        List.mem_cons.trans (or_iff_right (Ne.symm h))
      rw [set, if_neg h, List.map_cons, ih]
      by_cases hrest : name ∈ rest.map Prod.fst
      · rw [if_pos hrest, if_pos (hmem.mpr hrest), List.map_cons]
      · rw [if_neg hrest, if_neg (fun hin => hrest (hmem.mp hin)), List.map_cons, List.cons_append]

theorem nodup_set (h : (props.map Prod.fst).Nodup) (name : String) (value : PropValue) :
    ((set name value props).map Prod.fst).Nodup := by
  rw [names_set]
  by_cases hmem : name ∈ props.map Prod.fst
  · rwa [if_pos hmem]
  · rw [if_neg hmem, ← List.concat_eq_append]
    exact h.concat hmem

/-- One more property is set. -/
theorem SumsUp.set (h : props.SumsUp pairs) (name : String) (value : PropValue) :
    SumsUp (PropList.set name value props) (pairs ++ [(name, value)]) where
  names := by
    rw [names_set, List.map_append]
    by_cases hmem : name ∈ props.map Prod.fst
    · rw [if_pos hmem]
      exact h.names.again hmem
    · rw [if_neg hmem]
      exact h.names.next hmem
  last key := by
    rw [lookup_set, h.last, List.reverse_append, List.reverse_singleton, List.singleton_append,
      lookup_cons]

theorem ofPairs_append (pairs : List (String × PropValue)) (name : String) (value : PropValue) :
    ofPairs (pairs ++ [(name, value)]) = set name value (ofPairs pairs) := by
  rw [ofPairs, List.foldl_append]
  rfl

theorem sumsUp_ofPairs (pairs : List (String × PropValue)) : (ofPairs pairs).SumsUp pairs := by
  induction pairs using List.reverseRecOn with
  | nil => exact ⟨Firsts.nil, fun _ => rfl⟩
  | append_singleton pairs p ih =>
    rw [ofPairs_append]
    exact ih.set p.1 p.2

/-- Two property lists with the same names and the same value under each are one. -/
theorem ext_lookup (hnodup : (props.map Prod.fst).Nodup)
    (hnames : props.map Prod.fst = other.map Prod.fst)
    (hlookup : ∀ name, props.lookup name = other.lookup name) : props = other := by
  induction props generalizing other with
  | nil => exact (List.map_eq_nil_iff.mp hnames.symm).symm
  | cons p rest ih =>
    obtain ⟨name, value⟩ := p
    cases other with
    | nil => cases hnames
    | cons q rest' =>
      obtain ⟨name', value'⟩ := q
      obtain ⟨rfl, hrest⟩ := List.cons.inj hnames
      obtain ⟨hout, hnodup⟩ := List.nodup_cons.mp hnodup
      have hvalue := hlookup name
      rw [List.lookup_cons_self, List.lookup_cons_self] at hvalue
      obtain rfl := Option.some.inj hvalue
      rw [ih hnodup hrest fun key => ?_]
      by_cases hkey : key = name
      · subst hkey
        rw [lookup_eq_none hout, lookup_eq_none (hrest ▸ hout)]
      · have hlook := hlookup key
        rwa [lookup_cons, lookup_cons, if_neg hkey, if_neg hkey] at hlook

/-- No other properties sum up the pairs. -/
theorem sumsUp_iff : props.SumsUp pairs ↔ props = ofPairs pairs := by
  constructor
  · intro h
    have hof := sumsUp_ofPairs pairs
    exact ext_lookup h.names.nodup (h.names.unique hof.names) fun name =>
      (h.last name).trans (hof.last name).symm
  · intro h
    rw [h]
    exact sumsUp_ofPairs pairs

end PropList

namespace Fragment

theorem foldl_withProp (tag : String) (children : List Fragment)
    (pairs : List (String × PropValue)) (props : PropList) :
    pairs.foldl (fun f p => f.withProp p.1 p.2) (element tag props children) =
      element tag (pairs.foldl (fun props p => PropList.set p.1 p.2 props) props) children := by
  induction pairs generalizing props with
  | nil => rfl
  | cons p rest ih => exact ih _

/-- **What setting properties leaves.** An element that is built of a sequence of pairs has the
same properties as one that they are set on in turn. Their names are distinct, are those that come
up in the sequence, and stand in the order in which they first come up; and each name has the
value that it comes up with last. -/
theorem build_sumsUp (pairs : List (String × PropValue)) :
    ∃ props : PropList, props.SumsUp pairs ∧ ∀ tag children,
      build tag pairs children = element tag props children ∧
      pairs.foldl (fun f p => f.withProp p.1 p.2) (element tag [] children) =
        element tag props children :=
  ⟨PropList.ofPairs pairs, PropList.sumsUp_ofPairs pairs, fun tag children =>
    ⟨rfl, foldl_withProp tag children pairs []⟩⟩

/-- A name that is set twice keeps its place and has its second value. -/
example : build "a" [("href", .hole "one"), ("title", .fixed (.str "t")), ("href", .hole "two")] [] =
    .element "a" [("href", .hole "two"), ("title", .fixed (.str "t"))] [] := by rfl

/-- The fragments that are made of their parts, with properties set by name. -/
inductive Built : Fragment → Prop where
  | text (value : Scalar) : Built (.text value)
  | hole (name : String) : Built (.hole name)
  | build (tag : String) (pairs : List (String × PropValue)) {children : List Fragment} :
      (∀ f ∈ children, Built f) → Built (Fragment.build tag pairs children)
  | withProp {f : Fragment} (name : String) (value : PropValue) :
      Built f → Built (f.withProp name value)
  | withChild {f child : Fragment} : Built f → Built child → Built (f.withChild child)

theorem allDistinct_iff {fs : List Fragment} : AllDistinct fs ↔ ∀ f ∈ fs, f.Distinct := by
  induction fs with
  | nil => exact iff_of_true trivial fun _ h => absurd h List.not_mem_nil
  | cons f rest ih => rw [AllDistinct, ih, List.forall_mem_cons]

theorem Built.distinct {f : Fragment} (h : f.Built) : f.Distinct := by
  induction h with
  | text value => trivial
  | hole name => trivial
  | build tag pairs _ ih =>
    exact ⟨(PropList.sumsUp_ofPairs pairs).names.nodup, allDistinct_iff.mpr ih⟩
  | @withProp f name value _ ih =>
    cases f with
    | element tag props children =>
      exact ⟨PropList.nodup_set ih.1 name value, ih.2⟩
    | _ => exact ih
  | @withChild f child _ _ ih ihchild =>
    cases f with
    | element tag props children =>
      refine ⟨ih.1, allDistinct_iff.mpr fun g hg => ?_⟩
      rcases List.mem_append.mp hg with hg | hg
      · exact allDistinct_iff.mp ih.2 g hg
      · exact List.mem_singleton.mp hg ▸ ihchild
    | _ => exact ih

end Fragment

end Stencil
