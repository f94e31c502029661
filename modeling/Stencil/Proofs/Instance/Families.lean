import Stencil.Proofs.Instance.Renewal
/- The children of each element of a fragment (`families`), and which of them an edit finds again.
   A child edit has the index of its hole in the fragment, but where a nested instance has put
   children out of the tree, another child may stand at that index, or none. Whether it is a text
   (`FindsTexts`), and whether there is one at all (`FindsAll`), can be read off the children and
   the kinds of the slots. Where both are so for all scalars, each of them has its own index among
   the children that stay (`staying_of_finds`): a nested instance then comes before all scalars of
   its element, with nothing but holes after it. -/
namespace Stencil

namespace Fragment

mutual
/-- The children of each element of a fragment. -/
def families : Fragment → List (List Fragment)
  | element _ _ children => children :: allFamilies children
  | _ => []

/-- The children of each element of the fragments. -/
def allFamilies : List Fragment → List (List Fragment)
  | [] => []
  | f :: rest => f.families ++ allFamilies rest
end

/-- Whether the fragment stands as a text node: a text, or a hole with a scalar. -/
def isLeaf (slots : String → Option Showing) : Fragment → Bool
  | text _ => true
  | hole name => !(hole name).isBlock slots
  | element _ _ _ => false

/-- The indices of the holes that have scalars. -/
def scalarsAt (slots : String → Option Showing) (children : List Fragment) : List Nat :=
  (children.zipIdx.filter fun c => c.1.hole?.isSome && !c.1.isBlock slots).map Prod.snd

/-- Where a child that stays has the index of a scalar, it is a text. -/
def FindsTexts (slots : String → Option Showing) (children : List Fragment) : Prop :=
  ∀ index ∈ scalarsAt slots children, ∀ f ∈ (staying slots children children)[index]?,
    f.isLeaf slots = true

/-- There is a child that stays at the index of each scalar. -/
def FindsAll (slots : String → Option Showing) (children : List Fragment) : Prop :=
  ∀ index ∈ scalarsAt slots children, index < (staying slots children children).length

section Kinds

variable {slots slots' : String → Option Showing} {f g : Fragment} {children : List Fragment}

theorem mem_scalarsAt {index : Nat} : index ∈ scalarsAt slots children ↔
    ∃ name, children[index]? = some (hole name) ∧ (hole name).isBlock slots = false := by
  simp only [scalarsAt, List.mem_map, List.mem_filter, Bool.and_eq_true, Bool.not_eq_true']
  constructor
  · rintro ⟨⟨f, k⟩, ⟨hm, hhole, hblock⟩, rfl⟩
    cases f with
    | hole name => exact ⟨name, List.mk_mem_zipIdx_iff_getElem?.mp hm, hblock⟩
    | _ => simp [hole?] at hhole
  · rintro ⟨name, hname, hblock⟩
    exact ⟨(hole name, index), ⟨List.mk_mem_zipIdx_iff_getElem?.mpr hname, rfl, hblock⟩, rfl⟩

mutual
theorem holes_of_mem_families : ∀ {f : Fragment}, children ∈ f.families → g ∈ children →
    g.holes ⊆ f.holes
  | .text _, h, _ => by simp [families] at h
  | .hole _, h, _ => by simp [families] at h
  | .element tag props kids, h, hg => by
    rw [holes]
    rcases List.mem_cons.mp h with rfl | h
    · exact fun name hn => List.mem_append_right _ (mem_allHoles.mpr ⟨g, hg, hn⟩)
    · exact fun name hn => List.mem_append_right _ (holes_of_mem_allFamilies h hg hn)

theorem holes_of_mem_allFamilies : ∀ {fs : List Fragment}, children ∈ allFamilies fs →
    g ∈ children → g.holes ⊆ allHoles fs
  | [], h, _ => by simp [allFamilies] at h
  | f :: rest, h, hg => by
    rw [allHoles]
    rcases List.mem_append.mp h with h | h
    · exact fun name hn => List.mem_append_left _ (holes_of_mem_families h hg hn)
    · exact fun name hn => List.mem_append_right _ (holes_of_mem_allFamilies h hg hn)
end

theorem isLeaf_congr (h : f.isBlock slots = f.isBlock slots') : f.isLeaf slots = f.isLeaf slots' := by
  cases f <;> simp_all [isLeaf]

theorem scalarsAt_congr (h : ∀ f ∈ children, f.isBlock slots = f.isBlock slots') :
    scalarsAt slots children = scalarsAt slots' children := by
  rw [scalarsAt, scalarsAt]
  congr 1
  refine List.filter_congr fun c hc => ?_
  rw [h c.1 (List.fst_mem_of_mem_zipIdx hc)]

theorem FindsTexts.congr (hfinds : FindsTexts slots children)
    (h : ∀ f ∈ children, f.isBlock slots = f.isBlock slots') : FindsTexts slots' children := by
  intro index hindex f hf
  rw [← scalarsAt_congr h] at hindex
  rw [← staying_congr h] at hf
  rw [← isLeaf_congr (h f ((staying_sublist ..).subset (List.mem_of_getElem? hf)))]
  exact hfinds index hindex f hf

theorem FindsAll.congr (hfinds : FindsAll slots children)
    (h : ∀ f ∈ children, f.isBlock slots = f.isBlock slots') : FindsAll slots' children := by
  intro index hindex
  rw [← scalarsAt_congr h] at hindex
  rw [← staying_congr h]
  exact hfinds index hindex

end Kinds

section Finds

variable {α : Type} {slots : String → Option Showing} {children : List Fragment} {index : Nat}

theorem length_ofHoles : ∀ {fs : List Fragment} {xs : List α}, xs.length = fs.length →
    (ofHoles fs xs).length = (fs.filter fun f => f.hole?.isSome).length
  | [], [], _ => rfl
  | [], _ :: _, h => by simp at h
  | _ :: _, [], h => by simp at h
  | f :: rest, x :: xs, h => by
    have hrest := @length_ofHoles rest xs (by simpa using h)
    rw [ofHoles, List.filter_cons]
    split
    · rw [List.length_cons, List.length_cons, hrest]
    · exact hrest

/-- The last of the holes has as many fragments before it as there are other holes, or more. -/
theorem exists_hole_after {fs : List Fragment} {name : String} (h : hole name ∈ fs) :
    ∃ (index : Nat) (last : String), fs[index]? = some (hole last) ∧
      (fs.filter fun f => f.hole?.isSome).length ≤ index + 1 := by
  induction fs generalizing name with
  | nil => simp at h
  | cons f rest ih =>
    by_cases hrest : ∃ name, hole name ∈ rest
    · obtain ⟨name, hname⟩ := hrest
      obtain ⟨index, last, hlast, hle⟩ := ih hname
      refine ⟨index + 1, last, by simpa using hlast, ?_⟩
      calc ((f :: rest).filter fun f => f.hole?.isSome).length
          ≤ (rest.filter fun f => f.hole?.isSome).length + 1 := by
            rw [List.filter_cons]
            split <;> simp
        _ ≤ index + 1 + 1 := Nat.succ_le_succ hle
    · rcases List.mem_cons.mp h with rfl | h
      · have hnone : (rest.filter fun f => f.hole?.isSome) = [] := by
          refine List.filter_eq_nil_iff.mpr fun g hg hhole => hrest ?_
          cases g with
          | hole name => exact ⟨name, hg⟩
          | _ => simp [hole?] at hhole
        refine ⟨0, name, rfl, ?_⟩
        rw [List.filter_cons, hnone]
        split <;> simp
      · exact absurd ⟨name, h⟩ hrest

/-- If each hole has a place among the holes with its own index, that is the place it has. -/
theorem getElem?_ofHoles : ∀ {fs : List Fragment} {xs : List α}, xs.length = fs.length →
    (∀ (index : Nat) (name : String), fs[index]? = some (hole name) →
      index < (fs.filter fun f => f.hole?.isSome).length) →
    ∀ {index : Nat} {name : String}, fs[index]? = some (hole name) →
      (ofHoles fs xs)[index]? = xs[index]?
  | [], _, _, _, _, _, h => by simp at h
  | _ :: _, [], hlen, _, _, _, _ => by simp at hlen
  | f :: rest, x :: xs, hlen, hfit, index, name, h => by
    cases hf : f.hole?.isSome with
    | true =>
      cases index with
      | zero => simp [ofHoles, hf]
      | succ index =>
        have hrest := @getElem?_ofHoles rest xs (by simpa using hlen) (fun k name hk => by
          have hlt := hfit (k + 1) name (by simpa using hk)
          simpa [List.filter_cons, hf] using hlt) index name (by simpa using h)
        simpa [ofHoles, hf] using hrest
    | false =>
      -- the last hole is after a fragment that is none
      have hmem : hole name ∈ rest := by
        rcases List.mem_cons.mp (List.mem_of_getElem? h) with rfl | hmem
        · simp [hole?] at hf
        · exact hmem
      obtain ⟨last, name', hlast, hle⟩ := exists_hole_after hmem
      have hlt := hfit (last + 1) name' (by simpa using hlast)
      simp only [List.filter_cons, hf, Bool.false_eq_true, if_false] at hlt
      omega

theorem exists_last_block : ∀ {fs : List Fragment}, fs.any (isBlock slots) = true →
    ∃ before b after, fs = before ++ b :: after ∧ b.isBlock slots = true ∧
      after.any (isBlock slots) = false
  | [], h => by simp at h
  | f :: rest, h => by
    cases hrest : rest.any (isBlock slots) with
    | true =>
      obtain ⟨before, b, after, rfl, hb, hafter⟩ := exists_last_block hrest
      exact ⟨f :: before, b, after, rfl, hb, hafter⟩
    | false =>
      rw [List.any_cons, hrest, Bool.or_false] at h
      exact ⟨[], f, rest, rfl, h, hrest⟩

/-- The last nested instance stays, and the holes after it. -/
theorem staying_of_last {b : Fragment} {after : List Fragment} {y : α} {ys : List α}
    (hb : b.isBlock slots = true) (hafter : after.any (isBlock slots) = false) :
    ∀ {before : List Fragment} {xs : List α}, xs.length = before.length →
      staying slots (before ++ b :: after) (xs ++ y :: ys) = y :: ofHoles after ys
  | [], [], _ => by simp [staying, hb, hafter]
  | [], _ :: _, h => by simp at h
  | _ :: _, [], h => by simp at h
  | f :: rest, x :: xs, h => by
    have hany : (rest ++ b :: after).any (isBlock slots) = true := by simp [hb]
    simp only [List.cons_append, staying, hany, if_true]
    exact staying_of_last hb hafter (by simpa using h)

section Last

variable {before after : List Fragment} {b : Fragment}

/-- Something stays at the index of each hole after the last nested instance. -/
theorem lt_of_findsAll (hb : b.isBlock slots = true) (hafter : after.any (isBlock slots) = false)
    (hall : FindsAll slots (before ++ b :: after)) {k : Nat} {name : String}
    (hk : after[k]? = some (hole name)) :
    before.length + k < (after.filter fun f => f.hole?.isSome).length := by
  have hindex : before.length + 1 + k ∈ scalarsAt slots (before ++ b :: after) := by
    refine mem_scalarsAt.mpr ⟨name, ?_, ?_⟩
    · rw [List.getElem?_append_right (by omega),
        show before.length + 1 + k - before.length = k + 1 by omega, List.getElem?_cons_succ, hk]
    · exact eq_false_of_ne_true (List.any_eq_false.mp hafter _ (List.mem_of_getElem? hk))
  have hlt := hall _ hindex
  rw [staying_of_last hb hafter rfl, List.length_cons, length_ofHoles rfl] at hlt
  omega

/-- Where a text is found for each scalar, and there are scalars, nothing is before the last nested
instance. -/
theorem eq_nil_of_finds (hb : b.isBlock slots = true) (hafter : after.any (isBlock slots) = false)
    (htexts : FindsTexts slots (before ++ b :: after)) (hall : FindsAll slots (before ++ b :: after))
    (hindex : index ∈ scalarsAt slots (before ++ b :: after)) : before = [] := by
  by_contra hne
  have hpos : 0 < before.length := List.length_pos_iff.mpr hne
  have hnone : (after.filter fun f => f.hole?.isSome) = [] := by
    refine List.filter_eq_nil_iff.mpr fun g hg hhole => ?_
    obtain ⟨name, rfl⟩ : ∃ name, g = hole name := by
      cases g <;> simp_all [hole?]
    obtain ⟨last, _, hlast, hle⟩ := exists_hole_after hg
    have hlt := lt_of_findsAll hb hafter hall hlast
    omega
  have hstay : staying slots (before ++ b :: after) (before ++ b :: after) = [b] := by
    rw [staying_of_last hb hafter rfl, List.cons_eq_cons]
    exact ⟨rfl, List.eq_nil_of_length_eq_zero (by rw [length_ofHoles rfl, hnone]; rfl)⟩
  -- only the nested instance stays, which is no text
  have hlt := hall index hindex
  have hleaf := htexts index hindex b
  rw [hstay] at hlt hleaf
  obtain rfl : index = 0 := by simpa using hlt
  have hb' := hleaf (by simp)
  cases b <;> simp_all [isLeaf, isBlock]

end Last

/-- Where a text is found for each scalar, it is found at the index that the scalar has. -/
theorem staying_of_finds (htexts : FindsTexts slots children) (hall : FindsAll slots children)
    (hindex : index ∈ scalarsAt slots children) {xs : List α} (hlen : xs.length = children.length) :
    (staying slots children xs)[index]? = xs[index]? := by
  cases hany : children.any (isBlock slots) with
  | false => rw [staying_of_scalars hany hlen]
  | true =>
    obtain ⟨before, b, after, rfl, hb, hafter⟩ := exists_last_block hany
    obtain rfl := eq_nil_of_finds hb hafter htexts hall hindex
    obtain ⟨y, ys, rfl⟩ := List.exists_cons_of_length_eq_add_one hlen
    have hstay := @staying_of_last α slots b after y ys hb hafter [] [] rfl
    obtain ⟨name, hname, -⟩ := mem_scalarsAt.mp hindex
    simp only [List.nil_append] at hstay hname ⊢
    rw [hstay]
    cases index with
    | zero => rfl
    | succ k =>
      refine getElem?_ofHoles (by simpa using hlen) (fun j slot hj => ?_) hname
      have hlt := lt_of_findsAll hb hafter hall hj
      rwa [List.length_nil, Nat.zero_add] at hlt

end Finds

mutual
/-- A nested instance is in the only hole among the children of an element. -/
def Apart (slots : String → Option Showing) : Fragment → Prop
  | element _ _ children =>
    (children.any (isBlock slots) = true →
      (children.filter fun f => f.hole?.isSome).length = 1) ∧ AllApart slots children
  | _ => True

/-- In all of the fragments a nested instance is in the only hole among the children of an
element. -/
def AllApart (slots : String → Option Showing) : List Fragment → Prop
  | [] => True
  | f :: rest => f.Apart slots ∧ AllApart slots rest
end

section Apart

variable {slots : String → Option Showing} {children : List Fragment}

/-- Where one of the holes among an element's children has a nested instance, all have. -/
theorem isBlock_of_apart (hapart : children.any (isBlock slots) = true →
      (children.filter fun f => f.hole?.isSome).length = 1)
    (hany : children.any (isBlock slots) = true) {f : Fragment} (hf : f ∈ children)
    (hhole : f.hole?.isSome = true) : f.isBlock slots = true := by
  obtain ⟨g, hg, hblock⟩ := List.any_eq_true.mp hany
  have hg' : g.hole?.isSome = true := by
    cases g <;> simp_all [isBlock, hole?]
  obtain ⟨a, ha⟩ := List.length_eq_one_iff.mp (hapart hany)
  have hfa : f ∈ [a] := ha ▸ List.mem_filter.mpr ⟨hf, hhole⟩
  have hga : g ∈ [a] := ha ▸ List.mem_filter.mpr ⟨hg, hg'⟩
  rw [List.mem_singleton] at hfa hga
  rw [hfa, ← hga]
  exact hblock

mutual
/-- In each element a nested instance is in the only hole among the children. -/
theorem Apart.of_mem_families : ∀ {f : Fragment}, f.Apart slots → children ∈ f.families →
    children.any (isBlock slots) = true → (children.filter fun f => f.hole?.isSome).length = 1
  | .text _, _, hm => by simp [families] at hm
  | .hole _, _, hm => by simp [families] at hm
  | .element tag props kids, h, hm => by
    rcases List.mem_cons.mp hm with rfl | hm
    · exact h.1
    · exact AllApart.of_mem_allFamilies h.2 hm

theorem AllApart.of_mem_allFamilies : ∀ {fs : List Fragment}, AllApart slots fs →
    children ∈ allFamilies fs → children.any (isBlock slots) = true →
    (children.filter fun f => f.hole?.isSome).length = 1
  | [], _, hm => by simp [allFamilies] at hm
  | f :: rest, h, hm => by
    rcases List.mem_append.mp hm with hm | hm
    · exact Apart.of_mem_families h.1 hm
    · exact AllApart.of_mem_allFamilies h.2 hm
end

/-- Every scalar is found where it is put if its element has no nested instance. -/
theorem found_of_apart (hapart : children.any (isBlock slots) = true →
    (children.filter fun f => f.hole?.isSome).length = 1) {index : Nat}
    (hindex : index ∈ scalarsAt slots children) :
    ∃ f, (staying slots children children)[index]? = some f ∧ f.isLeaf slots = true := by
  obtain ⟨name, hname, hblock⟩ := mem_scalarsAt.mp hindex
  cases hany : children.any (isBlock slots) with
  | true =>
    have hmem := List.mem_of_getElem? hname
    rw [isBlock_of_apart hapart hany hmem rfl] at hblock
    simp at hblock
  | false =>
    rw [staying_of_scalars hany rfl]
    exact ⟨.hole name, hname, by simp [isLeaf, hblock]⟩

end Apart

end Fragment

namespace Instance

variable {source : Block → Fragment} {i j : Instance}

/-- In each element of the instance, what is found for a scalar is a text. -/
def Steady (source : Block → Fragment) (i : Instance) : Prop :=
  ∀ children ∈ (source i.block).families, Fragment.FindsTexts (i.showing? source) children

/-- In each element of the instance, something is found for a scalar. -/
def Roomy (source : Block → Fragment) (i : Instance) : Prop :=
  ∀ children ∈ (source i.block).families, Fragment.FindsAll (i.showing? source) children

theorem Alike.isBlock (h : i.Alike j) (hmade : i.block.IsOf (source i.block))
    {children : List Fragment} (hm : children ∈ (source i.block).families) {f : Fragment}
    (hf : f ∈ children) : f.isBlock (i.showing? source) = f.isBlock (j.showing? source) :=
  Fragment.isBlock_of_kinds fun _ hn =>
    (h.showing hmade (Fragment.holes_of_mem_families hm hf hn)).symm

/-- Whether an instance is steady is the same for all that are alike. -/
theorem Kin.steady (h : i.Kin j) (hmade : i.MadeFrom source) (hi : i.Throughout (Steady source)) :
    j.Throughout (Steady source) := by
  refine Along.throughout h (fun _ _ hab => hab) (fun a b hab ha => ?_) (hmade.and hi)
  rw [Steady, hab.block]
  exact fun children hm => (ha.2 children hm).congr fun f hf => hab.isBlock ha.1 hm hf

theorem Kin.roomy (h : i.Kin j) (hmade : i.MadeFrom source) (hi : i.Throughout (Roomy source)) :
    j.Throughout (Roomy source) := by
  refine Along.throughout h (fun _ _ hab => hab) (fun a b hab ha => ?_) (hmade.and hi)
  rw [Roomy, hab.block]
  exact fun children hm => (ha.2 children hm).congr fun f hf => hab.isBlock ha.1 hm hf

end Instance

end Stencil
