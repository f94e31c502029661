import Stencil.Proofs.Instance.Likeness
/- Instances made anew: the same blocks and scalars, with nothing mounted. The one made anew of an
   instance has its scalars (`anew_repeats`), and if one instance can be mounted, every one that is
   alike can be once it is made anew (`mountFault_anew`). -/
namespace Stencil

mutual
/-- The instance with nothing in it mounted. -/
def Instance.anew : Instance → Instance
  | ⟨block, props, _, _⟩ => ⟨block, anewAll props, [], none⟩

/-- The value with nothing in it mounted. -/
def Value.anew : Value → Value
  | .scalar value => .scalar value
  | .block nested => .block nested.anew

/-- Values of slots with nothing in them mounted. -/
def anewAll : List (String × Value) → List (String × Value)
  | [] => []
  | (slot, value) :: rest => (slot, value.anew) :: anewAll rest
end

theorem get?_anewAll (props : Bindings Value) (slot : String) :
    Bindings.get? (anewAll props) slot = (props.get? slot).map Value.anew := by
  induction props with
  | nil => rfl
  | cons entry rest ih =>
    obtain ⟨key, value⟩ := entry
    rw [anewAll, Bindings.get?_cons, Bindings.get?_cons, ih]
    split <;> rfl

section Faults

variable {uses : String → Nat} {slots slots' : String → Option Showing}
  {faults faults' : String → Option BlockError}

theorem Edit.fault_eq_none {e : Edit}
    (hkind : (slots' e.hole).map Showing.isBlock = (slots e.hole).map Showing.isBlock)
    (hfault : faults e.hole = none → faults' e.hole = none)
    (h : e.fault uses slots faults = none) : e.fault uses slots' faults' = none := by
  cases e with
  | attr path name hole =>
    rw [Edit.hole] at hkind
    cases hs : slots hole with
    | none => simp [Edit.fault, hs] at h
    | some showing =>
      cases showing with
      | block shape => simp [Edit.fault, hs] at h
      | scalar value =>
        rw [hs] at hkind
        cases hs' : slots' hole with
        | none => simp [hs'] at hkind
        | some showing' =>
          cases showing' with
          | block shape => simp [hs', Showing.isBlock] at hkind
          | scalar value' => simp [Edit.fault, hs']
  | child path index hole =>
    rw [Edit.hole] at hkind hfault
    cases hs : slots hole with
    | none => simp [Edit.fault, hs] at h
    | some showing =>
      rw [hs] at hkind
      cases hs' : slots' hole with
      | none => simp [hs'] at hkind
      | some showing' =>
        cases showing with
        | scalar value =>
          cases showing' with
          | scalar value' => simp [Edit.fault, hs']
          | block shape' => simp [hs', Showing.isBlock] at hkind
        | block shape =>
          cases showing' with
          | scalar value' => simp [hs', Showing.isBlock] at hkind
          | block shape' =>
            simp only [Edit.fault, hs, hs'] at h ⊢
            split at h
            · simp at h
            · rename_i huses
              rw [if_neg huses]
              exact hfault h

namespace Fragment

mutual
/-- A mount of a fragment is not refused if it is not with other values of the same kinds. -/
theorem fault_eq_none : ∀ {f : Fragment} {c : Cursor} {number : Nat},
    (∀ hole ∈ f.holes, (slots' hole).map Showing.isBlock = (slots hole).map Showing.isBlock) →
    (∀ hole ∈ f.holes, faults hole = none → faults' hole = none) →
    f.fault uses slots faults c number = none → f.fault uses slots' faults' c number = none
  | .text _, _, _, _, _, _ => rfl
  | .hole _, _, _, _, _, _ => rfl
  | .element tag props children, c, number, hkinds, hfaults, h => by
    simp only [holes, List.mem_append] at hkinds hfaults
    simp only [fault, Option.or_eq_none_iff, List.findSome?_eq_none_iff] at h ⊢
    refine ⟨fun e he => ?_, childFault_eq_none (fun hole hm => hkinds hole (.inr hm))
      (fun hole hm => hfaults hole (.inr hm)) h.2⟩
    have hm : e.hole ∈ props.filterMap fun p => p.2.hole? := by
      rw [← PropList.map_hole_edits c props]
      exact List.mem_map_of_mem he
    exact Edit.fault_eq_none (hkinds _ (.inl hm)) (hfaults _ (.inl hm)) (h.1 e he)

theorem childFault_eq_none : ∀ {fs : List Fragment} {c : Cursor} {number index : Nat}
    {covered : Bool},
    (∀ hole ∈ allHoles fs, (slots' hole).map Showing.isBlock = (slots hole).map Showing.isBlock) →
    (∀ hole ∈ allHoles fs, faults hole = none → faults' hole = none) →
    childFault uses slots faults c number index covered fs = none →
    childFault uses slots' faults' c number index covered fs = none
  | [], _, _, _, _, _, _, _ => rfl
  | f :: rest, c, number, index, covered, hkinds, hfaults, h => by
    simp only [allHoles, List.mem_append] at hkinds hfaults
    have hblock : f.isBlock slots' = f.isBlock slots :=
      isBlock_of_kinds fun hole hm => hkinds hole (.inl hm)
    have hrest := fun {number index covered} => @childFault_eq_none rest c number index covered
      (fun hole hm => hkinds hole (.inr hm)) fun hole hm => hfaults hole (.inr hm)
    cases hf : f.hole? with
    | some name =>
      obtain rfl : f = .hole name := by
        cases f <;> simp_all [hole?]
      simp only [childFault, hf, Option.or_eq_none_iff, hblock] at h ⊢
      have hm : name ∈ (Fragment.hole name).holes := by simp [holes]
      exact ⟨Edit.fault_eq_none (hkinds name (.inl hm)) (hfaults name (.inl hm)) h.1, hrest h.2⟩
    | none =>
      simp only [childFault, hf, Option.or_eq_none_iff] at h ⊢
      refine ⟨?_, hrest h.2⟩
      cases covered with
      | true => exact h.1
      | false =>
        exact fault_eq_none (fun hole hm => hkinds hole (.inl hm))
          (fun hole hm => hfaults hole (.inl hm)) h.1
end

end Fragment

end Faults

namespace Instance

variable {source : Block → Fragment} {i j : Instance}

theorem prop?_anew (i : Instance) (slot : String) :
    i.anew.prop? slot = (i.prop? slot).map Value.anew := by
  cases i
  exact get?_anewAll ..

theorem block_anew (i : Instance) : i.anew.block = i.block := by
  cases i
  rfl

theorem isMounted_anew (i : Instance) : i.anew.isMounted = false := by
  cases i
  rfl

theorem anew_repeats (i : Instance) : i.Along Repeats i.anew := by
  induction i using Instance.induction with
  | _ i ih =>
    refine .intro ⟨block_anew i, fun e _ => ?_⟩ fun e _ n m hn hm => ?_
    · rw [prop?_anew]
      cases i.prop? e.hole with
      | none => rfl
      | some value => cases value <;> rfl
    · obtain rfl : n.anew = m := by simpa [prop?_anew, hn, Value.anew] using hm
      exact ih e.hole n hn

theorem anew_kin (i : Instance) : i.Kin i.anew :=
  (anew_repeats i).kin

/-- Showings of values that are alike are of one kind. -/
theorem Alike.showing (h : i.Alike j) (hmade : i.block.IsOf (source i.block)) {hole : String}
    (hm : hole ∈ (source i.block).holes) :
    (j.showing? source hole).map Showing.isBlock = (i.showing? source hole).map Showing.isBlock := by
  obtain ⟨e, he, rfl⟩ := hmade.mem_holes.mp hm
  have hkind := h.kinds e he
  have hisBlock : ∀ v : Value, (v.showing source).isBlock = v.isBlock := by
    intro v
    cases v <;> rfl
  simpa [showing?, Function.comp_def, hisBlock] using hkind

theorem Kin.madeFrom (h : i.Kin j) (hi : i.MadeFrom source) : j.MadeFrom source :=
  h.throughout (fun _ _ hab => hab) (fun a b hab ha => by rwa [hab.block]) hi

/-- If an instance can be mounted, one that is alike can be once it is made anew. -/
theorem mountFault_anew (hi : i.MadeFrom source) (h : i.mountFault source = none) :
    ∀ {j : Instance}, i.Kin j → j.anew.mountFault source = none := by
  induction i using Instance.induction with
  | _ i ih =>
    intro j hkin
    have hanew := hkin.trans (anew_kin j)
    rw [mountFault_eq] at h ⊢
    split at h
    · simp at h
    · rw [isMounted_anew, if_neg (by simp), hanew.here.block]
      refine Fragment.fault_eq_none (fun hole hm => hanew.here.showing hi.here hm)
        (fun hole hm hnone => ?_) h
      -- a nested instance is made anew in its turn, and the one that is alike has no fault
      obtain ⟨e, he, rfl⟩ := hi.mem_holes.mp hm
      rw [nestedFault, prop?_anew]
      cases hm : j.prop? e.hole with
      | none => rfl
      | some value =>
        cases value with
        | scalar value => rfl
        | block m =>
          obtain ⟨n, hn⟩ := hkin.here.symm.nested (hkin.here.block.symm ▸ he) hm
          have hfault : n.mountFault source = none := by
            simpa [nestedFault, hn, Value.mountFault] using hnone
          exact ih e.hole n hn (hi.nested ⟨e, he, hn⟩) hfault (hkin.nested he hn hm)

end Instance

end Stencil
