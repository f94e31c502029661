import Stencil.Proofs.Instance.Completeness
import Stencil.Proofs.Instance.Mounting
import Stencil.Proofs.Instance.Renewal
/- What mounts make of an instance, if they are tried over and over, on it or on those nested in
   it (`Ages`). It keeps its block and its scalars, holds instances in the same places at every
   depth (`Ages.descend?`), and stays mounted once it is. A mount that fails leaves some of the
   nested instances mounted and others not; since none that was mounted can be mounted again, what
   could not be mounted at first cannot be later (`mountFault_of_remains`). -/
namespace Stencil

namespace Instance

/-- The instance nested in a slot. -/
def nested? (i : Instance) (slot : String) : Option Instance :=
  (i.prop? slot).bind Value.nested?

/-- The instance with a nested one put into a slot. -/
def put (i : Instance) (slot : String) (n : Instance) : Instance :=
  { i with props := Bindings.insert slot (.block n) i.props }

/-- The instance with another one in the place of the one at the end of a list of slots. -/
def plug : Instance → List String → Instance → Instance
  | _, [], n => n
  | i, slot :: rest, n =>
    match i.nested? slot with
    | none => i
    | some m => i.put slot (m.plug rest n)

/-- The second instance is what mounts have made of the first, each on it or on one nested in it,
under a node that was issued. -/
inductive Ages : Instance → Instance → Prop where
  | refl {i : Instance} : Ages i i
  | mount {i j : Instance} {target : NodeId} {s : Stage} :
      Ages i j → s.document.Closed → target < s.document.size → Ages i (j.mount target s).mounted
  | nested {i j n m : Instance} {slot : String} :
      Ages i j → j.nested? slot = some n → Ages n m → Ages i (j.put slot m)

section Positions

variable {i j k n m : Instance} {slot : String} {slots more : List String}

theorem nested?_eq_some : i.nested? slot = some n ↔ i.prop? slot = some (.block n) := by
  rw [nested?, Option.bind_eq_some_iff]
  constructor
  · rintro ⟨value, hv, hn⟩
    cases value with
    | scalar a => cases hn
    | block m => rw [hv, Option.some.inj hn]
  · exact fun h => ⟨_, h, rfl⟩

theorem nested?_put (i : Instance) (slot : String) (n : Instance) (slot' : String) :
    (i.put slot n).nested? slot' = if slot' = slot then some n else i.nested? slot' := by
  simp only [nested?, prop?, put, Bindings.get?_insert]
  split <;> rfl

theorem descend?_cons (i : Instance) (slot : String) (rest : List String) :
    i.descend? (slot :: rest) = (i.nested? slot).bind fun n => n.descend? rest := rfl

theorem descend?_append (i : Instance) (slots more : List String) :
    i.descend? (slots ++ more) = (i.descend? slots).bind fun n => n.descend? more := by
  induction slots generalizing i with
  | nil => rfl
  | cons slot rest ih =>
    rw [List.cons_append, descend?_cons, descend?_cons]
    cases i.nested? slot with
    | none => rfl
    | some n => exact ih n

/-- What is nested in the place that was plugged is what is nested in the plug. -/
theorem descend?_plug (h : i.descend? slots = some n) :
    (i.plug slots m).descend? (slots ++ more) = m.descend? more := by
  induction slots generalizing i with
  | nil => rfl
  | cons slot rest ih =>
    rw [descend?_cons] at h
    obtain ⟨k, hk, hrest⟩ := Option.bind_eq_some_iff.mp h
    rw [plug, hk, List.cons_append, descend?_cons, nested?_put, if_pos rfl]
    exact ih hrest

/-- An instance that does not lie in the place that was plugged is mounted if it was. -/
theorem exists_descend?_plug {slots' : List String} (hn : i.descend? slots' = some n)
    (h : ¬slots <+: slots') :
    ∃ n', (i.plug slots m).descend? slots' = some n' ∧ n'.isMounted = n.isMounted := by
  induction slots generalizing i slots' with
  | nil => exact absurd List.nil_prefix h
  | cons slot rest ih =>
    rw [plug]
    cases hk : i.nested? slot with
    | none => exact ⟨n, hn, rfl⟩
    | some k =>
      cases slots' with
      | nil =>
        obtain rfl : i = n := Option.some.inj hn
        exact ⟨_, rfl, rfl⟩
      | cons slot' rest' =>
        rw [descend?_cons] at hn
        simp only [descend?_cons, nested?_put]
        by_cases hslot : slot' = slot
        · subst hslot
          rw [if_pos rfl]
          rw [hk] at hn
          exact ih hn fun hprefix => h (List.cons_prefix_cons.mpr ⟨rfl, hprefix⟩)
        · rw [if_neg hslot]
          exact ⟨n, hn, rfl⟩

theorem Everywhere.descend? {P : Instance → Prop} (h : i.Everywhere P)
    (hn : i.descend? slots = some n) : n.Everywhere P := by
  induction slots generalizing i with
  | nil =>
    obtain rfl : i = n := Option.some.inj hn
    exact h
  | cons slot rest ih =>
    obtain ⟨k, hk, hrest⟩ := Option.bind_eq_some_iff.mp hn
    exact ih (h.nested (Bindings.mem_of_get? (nested?_eq_some.mp hk))) hrest

theorem Everywhere.throughout {P : Instance → Prop} (h : i.Everywhere P) : i.Throughout P := by
  induction h with
  | intro hi _ ih => exact .intro hi fun n ⟨e, _, hn⟩ => ih e.hole n (Bindings.mem_of_get? hn)

end Positions

section Ages

variable {source : Block → Fragment} {i j k n m : Instance} {slot : String} {slots : List String}

theorem isMounted_of_root {root : NodeId} (h : i.root = some root) : i.isMounted = true := by
  rw [isMounted, h]
  rfl

theorem Remains.isMounted (h : i.Remains j) (hm : i.isMounted = true) : j.isMounted = true := by
  rw [Instance.isMounted, h.root hm]
  exact hm

theorem Remains.trans (h : i.Remains j) (h' : j.Remains k) : i.Remains k where
  block := h'.block.trans h.block
  root hm := (h'.root (h.isMounted hm)).trans (h.root hm)
  resolved hm := (h'.resolved (h.isMounted hm)).trans (h.resolved hm)
  scalars slot := (h'.scalars slot).trans (h.scalars slot)

theorem remains_put (hn : i.nested? slot = some n) (h : n.Along Remains m) :
    i.Along Remains (i.put slot m) := by
  have hretains := (Retains.self i).insert (nested?_eq_some.mp hn) h
  exact .intro ⟨rfl, fun _ => rfl, fun _ => rfl, hretains.scalars⟩
    fun e _ => hretains.nested e.hole

/-- No mount takes from an instance what remains of it after one. -/
theorem Ages.remains (h : i.Ages j) : i.Along Remains j := by
  have htrans : ∀ {i j k : Instance}, i.Along Remains j → j.Along Remains k → i.Along Remains k :=
    Along.trans (fun _ _ h => h.repeats.alike) fun _ _ _ => Remains.trans
  induction h with
  | refl => exact .refl Remains.refl _
  | mount _ _ _ ih => exact htrans ih (mount_remains _ _ _)
  | nested _ hn _ ih ihn => exact htrans ih (remains_put hn ihn)

theorem Ages.trans (h : i.Ages j) (h' : j.Ages k) : i.Ages k := by
  induction h' with
  | refl => exact h
  | mount _ hs ht ih => exact .mount (ih h) hs ht
  | nested _ hn hm ih _ => exact .nested (ih h) hn hm

theorem ages_rel_trans {a b c : Option Instance} (h : Option.Rel Ages a b)
    (h' : Option.Rel Ages b c) : Option.Rel Ages a c := by
  cases h with
  | none => exact h'
  | some hab =>
    cases h' with
    | some hbc => exact .some (hab.trans hbc)

theorem ages_rel_refl (a : Option Instance) : Option.Rel Ages a a := by
  cases a with
  | none => exact .none
  | some _ => exact .some .refl

/-- A mount leaves nested instances in the slots that had them, each aged. -/
theorem ages_nested?_mount (i : Instance) {target : NodeId} {s : Stage} (hs : s.document.Closed)
    (slot : String) : Option.Rel Ages (i.nested? slot) ((i.mount target s).mounted.nested? slot) := by
  rcases mount_cases i target s with hspared | ⟨-, ht, hm⟩
  · rw [hspared.mounted]
    exact ages_rel_refl _
  · have hrun : Grounds s.document.size s.document (i.filled target s).1.stage.document ∧
        Option.Rel Ages (i.nested? slot) (((i.filled target s).1.props.get? slot).bind
          Value.nested?) := by
      refine Progress.fillEdits_induction
        (P := fun p => Grounds s.document.size s.document p.stage.document ∧
          Option.Rel Ages (i.nested? slot) ((p.props.get? slot).bind Value.nested?)) ?_ _ 0
        ⟨grounds_staged i hs ht, ages_rel_refl _⟩
      rintro p number e _ ⟨hgrounds, hages⟩
      have hevolves := evolves_fillEdit i (fun _ n _ => mount_evolves n) number e hgrounds.2.1
        hgrounds.2.2
      refine ⟨hgrounds.step hevolves, ?_⟩
      rcases p.props_fillEdit i.block i.props s.document.size number e with
        heq | ⟨n, node, hn, hr, heq⟩
      · rw [heq]
        exact hages
      · rw [heq, Bindings.get?_insert]
        split
        · rename_i hslot
          have hnode := Document.lt_size_of_resolve? hgrounds.2.1 hgrounds.2.2 hr
          rw [hslot, nested?_eq_some.mpr hn]
          exact .some (.mount .refl hgrounds.2.1 hnode)
        · exact hages
    rw [hm]
    generalize i.filled target s = r at hrun
    obtain ⟨⟨stage, props⟩, outcome⟩ := r
    cases outcome <;> exact hrun.2

theorem Ages.nested? (h : i.Ages j) (slot : String) :
    Option.Rel Ages (i.nested? slot) (j.nested? slot) := by
  induction h with
  | refl => exact ages_rel_refl _
  | mount _ hs _ ih => exact ages_rel_trans ih (ages_nested?_mount _ hs slot)
  | nested _ hn hm ih _ =>
    rw [nested?_put]
    split
    · rename_i hslot
      rw [hslot] at ih ⊢
      rw [hn] at ih
      exact ages_rel_trans ih (.some hm)
    · exact ih

/-- **Mounts leave all nested instances in their places**, each aged. -/
theorem Ages.descend? (h : i.Ages j) (slots : List String) :
    Option.Rel Ages (i.descend? slots) (j.descend? slots) := by
  induction slots generalizing i j with
  | nil => exact .some h
  | cons slot rest ih =>
    have hnested := h.nested? slot
    rw [descend?_cons, descend?_cons]
    generalize i.nested? slot = a at hnested ⊢
    generalize j.nested? slot = b at hnested ⊢
    cases hnested with
    | none => exact .none
    | some hab => exact ih hab

theorem Ages.exists_later (h : i.Ages j) (hn : i.descend? slots = some n) :
    ∃ m, j.descend? slots = some m ∧ n.Ages m := by
  have hages := h.descend? slots
  rw [hn] at hages
  generalize j.descend? slots = a at hages
  cases hages with
  | some hages => exact ⟨_, rfl, hages⟩

theorem Ages.exists_earlier (h : i.Ages j) (hm : j.descend? slots = some m) :
    ∃ n, i.descend? slots = some n ∧ n.Ages m := by
  have hages := h.descend? slots
  rw [hm] at hages
  generalize i.descend? slots = a at hages
  cases hages with
  | some hages => exact ⟨_, rfl, hages⟩

theorem Ages.plug (hn : i.descend? slots = some n) (h : n.Ages m) : i.Ages (i.plug slots m) := by
  induction slots generalizing i with
  | nil =>
    obtain rfl : i = n := Option.some.inj hn
    exact h
  | cons slot rest ih =>
    rw [descend?_cons] at hn
    obtain ⟨k, hk, hrest⟩ := Option.bind_eq_some_iff.mp hn
    rw [Instance.plug, hk]
    exact .nested .refl hk (ih hrest)

theorem Ages.madeFrom (h : i.Ages j) (hi : i.MadeFrom source) : j.MadeFrom source :=
  Kin.madeFrom (h.remains.mono fun _ _ hab => hab.repeats.alike) hi

/-- What can be mounted after mounts could have been mounted before. -/
theorem mountFault_of_remains (hi : i.MadeFrom source) :
    ∀ {j : Instance}, i.Along Remains j → j.mountFault source = none →
      i.mountFault source = none := by
  induction i using Instance.induction with
  | _ i ih =>
    intro j h hj
    have halike := h.here.repeats.alike
    have hu' := isMounted_of_mountFault hj
    have hu : i.isMounted = false := by
      simpa [hu'] using h.here.isMounted
    rw [mountFault_eq, hu', if_neg (by simp), halike.block] at hj
    rw [mountFault_eq, hu, if_neg (by simp)]
    refine Fragment.fault_eq_none (fun hole hm => (halike.showing hi.here hm).symm)
      (fun hole hm hnone => ?_) hj
    obtain ⟨e, he, rfl⟩ := hi.mem_holes.mp hm
    rw [nestedFault]
    cases hv : i.prop? e.hole with
    | none => rfl
    | some value =>
      cases value with
      | scalar value => rfl
      | block n =>
        obtain ⟨m, hm⟩ := halike.nested he hv
        have hfault : m.mountFault source = none := by
          simpa [nestedFault, hm, Value.mountFault] using hnone
        exact ih e.hole n hv (hi.nested ⟨e, he, hv⟩) (h.nested he hv hm) hfault

/-- A mount is refused if there is a reason to. -/
theorem mount_refused (hi : i.MadeFrom source) {target : NodeId} {s : Stage}
    (hs : s.document.Closed) (ht : target < s.document.size)
    (h : i.mountFault source ≠ none) :
    ∃ error, (i.mount target s).outcome = .error (.refused error) := by
  have hsettles := settles hi target s hs ht
  split at hsettles
  · exact ⟨_, hsettles⟩
  · rename_i hfault
    exact absurd hfault h

/-- There is a reason if a mount fails. -/
theorem mountFault_of_error (hi : i.MadeFrom source) {target : NodeId} {s : Stage}
    (hs : s.document.Closed) (ht : target < s.document.size) {failure : Failure}
    (h : (i.mount target s).outcome = .error failure) : i.mountFault source ≠ none := by
  have hsettles := settles hi target s hs ht
  split at hsettles
  · rename_i hfault
    simp [hfault]
  · obtain ⟨L, hL⟩ := hsettles
    simp [hL.outcome] at h

theorem root_of_ok {target root : NodeId} {s : Stage} (h : (i.mount target s).outcome = .ok root) :
    (i.mount target s).mounted.root = some root := by
  rcases mount_cases i target s with hspared | ⟨-, -, hm⟩
  · obtain ⟨failure, hfailed⟩ := hspared.failed
    simp [hfailed] at h
  · rw [hm] at h ⊢
    generalize i.filled target s = r at h
    obtain ⟨⟨stage, props⟩, outcome⟩ := r
    cases outcome with
    | error failure => simp [concluded] at h
    | ok nodes => exact congrArg some (Except.ok.inj h)

/-- No mount leaves an instance mounted that could not be mounted at first. -/
theorem Ages.isMounted (h : i.Ages j) (hi : i.MadeFrom source) (hu : i.isMounted = false)
    (hfault : i.mountFault source ≠ none) : j.isMounted = false := by
  induction h with
  | refl => exact hu
  | mount h hs ht ih =>
    have hfault' := fun hnone => hfault (mountFault_of_remains hi h.remains hnone)
    obtain ⟨error, herror⟩ := mount_refused (h.madeFrom hi) hs ht hfault'
    exact isMounted_of_failed (ih hi hu hfault) herror
  | nested _ _ _ ih _ => exact ih hi hu hfault

end Ages

end Instance

end Stencil
