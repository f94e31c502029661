import Stencil.Proofs.Instance.Carrying
/- What a settled instance spares a patch. Planning reads a node for every edit and a value
   for every slot of the live side, so a slot that is missing is missing on the fresh side
   (`missing_of_fault`), a nested instance is never found unmounted (`not_unmounted`), and
   what is planned for a nested instance meets one on both sides when the values are adopted
   (`meets_of_planned`). An instance of the same block that has values of the same kinds can
   be refused only for a child that is missing (`childMissing_of_fault`). -/
namespace Stencil

namespace Instance

variable {d : Document}

/-- A slot that is missing has a value on the live side. -/
theorem missing_of_fault {live fresh : Instance} {place : List Nat} {error : BlockError}
    {hole : String} (h : Fault d live fresh place error) (hlive : live.Settled d.size)
    (herror : error = .missingProp hole) :
    ∃ slots n m, live.descend? slots = some n ∧ fresh.descend? slots = some m ∧
      (n.prop? hole).isSome = true ∧ m.prop? hole = none := by
  induction h with
  | mismatch => simp at herror
  | unmounted => simp at herror
  | @missing live fresh k e he hnew =>
    obtain rfl : e.hole = hole := by simpa using herror
    obtain ⟨value, hv⟩ := hlive.here.1.valued e (List.mem_of_getElem? he)
    exact ⟨[], live, fresh, rfl, rfl, by rw [hv]; rfl, hnew⟩
  | attrBlock => simp at herror
  | changed => simp at herror
  | childMissing => simp at herror
  | @nested live fresh n m k index path slot place error he hold hnew _ ih =>
    have hn := hlive.nested ⟨_, List.mem_of_getElem? he, hold⟩
    obtain ⟨slots, n', m', hn', hm', hvalue, hnone⟩ := ih hn herror
    refine ⟨slot :: slots, n', m', ?_, ?_, hvalue, hnone⟩
    · simp [descend?, hold, Value.nested?, hn']
    · simp [descend?, hnew, Value.nested?, hm']

/-- No instance that a patch comes to is unmounted. -/
theorem not_unmounted {live fresh : Instance} {place : List Nat} {error : BlockError}
    (h : Fault d live fresh place error) (hlive : live.Settled d.size) :
    error ≠ .notMounted := by
  induction h with
  | unmounted _ hu =>
    have hm := hlive.here.1.mounted
    simp [hu] at hm
  | mismatch => simp
  | missing => simp
  | attrBlock => simp
  | changed => simp
  | childMissing => simp
  | nested he hold _ _ ih => exact ih (hlive.nested ⟨_, List.mem_of_getElem? he, hold⟩)

/-- The second instance is of the block of the first, and has a value of the same kind in each
slot that an edit reads. -/
structure Suits (live fresh : Instance) : Prop where
  block : live.block.sameAs fresh.block = true
  kinds : ∀ e ∈ live.block.edits,
    (fresh.prop? e.hole).map Value.isBlock = (live.prop? e.hole).map Value.isBlock

/-- The node of an edit that is to show another scalar has no child at the edit's index. -/
structure Lacks (d : Document) (live fresh : Instance) (path : Path) (index : Nat) (hole : String)
    (node : Nat) : Prop where
  edit : (Edit.child path index hole, node) ∈ live.block.edits.zip live.resolved
  scalars : ∃ old new, live.prop? hole = some (.scalar old) ∧
    fresh.prop? hole = some (.scalar new) ∧ old.equal new = false
  lacking : d.childAt? node index = none

/-- The only fault of instances that suit each other at every depth is a missing child,
somewhere among them. -/
theorem childMissing_of_fault {R : Instance → Instance → Prop} {P : Instance → Prop}
    (hR : ∀ a b, R a b → a.Suits b) {live fresh : Instance} {place : List Nat} {error : BlockError}
    (h : Fault d live fresh place error) (hlive : live.Settled d.size) (hP : live.Throughout P)
    (halong : live.Along R fresh) :
    ∃ n m path index hole node, P n ∧ R n m ∧ Lacks d n m path index hole node ∧
      ∃ k, error = .childMissing k index := by
  induction h with
  | mismatch hne => simp [(hR _ _ halong.here).block] at hne
  | unmounted _ hu => simp [hlive.here.1.mounted] at hu
  | missing he hnew =>
    have hmem := List.mem_of_getElem? he
    have hkind := (hR _ _ halong.here).kinds _ hmem
    obtain ⟨value, hvalue⟩ := hlive.here.1.valued _ hmem
    simp [hnew, hvalue] at hkind
  | attrBlock he hnew =>
    have hmem := List.mem_of_getElem? he
    have hkind := (hR _ _ halong.here).kinds _ hmem
    obtain ⟨value, hvalue⟩ := hlive.here.1.attr hmem
    simp [Edit.hole, hnew, hvalue, Value.isBlock] at hkind
  | changed he hold hnew hne =>
    have hkind := (hR _ _ halong.here).kinds _ (List.mem_of_getElem? he)
    simp only [Edit.hole, hold, hnew, Option.map_some, Option.some.injEq] at hkind
    exact absurd hkind.symm hne
  | @childMissing live fresh k index node path hole old new he hold hnew hne hnode hlen =>
    have hedit : (Edit.child path index hole, node) ∈ live.block.edits.zip live.resolved :=
      List.mem_of_getElem? (List.getElem?_zip_eq_some.mpr ⟨he, hnode⟩)
    exact ⟨live, fresh, path, index, hole, node, hP.here, halong.here,
      ⟨hedit, ⟨old, new, hold, hnew, hne⟩, List.getElem?_eq_none hlen⟩, k, rfl⟩
  | nested he hold hnew _ ih =>
    have hmem := List.mem_of_getElem? he
    exact ih (hlive.nested ⟨_, hmem, hold⟩) (hP.nested ⟨_, hmem, hold⟩)
      (halong.nested hmem hold hnew)

/-- Each nested instance that was patched meets one on both sides when it is adopted: it is
put in the place of a live one, and the fresh one is taken out. -/
def Meets : List (String × Instance) → Bindings Value → Bindings Value → Prop
  | [], _, _ => True
  | (hole, after) :: rest, live, fresh =>
    (∃ n m, live.get? hole = some (.block n) ∧ fresh.get? hole = some (.block m)) ∧
      Meets rest (live.insert hole (.block after)) (fresh.erase hole)

theorem meets_of_nodup : ∀ {nested : List (String × Instance)} {live fresh : Bindings Value},
    (nested.map Prod.fst).Nodup → (∀ hole after, (hole, after) ∈ nested →
      ∃ n m, live.get? hole = some (.block n) ∧ fresh.get? hole = some (.block m)) →
    Meets nested live fresh
  | [], _, _, _, _ => trivial
  | (hole, after) :: rest, live, fresh, hnodup, h => by
    simp only [List.map_cons, List.nodup_cons] at hnodup
    refine ⟨h hole after List.mem_cons_self, meets_of_nodup hnodup.2 fun slot a ha => ?_⟩
    have hne : slot ≠ hole := fun heq => hnodup.1 (heq ▸ List.mem_map_of_mem ha)
    rw [Bindings.get?_insert, if_neg hne, Bindings.get?_erase, if_neg hne]
    exact h slot a (List.mem_cons_of_mem _ ha)

theorem Planned.meets {live fresh : Instance} {es : List Edit} {plans : EditPlans}
    (h : Planned d live fresh es plans) : Meets plans.nested live.props fresh.props := by
  refine meets_of_nodup h.nodup fun hole after ha => ?_
  obtain ⟨-, n, m, -, hn, hm, -⟩ := h.nested hole after ha
  exact ⟨n, m, hn, hm⟩

/-- What a patch of the instance can rely on, whatever the fresh one is: a node for every
edit, a value for every slot, nested instances that are mounted, and nested instances on
both sides where values are adopted. -/
structure Ready (d : Document) (i : Instance) : Prop where
  refused : ∀ fresh failure, i.plan d fresh = .error failure →
    ∃ error, failure = .refused error ∧ error ≠ .notMounted
  missing : ∀ fresh hole, i.plan d fresh = .error (.refused (.missingProp hole)) →
    ∃ slots n m, i.descend? slots = some n ∧ fresh.descend? slots = some m ∧
      (n.prop? hole).isSome = true ∧ m.prop? hole = none
  meets : ∀ fresh plans,
    planEdits d (facingsOf i.props) fresh 0 i.block.edits i.resolved = .ok plans →
      Meets plans.nested i.props fresh.props

theorem ready_of_settled {i : Instance} (h : i.Settled d.size) : i.Ready d where
  refused fresh failure hplan := by
    have hjudged := judged_plan (fun _ => h) fresh
    rw [hplan] at hjudged
    obtain ⟨place, error, rfl, hfirst⟩ := hjudged
    exact ⟨error, rfl, not_unmounted hfirst.1 h⟩
  missing fresh hole hplan := by
    have hjudged := judged_plan (fun _ => h) fresh
    rw [hplan] at hjudged
    obtain ⟨place, error, herror, hfirst⟩ := hjudged
    exact missing_of_fault hfirst.1 h (Failure.refused.inj herror).symm
  meets fresh plans hplans :=
    (planned h.here.1 (.refl _) h.here.1.resolved h.here.2 hplans).meets

theorem Settled.ready {i : Instance} (h : i.Settled d.size) : i.Throughout (Ready d) := by
  induction i using Instance.induction with
  | _ i ih =>
    refine .intro (ready_of_settled h) ?_
    rintro n ⟨e, he, hn⟩
    exact ih e.hole n hn (h.nested ⟨e, he, hn⟩)

end Instance

end Stencil
