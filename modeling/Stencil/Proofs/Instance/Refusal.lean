import Mathlib.Data.List.Lex
import Stencil.Proofs.Instance.Planning
/- Why a patch is refused. `Fault` says what can be wrong, and where: at the instance
   itself, at one of its edits, or somewhere in the nested instance of an edit. Places are
   lists of the numbers of edits, and a place comes before another in the order of the
   edits, depth first, which is the order of the lists. There is one first
   fault at most (`First.unique`), and `judged_plan` says that planning finds it, and finds
   none only if there is none. -/
namespace Stencil

namespace Instance

/-- What is wrong with patching one instance by another, and where. -/
inductive Fault (d : Document) : Instance → Instance → List Nat → BlockError → Prop where
  | mismatch {live fresh : Instance} (h : live.block.sameAs fresh.block = false) :
      Fault d live fresh [] .blockMismatch
  | unmounted {live fresh : Instance} (hsame : live.block.sameAs fresh.block = true)
      (h : live.isMounted = false) : Fault d live fresh [] .notMounted
  | missing {live fresh : Instance} {k : Nat} {e : Edit} (he : live.block.edits[k]? = some e)
      (hnew : fresh.prop? e.hole = none) : Fault d live fresh [k] (.missingProp e.hole)
  | attrBlock {live fresh m : Instance} {k : Nat} {path : Path} {name hole : String}
      (he : live.block.edits[k]? = some (.attr path name hole))
      (hnew : fresh.prop? hole = some (.block m)) :
      Fault d live fresh [k] (.blockInAttribute name hole)
  | changed {live fresh : Instance} {k index : Nat} {path : Path} {hole : String} {old new : Value}
      (he : live.block.edits[k]? = some (.child path index hole))
      (hold : live.prop? hole = some old) (hnew : fresh.prop? hole = some new)
      (hkind : old.isBlock ≠ new.isBlock) : Fault d live fresh [k] (.slotKindChanged hole)
  | childMissing {live fresh : Instance} {k index node : Nat} {path : Path} {hole : String}
      {old new : Scalar} (he : live.block.edits[k]? = some (.child path index hole))
      (hold : live.prop? hole = some (.scalar old)) (hnew : fresh.prop? hole = some (.scalar new))
      (hne : old.equal new = false) (hnode : live.resolved[k]? = some node)
      (hlen : (d.children node).length ≤ index) : Fault d live fresh [k] (.childMissing k index)
  | nested {live fresh n m : Instance} {k index : Nat} {path : Path} {hole : String}
      {place : List Nat} {error : BlockError}
      (he : live.block.edits[k]? = some (.child path index hole))
      (hold : live.prop? hole = some (.block n)) (hnew : fresh.prop? hole = some (.block m))
      (h : Fault d n m place error) : Fault d live fresh (k :: place) error

/-- A fault at this place that comes before all others. -/
def First (faults : List Nat → BlockError → Prop) (place : List Nat) (error : BlockError) : Prop :=
  faults place error ∧ ∀ place' error', faults place' error' → ¬ place' < place

/-- What has been planned is refused for the first of these faults, or there is none. -/
def Judged {α : Type} (faults : List Nat → BlockError → Prop) (outcome : Except Failure α) : Prop :=
  match outcome with
  | .error failure => ∃ place error, failure = .refused error ∧ First faults place error
  | .ok _ => ∀ place error, ¬ faults place error

section Judging

variable {d : Document} {live fresh : Instance}

theorem Fault.edit {k : Nat} {place : List Nat} {error : BlockError}
    (h : Fault d live fresh (k :: place) error) : k < live.block.edits.length := by
  cases h with
  | missing he => exact (List.getElem?_eq_some_iff.mp he).1
  | attrBlock he => exact (List.getElem?_eq_some_iff.mp he).1
  | changed he => exact (List.getElem?_eq_some_iff.mp he).1
  | childMissing he => exact (List.getElem?_eq_some_iff.mp he).1
  | nested he => exact (List.getElem?_eq_some_iff.mp he).1

theorem judged_of_fault {k : Nat} {error : BlockError} (h : Fault d live fresh [k] error) :
    Judged (fun place => Fault d live fresh (k :: place))
      (.error (.refused error) : Except Failure EditPlan) :=
  ⟨[], error, rfl, h, fun _ _ _ => List.not_lt_nil _⟩

/-- Two scalars are no fault, unless the node of a child that is to change is missing. -/
theorem not_fault_of_scalars {k node : Nat} {e : Edit} {old new : Scalar}
    (he : live.block.edits[k]? = some e) (hnode : live.resolved[k]? = some node)
    (hold : live.prop? e.hole = some (.scalar old)) (hnew : fresh.prop? e.hole = some (.scalar new))
    (hchild : ∀ path index hole, e = .child path index hole → old.equal new = false →
      index < (d.children node).length) (place : List Nat) (error : BlockError) :
    ¬ Fault d live fresh (k :: place) error := by
  intro h
  cases h with
  | missing he' hnew' =>
    obtain rfl := Option.some.inj (he.symm.trans he')
    simp [hnew] at hnew'
  | attrBlock he' hnew' =>
    obtain rfl := Option.some.inj (he.symm.trans he')
    have heq := hnew.symm.trans hnew'
    simp at heq
  | changed he' hold' hnew' hkind =>
    obtain rfl := Option.some.inj (he.symm.trans he')
    obtain rfl := Option.some.inj (hold.symm.trans hold')
    obtain rfl := Option.some.inj (hnew.symm.trans hnew')
    exact hkind rfl
  | childMissing he' hold' hnew' hne hnode' hlen =>
    obtain rfl := Option.some.inj (he.symm.trans he')
    obtain rfl := Value.scalar.inj (Option.some.inj (hold.symm.trans hold'))
    obtain rfl := Value.scalar.inj (Option.some.inj (hnew.symm.trans hnew'))
    obtain rfl := Option.some.inj (hnode.symm.trans hnode')
    exact absurd (hchild _ _ _ rfl hne) (Nat.not_lt_of_le hlen)
  | nested he' hold' hnew' _ =>
    obtain rfl := Option.some.inj (he.symm.trans he')
    have heq := hold.symm.trans hold'
    simp at heq

/-- Two nested instances have the faults that patching the one by the other has. -/
theorem fault_of_blocks {k index : Nat} {path : Path} {hole : String} {n m : Instance}
    {place : List Nat} {error : BlockError}
    (he : live.block.edits[k]? = some (.child path index hole))
    (hold : live.prop? hole = some (.block n)) (hnew : fresh.prop? hole = some (.block m))
    (h : Fault d live fresh (k :: place) error) : Fault d n m place error := by
  cases h with
  | missing he' hnew' =>
    obtain rfl := Option.some.inj (he.symm.trans he')
    have heq := hnew.symm.trans hnew'
    simp at heq
  | attrBlock he' hnew' => simp [he] at he'
  | changed he' hold' hnew' hkind =>
    obtain ⟨-, -, rfl⟩ := Edit.child.inj (Option.some.inj (he.symm.trans he'))
    obtain rfl := Option.some.inj (hold.symm.trans hold')
    obtain rfl := Option.some.inj (hnew.symm.trans hnew')
    exact absurd rfl hkind
  | childMissing he' hold' _ _ _ _ =>
    obtain ⟨-, -, rfl⟩ := Edit.child.inj (Option.some.inj (he.symm.trans he'))
    have heq := hold.symm.trans hold'
    simp at heq
  | nested he' hold' hnew' h =>
    obtain ⟨-, -, rfl⟩ := Edit.child.inj (Option.some.inj (he.symm.trans he'))
    obtain rfl := Value.block.inj (Option.some.inj (hold.symm.trans hold'))
    obtain rfl := Value.block.inj (Option.some.inj (hnew.symm.trans hnew'))
    exact h

theorem judged_edit {k node : Nat} {e : Edit} (he : live.block.edits[k]? = some e)
    (hnode : live.resolved[k]? = some node) {r : Except Failure EditPlan}
    (hplans : live.Plans d fresh k e node r)
    (hnested : ∀ n m, live.Uses n → fresh.prop? e.hole = some (.block m) →
      Judged (Fault d n m) (n.plan d m)) :
    Judged (fun place => Fault d live fresh (k :: place)) r := by
  have hmem := List.mem_of_getElem? he
  cases hplans with
  | missing hnew => exact judged_of_fault (.missing he hnew)
  | attrBlock hnew => exact judged_of_fault (.attrBlock he hnew)
  | changed hold hnew hkind => exact judged_of_fault (.changed he hold hnew hkind)
  | childMissing hold hnew hne hnone =>
    refine judged_of_fault (.childMissing he hold hnew hne hnode ?_)
    exact List.getElem?_eq_none_iff.mp hnone
  | skip hold hnew heq =>
    exact not_fault_of_scalars he hnode hold hnew fun _ _ _ _ hne => by simp [heq] at hne
  | attr hold hnew hne =>
    exact not_fault_of_scalars he hnode hold hnew fun _ _ _ heq _ => by simp at heq
  | text hold hnew hne hleaf =>
    refine not_fault_of_scalars he hnode hold hnew fun path index hole heq _ => ?_
    obtain ⟨-, rfl, -⟩ := Edit.child.inj heq
    exact (List.getElem?_eq_some_iff.mp hleaf).1
  | nestedFails hold hnew hplan =>
    have hjudged := hnested _ _ ⟨_, hmem, hold⟩ hnew
    rw [hplan] at hjudged
    obtain ⟨place, error, rfl, hfault, hfirst⟩ := hjudged
    exact ⟨place, error, rfl, .nested he hold hnew hfault, fun place' error' h =>
      hfirst place' error' (fault_of_blocks he hold hnew h)⟩
  | nested hold hnew hplan =>
    have hjudged := hnested _ _ ⟨_, hmem, hold⟩ hnew
    rw [hplan] at hjudged
    exact fun place error h => hjudged place error (fault_of_blocks he hold hnew h)

/-- The faults at the edits from a number on. -/
def FaultFrom (d : Document) (live fresh : Instance) (k : Nat) (place : List Nat)
    (error : BlockError) : Prop :=
  ∃ j rest, place = j :: rest ∧ k ≤ j ∧ Fault d live fresh place error

/-- What is judged of one edit and of those after it is judged of all of them. -/
theorem judged_cons {k : Nat} {r : Except Failure EditPlan} {r' : Except Failure EditPlans}
    (hfirst : Judged (fun place => Fault d live fresh (k :: place)) r)
    (hothers : Judged (FaultFrom d live fresh (k + 1)) r') :
    Judged (FaultFrom d live fresh k)
      (match r with
      | .error failure => .error failure
      | .ok plan => r'.map fun plans => plan.before plans) := by
  cases r with
  | error failure =>
    obtain ⟨place, error, rfl, hfault, hmin⟩ := hfirst
    refine ⟨k :: place, error, rfl, ⟨k, place, rfl, Nat.le_refl k, hfault⟩, ?_⟩
    rintro _ error' ⟨j, place', rfl, hle, hfault'⟩ hbefore
    rcases List.cons_lt_cons_iff.mp hbefore with hlt | ⟨rfl, hlt⟩
    · exact absurd hlt (Nat.not_lt_of_le hle)
    · exact hmin place' error' hfault' hlt
  | ok plan =>
    -- the edit itself has no fault, so that of a later edit is the first
    cases r' with
    | error failure =>
      obtain ⟨_, error, rfl, ⟨j, place, rfl, hle, hfault⟩, hmin⟩ := hothers
      refine ⟨j :: place, error, rfl, ⟨j, place, rfl, Nat.le_of_succ_le hle, hfault⟩, ?_⟩
      rintro _ error' ⟨j', place', rfl, hle', hfault'⟩ hlt
      rcases Nat.eq_or_lt_of_le hle' with rfl | hle'
      · exact hfirst place' error' hfault'
      · exact hmin _ error' ⟨j', place', rfl, hle', hfault'⟩ hlt
    | ok plans =>
      rintro _ error ⟨j, place, rfl, hle, hfault⟩
      rcases Nat.eq_or_lt_of_le hle with rfl | hle
      · exact hfirst place error hfault
      · exact hothers _ error ⟨j, place, rfl, hle, hfault⟩

theorem judged_edits (hlive : live.Whole) (hlt : ∀ x : Nat, x ∈ live.resolved → x < d.size)
    (hnested : ∀ n m, live.Uses n → Judged (Fault d n m) (n.plan d m)) :
    ∀ {es : List Edit} {nodes : List Nat} {k : Nat}, live.block.edits.drop k = es →
      live.resolved.drop k = nodes →
      Judged (FaultFrom d live fresh k) (planEdits d (facingsOf live.props) fresh k es nodes)
  | [], nodes, k, hes, _ => by
    rintro place error ⟨j, rest, rfl, hle, hfault⟩
    have hlen := List.drop_eq_nil_iff.mp hes
    exact absurd hfault.edit (Nat.not_lt_of_le (Nat.le_trans hlen hle))
  | e :: rest, nodes, k, hes, hnodes => by
    have hk : k < live.block.edits.length := by
      by_contra hge
      rw [List.drop_eq_nil_of_le (Nat.le_of_not_lt hge)] at hes
      simp at hes
    have hk' : k < live.resolved.length := hlive.resolved ▸ hk
    rw [List.drop_eq_getElem_cons hk] at hes
    rw [List.drop_eq_getElem_cons hk'] at hnodes
    obtain ⟨rfl, hrest⟩ := List.cons.inj hes
    subst hnodes
    have he : live.block.edits[k]? = some live.block.edits[k] := List.getElem?_eq_getElem hk
    have hnode : live.resolved[k]? = some live.resolved[k] := List.getElem?_eq_getElem hk'
    have hplans : live.Plans d fresh k _ _ _ :=
      plans hlive (List.getElem_mem hk) (hlt _ (List.getElem_mem hk')) k
    exact judged_cons (judged_edit he hnode hplans fun n m hn _ => hnested n m hn)
      (judged_edits hlive hlt hnested hrest rfl)

/-- If the instance is mounted and of the block of the fresh one, each fault is at an edit. -/
theorem Fault.from_zero {place : List Nat} {error : BlockError}
    (h : Fault d live fresh place error) (hsame : live.block.sameAs fresh.block = true)
    (hmounted : live.isMounted = true) : FaultFrom d live fresh 0 place error := by
  cases place with
  | cons k rest => exact ⟨k, rest, rfl, Nat.zero_le k, h⟩
  | nil =>
    cases h with
    | mismatch hne => simp [hsame] at hne
    | unmounted _ hu => simp [hmounted] at hu

/-- Planning finds the first fault of a patch, and finds none only if there is none. -/
theorem judged_plan (hlive : live.isMounted = true → live.Settled d.size) :
    ∀ fresh : Instance, Judged (Fault d live fresh) (live.plan d fresh) := by
  induction live using Instance.induction with
  | _ live ih =>
    intro fresh
    rw [plan_eq, planWith]
    cases hsame : live.block.sameAs fresh.block with
    | false => exact ⟨[], _, rfl, .mismatch hsame, fun _ _ _ => List.not_lt_nil _⟩
    | true =>
      simp only [Bool.not_true, Bool.false_eq_true, if_false]
      cases hmounted : live.isMounted with
      | false => exact ⟨[], _, rfl, .unmounted hsame hmounted, fun _ _ _ => List.not_lt_nil _⟩
      | true =>
        simp only [Bool.not_true, Bool.false_eq_true, if_false]
        have hsettled := hlive hmounted
        have hnested : ∀ n m, live.Uses n → Judged (Fault d n m) (n.plan d m) := by
          rintro n m ⟨e, he, hv⟩
          exact ih e.hole n hv (fun _ => hsettled.nested ⟨e, he, hv⟩) m
        have hjudged := @judged_edits d live fresh hsettled.here.1 hsettled.here.2 hnested
          live.block.edits live.resolved 0 rfl rfl
        generalize planEdits d (facingsOf live.props) fresh 0 live.block.edits live.resolved = r
          at hjudged ⊢
        cases r with
        | error failure =>
          obtain ⟨place, error, rfl, ⟨-, -, -, -, hfault⟩, hmin⟩ := hjudged
          exact ⟨place, error, rfl, hfault, fun place' error' h =>
            hmin place' error' (h.from_zero hsame hmounted)⟩
        | ok plans => exact fun place error h => hjudged place error (h.from_zero hsame hmounted)

/-- At one place there is one fault at most. -/
theorem Fault.unique {place : List Nat} {error error' : BlockError}
    (h : Fault d live fresh place error) (h' : Fault d live fresh place error') :
    error = error' := by
  induction h with
  | mismatch hne => cases h' <;> simp_all
  | unmounted _ hu => cases h' <;> simp_all
  | missing he hnew =>
    cases h' with
    | missing he' => rw [Option.some.inj (he.symm.trans he')]
    | attrBlock he' hnew' =>
      obtain rfl := Option.some.inj (he.symm.trans he')
      exact absurd (hnew.symm.trans hnew') (by simp)
    | changed he' _ hnew' =>
      obtain rfl := Option.some.inj (he.symm.trans he')
      exact absurd (hnew.symm.trans hnew') (by simp)
    | childMissing he' _ hnew' =>
      obtain rfl := Option.some.inj (he.symm.trans he')
      exact absurd (hnew.symm.trans hnew') (by simp)
    | nested he' _ hnew' =>
      obtain rfl := Option.some.inj (he.symm.trans he')
      exact absurd (hnew.symm.trans hnew') (by simp)
  | attrBlock he hnew => cases h' <;> simp_all [Edit.hole]
  | changed he hold hnew hkind => cases h' <;> simp_all [Edit.hole, Value.isBlock]
  | childMissing he hold hnew _ _ _ =>
    cases h' with
    | missing he' hnew' =>
      obtain rfl := Option.some.inj (he.symm.trans he')
      exact absurd (hnew.symm.trans hnew') (by simp)
    | attrBlock he' => simp [he] at he'
    | changed he' hold' hnew' hkind =>
      obtain ⟨-, -, rfl⟩ := Edit.child.inj (Option.some.inj (he.symm.trans he'))
      obtain rfl := Option.some.inj (hold.symm.trans hold')
      obtain rfl := Option.some.inj (hnew.symm.trans hnew')
      exact absurd rfl hkind
    | childMissing he' =>
      obtain ⟨-, rfl, -⟩ := Edit.child.inj (Option.some.inj (he.symm.trans he'))
      rfl
    | nested he' hold' =>
      obtain ⟨-, -, rfl⟩ := Edit.child.inj (Option.some.inj (he.symm.trans he'))
      exact absurd (hold.symm.trans hold') (by simp)
  | nested he hold hnew _ ih => exact ih (fault_of_blocks he hold hnew h')

/-- There is one first fault at most. -/
theorem First.unique {place place' : List Nat} {error error' : BlockError}
    (h : First (Fault d live fresh) place error) (h' : First (Fault d live fresh) place' error') :
    error = error' := by
  rcases lt_trichotomy place place' with hlt | rfl | hlt
  · exact absurd hlt (h'.2 _ _ h.1)
  · exact h.1.unique h'.1
  · exact absurd hlt (h.2 _ _ h'.1)
end Judging

end Instance

end Stencil
