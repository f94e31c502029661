import Stencil.Instance.Basic
import Stencil.Proofs.Bindings
/- Nesting of instances. What holds of an instance whenever it holds of those in its
   slots holds of every instance (`Instance.induction`). A slot that no edit reads is
   of no account to a mount or a patch, so a property `Throughout` an instance is one
   of the instance and, in turn, of the instances that its edits read, and two instances
   are compared `Along` the slots that the edits read. What is true of all that an instance
   holds, in whatever slot, is true `Everywhere` in it. -/
namespace Stencil

section

variable {P : Instance → Prop}

mutual
private theorem forall_instance
    (step : ∀ i : Instance, (∀ slot n, i.prop? slot = some (.block n) → P n) → P i) :
    ∀ i : Instance, P i
  | ⟨_, props, _, _⟩ => step _ (forall_props step props)

private theorem forall_value
    (step : ∀ i : Instance, (∀ slot n, i.prop? slot = some (.block n) → P n) → P i) :
    ∀ (v : Value) (n : Instance), v = .block n → P n
  | .scalar _, _, h => by simp at h
  | .block nested, n, h => by
    cases h
    exact forall_instance step nested

private theorem forall_props
    (step : ∀ i : Instance, (∀ slot n, i.prop? slot = some (.block n) → P n) → P i) :
    ∀ (props : List (String × Value)) (slot : String) (n : Instance),
      Bindings.get? props slot = some (.block n) → P n
  | [], _, _, h => by simp [Bindings.get?] at h
  | (key, v) :: rest, slot, n, h => by
    simp only [Bindings.get?, List.lookup_cons] at h
    split at h
    · exact forall_value step v n (Option.some.inj h)
    · exact forall_props step rest slot n h
end

end

/-- Induction over nested instances. -/
theorem Instance.induction {P : Instance → Prop}
    (step : ∀ i : Instance, (∀ slot n, i.prop? slot = some (.block n) → P n) → P i)
    (i : Instance) : P i :=
  forall_instance step i

namespace Instance

/-- An edit of the first instance reads a slot that holds the second. -/
def Uses (i n : Instance) : Prop :=
  ∃ e ∈ i.block.edits, i.prop? e.hole = some (.block n)

/-- The property holds of an instance and, in turn, of the instances that it uses. -/
inductive Throughout (P : Instance → Prop) : Instance → Prop where
  | intro {i : Instance} : P i → (∀ n, i.Uses n → Throughout P n) → Throughout P i

namespace Throughout

variable {P Q : Instance → Prop} {i n : Instance}

theorem here (h : i.Throughout P) : P i := by
  cases h with
  | intro hi _ => exact hi

theorem nested (h : i.Throughout P) (hn : i.Uses n) : n.Throughout P := by
  cases h with
  | intro _ hu => exact hu n hn

theorem mono (h : i.Throughout P) (hPQ : ∀ j, P j → Q j) : i.Throughout Q := by
  induction h with
  | intro hi _ ih => exact .intro (hPQ _ hi) ih

theorem and (h : i.Throughout P) (h' : i.Throughout Q) : i.Throughout fun j => P j ∧ Q j := by
  induction h with
  | intro hi _ ih => exact .intro ⟨hi, h'.here⟩ fun n hn => ih n hn (h'.nested hn)

end Throughout

/-- The relation holds between two instances and, in turn, between those that they hold in
a slot that an edit of the first reads. -/
inductive Along (R : Instance → Instance → Prop) : Instance → Instance → Prop where
  | intro {i j : Instance} : R i j →
      (∀ e ∈ i.block.edits, ∀ n m, i.prop? e.hole = some (.block n) →
        j.prop? e.hole = some (.block m) → Along R n m) → Along R i j

namespace Along

variable {R S : Instance → Instance → Prop} {i j n m : Instance}

theorem here (h : i.Along R j) : R i j := by
  cases h with
  | intro hij _ => exact hij

theorem nested (h : i.Along R j) {e : Edit} (he : e ∈ i.block.edits)
    (hn : i.prop? e.hole = some (.block n)) (hm : j.prop? e.hole = some (.block m)) :
    n.Along R m := by
  cases h with
  | intro _ hnested => exact hnested e he n m hn hm

theorem refl (hR : ∀ a, R a a) (i : Instance) : i.Along R i := by
  induction i using Instance.induction with
  | _ i ih =>
    refine .intro (hR i) fun e _ n m hn hm => ?_
    obtain rfl : n = m := by simpa [hn] using hm
    exact ih e.hole n hn

theorem mono (h : i.Along R j) (hRS : ∀ a b, R a b → S a b) : i.Along S j := by
  induction h with
  | intro hij _ ih => exact .intro (hRS _ _ hij) ih

end Along

/-- The property holds of an instance and, in turn, of all that it holds. -/
inductive Everywhere (P : Instance → Prop) : Instance → Prop where
  | intro {i : Instance} : P i → (∀ slot n, (slot, Value.block n) ∈ i.props → Everywhere P n) →
      Everywhere P i

namespace Everywhere

variable {P Q : Instance → Prop} {i n : Instance}

theorem here (h : i.Everywhere P) : P i := by
  cases h with
  | intro hi _ => exact hi

theorem nested (h : i.Everywhere P) {slot : String} (hn : (slot, Value.block n) ∈ i.props) :
    n.Everywhere P := by
  cases h with
  | intro _ hnested => exact hnested slot n hn

theorem mono (h : i.Everywhere P) (hPQ : ∀ j, P j → Q j) : i.Everywhere Q := by
  induction h with
  | intro hi _ ih => exact .intro (hPQ _ hi) ih

end Everywhere

end Instance

/-- The scalar that a value is. -/
def Value.scalar? : Value → Option Scalar
  | .scalar value => some value
  | .block _ => none

end Stencil
