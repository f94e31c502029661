import Stencil.Proofs.Instance.Adoption
import Stencil.Proofs.Instance.Faults
/- Instances that are alike: of one block, with a scalar or a nested instance in the same
   slots, and with nested instances that are alike in turn. What is said of an instance's
   blocks and of the kinds of its slots holds of all that are alike, so it holds after a
   mount and after each patch. An instance that `Repeats` another has its scalars as well, as the
   one has that a mount leaves (`mount_repeats`), and the one that a patch leaves has those of the
   fresh instance (`adopted_repeats`). An edit that goes from one zero to the other is one that
   a patch skips and should not (`Opposes`). -/
namespace Stencil

/-- The zero. -/
def Binary64.zero : Binary64 :=
  ⟨0⟩

/-- The zero that compares equal to zero and is another number. -/
def Binary64.negativeZero : Binary64 :=
  ⟨0x8000000000000000⟩

/-- A zero is all zeros but for its sign. -/
theorem Binary64.eq_of_isZero {x : Binary64} (h : x.isZero = true) : x = zero ∨ x = negativeZero := by
  obtain ⟨bits⟩ := x
  simp only [isZero, exponentField, fractionField, Bool.and_eq_true, beq_iff_eq, Nat.pow_eq] at h
  have hlt := bits.toNat_lt
  have hbits : bits.toNat = 0 ∨ bits.toNat = 0x8000000000000000 := by omega
  exact hbits.imp (fun h => congrArg mk (UInt64.toNat_inj.mp h))
    fun h => congrArg mk (UInt64.toNat_inj.mp h)

/-- Numbers that compare equal are the same, or zeros. -/
theorem Binary64.eq_or_isZero {x y : Binary64} (h : x.equal y = true) :
    x = y ∨ x.isZero = true ∧ y.isZero = true := by
  obtain ⟨a⟩ := x
  obtain ⟨b⟩ := y
  simp only [equal, Bool.and_eq_true, Bool.or_eq_true, beq_iff_eq] at h
  exact h.2.imp (congrArg mk) id

/-- One of the scalars is the zero and the other is the negative zero. -/
def Scalar.Opposed (a b : Scalar) : Prop :=
  a = .float .zero ∧ b = .float .negativeZero ∨ a = .float .negativeZero ∧ b = .float .zero

/-- Scalars that compare equal are the same, apart from the zeros. -/
theorem Scalar.eq_of_equal {a b : Scalar} (h : a.equal b = true) (hno : ¬a.Opposed b) : a = b := by
  cases a <;> cases b <;> simp_all [Scalar.equal]
  rename_i x y
  rcases Binary64.eq_or_isZero h with heq | ⟨hx, hy⟩
  · exact heq
  · rcases Binary64.eq_of_isZero hx with rfl | rfl <;> rcases Binary64.eq_of_isZero hy with rfl | rfl <;>
      simp_all [Opposed]

namespace Instance

/-- None of the scalars that the edits read is the negative zero. -/
def Exact (i : Instance) : Prop :=
  ∀ e ∈ i.block.edits, i.prop? e.hole ≠ some (.scalar (.float .negativeZero))

/-- Two instances of one block have values of the same kinds in the slots that its edits
read. -/
structure Alike (i j : Instance) : Prop where
  block : j.block = i.block
  kinds : ∀ e ∈ i.block.edits, (j.prop? e.hole).map Value.isBlock = (i.prop? e.hole).map Value.isBlock

namespace Alike

variable {i j k n m : Instance} {e : Edit}

theorem symm (h : i.Alike j) : j.Alike i :=
  ⟨h.block.symm, fun e he => (h.kinds e (h.block ▸ he)).symm⟩

theorem trans (h : i.Alike j) (h' : j.Alike k) : i.Alike k :=
  ⟨h'.block.trans h.block, fun e he => (h'.kinds e (h.block ▸ he)).trans (h.kinds e he)⟩

theorem nested (h : i.Alike j) (he : e ∈ i.block.edits) (hn : i.prop? e.hole = some (.block n)) :
    ∃ m, j.prop? e.hole = some (.block m) := by
  have hkind := h.kinds e he
  rw [hn] at hkind
  cases hm : j.prop? e.hole with
  | none => simp [hm] at hkind
  | some value =>
    cases value with
    | scalar a => simp [hm, Value.isBlock] at hkind
    | block m => exact ⟨m, rfl⟩

theorem scalar (h : i.Alike j) (he : e ∈ i.block.edits) {old : Scalar}
    (hold : i.prop? e.hole = some (.scalar old)) : ∃ new, j.prop? e.hole = some (.scalar new) := by
  have hkind := h.kinds e he
  rw [hold] at hkind
  cases hm : j.prop? e.hole with
  | none => simp [hm] at hkind
  | some value =>
    cases value with
    | scalar a => exact ⟨a, rfl⟩
    | block m => simp [hm, Value.isBlock] at hkind

end Alike

/-- The second instance has the block of the first, and in the slots that its edits read the same
scalars, and nested instances where the first has them. -/
structure Repeats (i j : Instance) : Prop where
  block : j.block = i.block
  scalars : ∀ e ∈ i.block.edits,
    (j.prop? e.hole).map Value.scalar? = (i.prop? e.hole).map Value.scalar?

namespace Repeats

variable {i j k : Instance} {e : Edit}

theorem trans (h : i.Repeats j) (h' : j.Repeats k) : i.Repeats k :=
  ⟨h'.block.trans h.block, fun e he => (h'.scalars e (h.block ▸ he)).trans (h.scalars e he)⟩

theorem symm (h : i.Repeats j) : j.Repeats i :=
  ⟨h.block.symm, fun e he => (h.scalars e (h.block ▸ he)).symm⟩

theorem scalar (h : i.Repeats j) (he : e ∈ i.block.edits) {a : Scalar}
    (ha : i.prop? e.hole = some (.scalar a)) : j.prop? e.hole = some (.scalar a) := by
  have hscalars := h.scalars e he
  rw [ha] at hscalars
  cases hv : j.prop? e.hole with
  | none => simp [hv] at hscalars
  | some value =>
    cases value with
    | scalar b => simpa [hv, Value.scalar?] using hscalars
    | block n => simp [hv, Value.scalar?] at hscalars

theorem scalar_iff (h : i.Repeats j) (he : e ∈ i.block.edits) {a : Scalar} :
    i.prop? e.hole = some (.scalar a) ↔ j.prop? e.hole = some (.scalar a) :=
  ⟨h.scalar he, h.symm.scalar (h.block ▸ he)⟩

theorem alike (h : i.Repeats j) : i.Alike j where
  block := h.block
  kinds e he := by
    have hkind : Value.isBlock = Option.isNone ∘ Value.scalar? := by
      funext value
      cases value <;> rfl
    rw [hkind, ← Option.map_map, ← Option.map_map, h.scalars e he]

end Repeats

theorem Remains.repeats {i j : Instance} (h : i.Remains j) : i.Repeats j :=
  ⟨h.block, fun e _ => h.scalars e.hole⟩

/-- What holds between instances that are alike holds, at every depth, from the first of three
to the last. -/
theorem Along.trans {R : Instance → Instance → Prop} {i j k : Instance}
    (halike : ∀ a b, R a b → a.Alike b) (htrans : ∀ a b c, R a b → R b c → R a c)
    (h : i.Along R j) (h' : j.Along R k) : i.Along R k := by
  induction h generalizing k with
  | @intro i j hij _ ih =>
    refine .intro (htrans _ _ _ hij h'.here) fun e he n l hn hl => ?_
    obtain ⟨m, hm⟩ := (halike _ _ hij).nested he hn
    exact ih e he n m hn hm (h'.nested ((halike _ _ hij).block ▸ he) hm hl)

/-- Instances are alike at every depth. -/
def Kin (i j : Instance) : Prop :=
  i.Along Alike j

namespace Kin

variable {i j k : Instance}

theorem symm (h : i.Kin j) : j.Kin i := by
  induction h with
  | @intro i j hij _ ih =>
    refine .intro hij.symm fun e he m n hm hn => ?_
    exact ih e (hij.block ▸ he) n m hn hm

theorem trans (h : i.Kin j) (h' : j.Kin k) : i.Kin k :=
  Along.trans (fun _ _ hab => hab) (fun _ _ _ => Alike.trans) h h'

end Kin

/-- A mount leaves an instance with the scalars of the one before. -/
theorem mount_repeats (i : Instance) (target : Nat) (s : Stage) :
    i.Along Repeats (i.mount target s).mounted :=
  (mount_remains i target s).mono fun _ _ => Remains.repeats

/-- A mount leaves an instance that is like the one before. -/
theorem kin_mount (i : Instance) (target : Nat) (s : Stage) : i.Kin (i.mount target s).mounted :=
  (mount_repeats i target s).mono fun _ _ => Repeats.alike

/-- What a relation between instances that are alike makes of a property, it makes of it at every
depth. -/
theorem Along.throughout {R : Instance → Instance → Prop} {P Q : Instance → Prop} {i j : Instance}
    (h : i.Along R j) (hR : ∀ a b, R a b → a.Alike b) (hP : ∀ a b, R a b → P a → Q b)
    (hi : i.Throughout P) : j.Throughout Q := by
  induction h with
  | @intro i j hij _ ih =>
    have halike := hR i j hij
    refine .intro (hP _ _ hij hi.here) ?_
    rintro m ⟨e, he, hm⟩
    obtain ⟨n, hn⟩ := halike.symm.nested he hm
    rw [halike.block] at he
    exact ih e he n m hn hm (hi.nested ⟨e, he, hn⟩)

/-- The edit goes from one of the zeros to the other. -/
def Opposes (live fresh : Instance) (e : Edit) : Prop :=
  ∃ a b, live.prop? e.hole = some (.scalar a) ∧ fresh.prop? e.hole = some (.scalar b) ∧ a.Opposed b

/-- No edit goes from one of the zeros to the other. -/
def Discerns (live fresh : Instance) : Prop :=
  ∀ e ∈ live.block.edits, ¬live.Opposes fresh e

theorem Exact.discerns {live fresh : Instance} (h : live.Exact) (h' : fresh.Exact)
    (hblock : fresh.block = live.block) : live.Discerns fresh := by
  intro e he hopposes
  obtain ⟨_, _, ha, hb, ⟨-, rfl⟩ | ⟨rfl, -⟩⟩ := hopposes
  · exact h' e (hblock ▸ he) hb
  · exact h e he ha

theorem Kin.discerns {live fresh : Instance} (h : live.Kin fresh) (hlive : live.Throughout Exact)
    (hfresh : fresh.Throughout Exact) : live.Along Discerns fresh := by
  induction h with
  | @intro live fresh halike _ ih =>
    refine .intro (hlive.here.discerns hfresh.here halike.block) fun e he n m hn hm => ?_
    exact ih e he n m hn hm (hlive.nested ⟨e, he, hn⟩) (hfresh.nested ⟨e, halike.block ▸ he, hm⟩)

/-- An instance that has the scalars of the first goes from no zero to the other if that does not. -/
theorem Repeats.discerns {i j fresh : Instance} (h : i.Repeats j) (hi : i.Discerns fresh) :
    j.Discerns fresh := by
  intro e he hopposes
  obtain ⟨a, b, ha, hb, hopposed⟩ := hopposes
  rw [h.block] at he
  exact hi e he ⟨a, b, (h.scalar_iff he).mpr ha, hb, hopposed⟩

namespace Along

variable {source : Block → Fragment} {i j fresh : Instance}

theorem repeats_trans {k : Instance} (h : i.Along Repeats j) (h' : j.Along Repeats k) :
    i.Along Repeats k :=
  Along.trans (fun _ _ => Repeats.alike) (fun _ _ _ => Repeats.trans) h h'

theorem kin (h : i.Along Repeats j) : i.Kin j :=
  h.mono fun _ _ => Repeats.alike

theorem discerns (h : i.Along Repeats j) (hi : i.Along Discerns fresh) : j.Along Discerns fresh := by
  induction h generalizing fresh with
  | @intro i j hij _ ih =>
    refine .intro (hij.discerns hi.here) fun e he m l hm hl => ?_
    rw [hij.block] at he
    obtain ⟨n, hn⟩ := hij.alike.symm.nested (hij.block ▸ he) hm
    exact ih e he n m hn hm (hi.nested he hn hl)

/-- Instances with the same scalars are rendered alike. -/
theorem render (h : i.Along Repeats j) (hmade : i.MadeFrom source) :
    j.render source = i.render source := by
  induction h with
  | @intro i j hij _ ih =>
    rw [render_eq, render_eq, hij.block]
    refine Fragment.render_congr fun hole hm => ?_
    obtain ⟨e, he, rfl⟩ := hmade.mem_holes.mp hm
    rw [showing?, showing?]
    cases hv : j.prop? e.hole with
    | none =>
      have hscalars := hij.scalars e he
      rw [hv] at hscalars
      simp [Option.map_eq_none_iff.mp hscalars.symm]
    | some value =>
      cases value with
      | scalar a => rw [(hij.scalar_iff he).mpr hv]
      | block m =>
        obtain ⟨n, hn⟩ := hij.alike.symm.nested (hij.block ▸ he) hv
        simp [hn, Value.showing, ih e he n m hn hv (hmade.nested ⟨e, he, hn⟩)]

end Along

section Adopted

variable {d : Document} {live : Instance}

theorem Adopts.alike {fresh after : Instance} (h : Adopts d live fresh after)
    (hlive : live.Whole) : live.Alike after where
  block := h.block
  kinds e he := by
    obtain ⟨value, hv⟩ := hlive.valued e he
    cases value with
    | scalar old =>
      obtain ⟨new, -, hnew⟩ := h.scalars e he old hv
      rw [hv, hnew]
      rfl
    | block n =>
      obtain ⟨m, plan, -, -, ha⟩ := h.blocks e he n hv
      rw [hv, ha]
      rfl

theorem Adopts.repeats {fresh after : Instance} (h : Adopts d live fresh after)
    (hlive : live.Whole) (hblock : fresh.block = live.block) : fresh.Repeats after where
  block := h.block.trans hblock.symm
  scalars e he := by
    rw [hblock] at he
    obtain ⟨value, hv⟩ := hlive.valued e he
    cases value with
    | scalar old =>
      obtain ⟨new, hnew, hafter⟩ := h.scalars e he old hv
      rw [hnew, hafter]
    | block n =>
      obtain ⟨m, plan, hm, -, ha⟩ := h.blocks e he n hv
      rw [hm, ha]
      rfl

/-- A patch by an instance that is alike leaves one that has the scalars of the fresh one. -/
theorem adopted_repeats (hlive : live.Settled d.size) :
    ∀ {fresh : Instance} {plan : Plan}, live.Kin fresh → fresh.Everywhere Ordered →
      live.plan d fresh = .ok plan → fresh.Along Repeats plan.adopted := by
  induction live using Instance.induction with
  | _ live ih =>
    intro fresh plan hkin hordered h
    have hwhole := hlive.here.1
    have hblock := hkin.here.block
    have hadopts := adopts_of_plan hwhole hlive.here.2 hordered.here h
    refine .intro (hadopts.repeats hwhole hblock) fun e he m a hm ha => ?_
    rw [hblock] at he
    obtain ⟨n, m', plan', hn, hm', hplan', rfl⟩ := hadopts.of_block hwhole he ha
    obtain rfl : m' = m := by simpa [hm'] using hm
    exact ih e.hole n hn (hlive.nested ⟨e, he, hn⟩) (hkin.nested he hn hm)
      (hordered.nested (Bindings.mem_of_get? hm)) hplan'

end Adopted

end Instance

end Stencil
