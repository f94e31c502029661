import Stencil.Proofs.Instance.Dues
import Stencil.Proofs.Instance.Likeness
/- The values of an instance after a patch are a merge of its own and the fresh ones, by one
   rule at every depth (`Absorbs`): the instances that its child edits read stay, with their
   values merged in turn; what else the fresh instance has is taken over, in slots that no edit
   reads too; and what it lacks is kept. So the next patch compares with the values that the
   last one brought, and one that brings equal values finds nothing to do (`agrees_of_absorbs`). -/
namespace Stencil

namespace Instance

/-- The relation holds of three instances and, in turn, of those that they all hold in a slot
that an edit of the first reads. -/
inductive Threefold (R : Instance → Instance → Instance → Prop) :
    Instance → Instance → Instance → Prop where
  | intro {i j k : Instance} : R i j k →
      (∀ e ∈ i.block.edits, ∀ n m l, i.prop? e.hole = some (.block n) →
        j.prop? e.hole = some (.block m) → k.prop? e.hole = some (.block l) →
        Threefold R n m l) → Threefold R i j k

namespace Threefold

variable {R S : Instance → Instance → Instance → Prop} {i j k n m l : Instance}

theorem here (h : i.Threefold R j k) : R i j k := by
  cases h with
  | intro hR _ => exact hR

theorem nested (h : i.Threefold R j k) {e : Edit} (he : e ∈ i.block.edits)
    (hn : i.prop? e.hole = some (.block n)) (hm : j.prop? e.hole = some (.block m))
    (hl : k.prop? e.hole = some (.block l)) : n.Threefold R m l := by
  cases h with
  | intro _ hnested => exact hnested e he n m l hn hm hl

end Threefold

/-- A child edit reads the slot, which holds a nested instance. -/
def Nests (i : Instance) (slot : String) : Prop :=
  (∃ path index, Edit.child path index slot ∈ i.block.edits) ∧
    ∃ n, i.prop? slot = some (.block n)

/-- What a patch makes of the values of an instance, as far as they are its own. -/
structure Absorbs (live fresh after : Instance) : Prop where
  block : after.block = live.block
  root : after.root = live.root
  resolved : after.resolved = live.resolved
  stays : ∀ slot, live.Nests slot →
    (∃ m, fresh.prop? slot = some (.block m)) ∧ ∃ a, after.prop? slot = some (.block a)
  takes : ∀ slot value, ¬live.Nests slot → fresh.prop? slot = some value →
    after.prop? slot = some value
  keeps : ∀ slot, fresh.prop? slot = none → after.prop? slot = live.prop? slot
  scalars : ∀ e ∈ live.block.edits, ∀ old, live.prop? e.hole = some (.scalar old) →
    ∃ new, fresh.prop? e.hole = some (.scalar new)

section Plan

variable {d : Document} {live fresh : Instance} {plan : Plan}

theorem Whole.nests (h : live.Whole) {e : Edit} (he : e ∈ live.block.edits) {n : Instance}
    (hn : live.prop? e.hole = some (.block n)) : live.Nests e.hole := by
  cases e with
  | attr path name hole =>
    obtain ⟨value, hvalue⟩ := h.attr he
    rw [Edit.hole, hvalue] at hn
    cases hn
  | child path index hole => exact ⟨⟨path, index, he⟩, n, hn⟩

theorem absorbs_of_plan (hlive : live.Whole) (hlt : ∀ x : Nat, x ∈ live.resolved → x < d.size)
    (hfresh : fresh.Ordered) (h : live.plan d fresh = .ok plan) :
    live.Absorbs fresh plan.adopted := by
  obtain ⟨-, -, plans, hplans, rfl⟩ := plan_of_ok h
  have hp := planned hlive (.refl _) hlive.resolved hlt hplans
  have hget := fun slot => @get?_adopt live.props fresh.props plans.nested hfresh hp.nodup slot
  have hnested : ∀ slot a, Bindings.get? plans.nested slot = some a →
      live.Nests slot ∧ ∃ m, fresh.prop? slot = some (.block m) := by
    intro slot a ha
    obtain ⟨⟨e, he, rfl⟩, n, m, -, hn, hm, -⟩ := hp.nested slot a (Bindings.mem_of_get? ha)
    exact ⟨hlive.nests he hn, m, hm⟩
  refine ⟨rfl, rfl, rfl, fun slot hslot => ?_, fun slot value hslot hvalue => ?_,
    fun slot hnone => ?_, hp.scalars⟩
  · obtain ⟨⟨path, index, he⟩, n, hn⟩ := hslot
    obtain ⟨m, plan, hm, -, hmem⟩ := hp.blocks _ he n hn
    have hmem : (slot, plan.adopted) ∈ plans.nested := hmem
    refine ⟨⟨m, hm⟩, plan.adopted, ?_⟩
    simp only [prop?]
    rw [hget, get?_of_mem hp.nodup hmem]
  · have hnone : Bindings.get? plans.nested slot = none :=
      Option.eq_none_iff_forall_ne_some.mpr fun a ha => hslot (hnested slot a ha).1
    simp only [prop?] at hvalue ⊢
    rw [hget, hnone, hvalue]
    rfl
  · have hnone' : Bindings.get? plans.nested slot = none := by
      refine Option.eq_none_iff_forall_ne_some.mpr fun a ha => ?_
      obtain ⟨-, m, hm⟩ := hnested slot a ha
      rw [hnone] at hm
      cases hm
    simp only [prop?] at hnone ⊢
    rw [hget, hnone', hnone]
    rfl

/-- **A patch merges at every depth.** -/
theorem threefold_absorbs (hlive : live.Settled d.size) :
    ∀ {fresh : Instance} {plan : Plan}, fresh.Everywhere Ordered → live.plan d fresh = .ok plan →
      live.Threefold Absorbs fresh plan.adopted := by
  induction live using Instance.induction with
  | _ live ih =>
    intro fresh plan hfresh h
    have hwhole := hlive.here.1
    have hadopts := adopts_of_plan hwhole hlive.here.2 hfresh.here h
    refine .intro (absorbs_of_plan hwhole hlive.here.2 hfresh.here h) fun e he n m a hn hm ha => ?_
    obtain ⟨n', m', plan', hn', hm', hplan', rfl⟩ := hadopts.of_block hwhole he ha
    obtain rfl : n' = n := by simpa [hn'] using hn
    obtain rfl : m' = m := by simpa [hm'] using hm
    exact ih e.hole n' hn' (hlive.nested ⟨e, he, hn'⟩) (hfresh.nested (Bindings.mem_of_get? hm'))
      hplan'

end Plan

/-- At the edits of the live instance, the second fresh one has scalars that are equal to those of
the first, and nested instances where this has them. -/
structure Echoes (live fresh again : Instance) : Prop where
  block : live.block.sameAs again.block = true
  slots : ∀ e ∈ live.block.edits,
    (∃ old new, fresh.prop? e.hole = some (.scalar old) ∧
      again.prop? e.hole = some (.scalar new) ∧ old.equal new = true) ∨
    ∃ m l, fresh.prop? e.hole = some (.block m) ∧ again.prop? e.hole = some (.block l)

/-- Whether the slot of an edit holds a scalar. -/
def hasScalar (i : Instance) (e : Edit) : Bool :=
  ((i.prop? e.hole).bind Value.scalar?).isSome

section Again

variable {live fresh after again : Instance} {e : Edit}

/-- Fresh instances that agree, at every depth, do so at the edits of a live one like them. -/
theorem Kin.echoes (h : live.Kin fresh) : ∀ {again : Instance}, fresh.Along Agrees again →
    live.Threefold Echoes fresh again := by
  induction h with
  | @intro live fresh halike _ ih =>
    intro again hagrees
    have hblock := halike.block
    refine .intro ⟨hblock ▸ hagrees.here.block, fun e he => hagrees.here.slots e (hblock ▸ he)⟩
      fun e he n m l hn hm hl => ?_
    exact ih e he n m hn hm (hagrees.nested (hblock ▸ he) hm hl)

/-- After a patch, an edit has the fresh scalar, or a nested instance where it had one. -/
theorem Absorbs.slot (h : live.Absorbs fresh after) (hlive : live.Whole)
    (he : e ∈ live.block.edits) :
    (∃ old new, live.prop? e.hole = some (.scalar old) ∧ fresh.prop? e.hole = some (.scalar new) ∧
      after.prop? e.hole = some (.scalar new)) ∨
    ∃ n m a, live.prop? e.hole = some (.block n) ∧ fresh.prop? e.hole = some (.block m) ∧
      after.prop? e.hole = some (.block a) := by
  obtain ⟨value, hvalue⟩ := hlive.valued e he
  cases value with
  | scalar old =>
    obtain ⟨new, hnew⟩ := h.scalars e he old hvalue
    have hscalar : ¬live.Nests e.hole := by
      intro ⟨_, n, hn⟩
      rw [hvalue] at hn
      cases hn
    exact .inl ⟨old, new, hvalue, hnew, h.takes e.hole _ hscalar hnew⟩
  | block n =>
    obtain ⟨⟨m, hm⟩, a, ha⟩ := h.stays e.hole (hlive.nests he hvalue)
    exact .inr ⟨n, m, a, hvalue, hm, ha⟩

theorem Absorbs.agrees (h : live.Absorbs fresh after) (hlive : live.Whole)
    (hechoes : live.Echoes fresh again) : after.Agrees again where
  block := h.block ▸ hechoes.block
  slots e he := by
    rw [h.block] at he
    rcases h.slot hlive he with ⟨old, new, -, hnew, hafter⟩ | ⟨n, m, a, -, hm, ha⟩
    · rcases hechoes.slots e he with ⟨new', last, hnew', hlast, heq⟩ | ⟨m, l, hm, -⟩
      · obtain rfl : new = new' := by simpa [hnew] using hnew'
        exact .inl ⟨new, last, hafter, hlast, heq⟩
      · rw [hnew] at hm
        cases hm
    · rcases hechoes.slots e he with ⟨new, last, hnew, -, -⟩ | ⟨m', l, -, hl⟩
      · rw [hm] at hnew
        cases hnew
      · exact .inr ⟨a, l, ha, hl⟩

/-- What the next fresh instance has equal to the last one, it has equal to the values that the
last patch left. -/
theorem agrees_of_absorbs (h : live.Threefold Absorbs fresh after) (hlive : live.Complete) :
    ∀ {again : Instance}, live.Threefold Echoes fresh again → after.Along Agrees again := by
  induction h with
  | @intro live fresh after habsorbs _ ih =>
    intro again hechoes
    have hwhole := hlive.here
    refine .intro (habsorbs.agrees hwhole hechoes.here) fun e he a l ha hl => ?_
    rw [habsorbs.block] at he
    rcases habsorbs.slot hwhole he with ⟨_, new, _, _, hafter⟩ | ⟨n, m, a', hn, hm, ha'⟩
    · rw [ha] at hafter
      cases hafter
    · obtain rfl : a' = a := by simpa [ha'] using ha
      exact ih e he n m a' hn hm ha' (hlive.nested ⟨e, he, hn⟩) (hechoes.nested he hn hm hl)

/-- An edit that agrees is unchanged if its slot holds a scalar. -/
theorem Agrees.unchanged (h : live.Agrees fresh) (he : e ∈ live.block.edits) :
    live.unchanged fresh e = live.hasScalar e := by
  rcases h.slots e he with ⟨old, new, hold, hnew, heq⟩ | ⟨n, m, hn, hm⟩
  · simp [Instance.unchanged, hasScalar, hold, hnew, heq, Value.scalar?]
  · simp [Instance.unchanged, hasScalar, hn, hm, Value.scalar?]

/-- A patch by an instance that agrees at every depth skips the edits that have scalars. -/
theorem outcome_of_agrees {s : Stage} (hd : s.document.Closed)
    (hlive : live.Settled s.document.size) (h : live.Along Agrees fresh) :
    (live.patch fresh s).outcome = .ok ⟨live.block.edits.length,
      live.block.edits.countP (fun e => !live.hasScalar e),
      live.block.edits.countP live.hasScalar⟩ := by
  obtain ⟨⟨stats, hok⟩, -⟩ := patch_of_agrees hd hlive h
  obtain ⟨-, -, -, -, hedits, hskipped, hchanged⟩ := patch_owes hd (fun _ => hlive) hok
  have hunchanged : ∀ e ∈ live.block.edits, live.unchanged fresh e = live.hasScalar e :=
    fun e he => h.here.unchanged he
  have hskipped : stats.skipped = live.block.edits.countP live.hasScalar := by
    rw [hskipped]
    exact List.countP_congr fun e he => by rw [hunchanged e he]
  have hchanged : stats.changed = live.block.edits.countP fun e => !live.hasScalar e := by
    rw [hchanged]
    exact List.countP_congr fun e he => by rw [hunchanged e he]
  rw [hok, ← hedits, ← hskipped, ← hchanged]

end Again

end Instance

end Stencil
