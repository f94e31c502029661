import Stencil.Proofs.Instance.Readiness
/- What a patch writes. `Owes` says, without a look at how a patch is planned, which changes
   a patch owes the document that it starts from: one for each edit whose scalar is not
   equal to the one before, in the order of the edits, and in the place of a nested instance
   what its own patch owes. A plan that is not refused has these changes for its steps and
   no others (`owes_of_plan`), and they are all that is entered in the journal
   (`Stage.changes_of_carryOut?`). -/
namespace Stencil

/-- The steps of a plan that is carried out are entered in the journal. -/
theorem Stage.changes_of_carryOut? : ∀ {steps : List Step} {s s' : Stage},
    s.carryOut? steps = some s' →
    s'.changes.toList = s.changes.toList ++ steps.map Step.change
  | [], s, s', h => by
    obtain rfl := Option.some.inj h
    simp
  | step :: rest, s, s', h => by
    simp only [carryOut?, perform?, Option.bind_eq_some_iff, Option.ite_none_right_eq_some] at h
    obtain ⟨s₁, ⟨-, hs₁⟩, hrest⟩ := h
    rw [changes_of_carryOut? hrest, ← Option.some.inj hs₁]
    simp [perform, note]

namespace Instance

mutual
/-- The changes that a patch of the first instance by the second owes the document. -/
inductive Owes (d : Document) : Instance → Instance → List Change → Prop where
  | intro {live fresh : Instance} {cs : List Change}
      (h : OwesFor d live fresh live.block.edits live.resolved cs) : Owes d live fresh cs

/-- The changes that it owes for some of the edits, which were made at these nodes. -/
inductive OwesFor (d : Document) :
    Instance → Instance → List Edit → List NodeId → List Change → Prop where
  | nil {live fresh : Instance} : OwesFor d live fresh [] [] []
  | equal {live fresh : Instance} {e : Edit} {es : List Edit} {node : Nat} {nodes : List Nat}
      {cs : List Change} {old new : Scalar} (hold : live.prop? e.hole = some (.scalar old))
      (hnew : fresh.prop? e.hole = some (.scalar new)) (heq : old.equal new = true)
      (rest : OwesFor d live fresh es nodes cs) : OwesFor d live fresh (e :: es) (node :: nodes) cs
  | attr {live fresh : Instance} {path : Path} {name hole : String} {es : List Edit} {node : Nat}
      {nodes : List Nat} {cs : List Change} {old new : Scalar}
      (hold : live.prop? hole = some (.scalar old)) (hnew : fresh.prop? hole = some (.scalar new))
      (hne : old.equal new = false) (rest : OwesFor d live fresh es nodes cs) :
      OwesFor d live fresh (.attr path name hole :: es) (node :: nodes)
        (.setAttribute node name new :: cs)
  | text {live fresh : Instance} {path : Path} {index : Nat} {hole : String} {es : List Edit}
      {node leaf : Nat} {nodes : List Nat} {cs : List Change} {old new : Scalar}
      (hold : live.prop? hole = some (.scalar old)) (hnew : fresh.prop? hole = some (.scalar new))
      (hne : old.equal new = false) (hleaf : d.childAt? node index = some leaf)
      (rest : OwesFor d live fresh es nodes cs) :
      OwesFor d live fresh (.child path index hole :: es) (node :: nodes)
        (.setText leaf new.text :: cs)
  | nested {live fresh n m : Instance} {path : Path} {index : Nat} {hole : String}
      {es : List Edit} {node : Nat} {nodes : List Nat} {cs cs' : List Change}
      (hold : live.prop? hole = some (.block n)) (hnew : fresh.prop? hole = some (.block m))
      (h : Owes d n m cs) (rest : OwesFor d live fresh es nodes cs') :
      OwesFor d live fresh (.child path index hole :: es) (node :: nodes) (cs ++ cs')
end

/-- Both instances have a scalar at the slot of the edit, and the two are equal. -/
def unchanged (live fresh : Instance) (e : Edit) : Bool :=
  match live.prop? e.hole, fresh.prop? e.hole with
  | some (.scalar old), some (.scalar new) => old.equal new
  | _, _ => false

/-- Two instances of one block that have equal scalars, or a nested instance each, at the slot
of every edit. -/
structure Agrees (live fresh : Instance) : Prop where
  block : live.block.sameAs fresh.block = true
  slots : ∀ e ∈ live.block.edits,
    (∃ old new, live.prop? e.hole = some (.scalar old) ∧
      fresh.prop? e.hole = some (.scalar new) ∧ old.equal new = true) ∨
    ∃ n m, live.prop? e.hole = some (.block n) ∧ fresh.prop? e.hole = some (.block m)

section Owes

variable {d : Document} {live fresh : Instance}

/-- The scalars at a slot are equal or they are not. -/
theorem not_equal_and_unequal {hole : String} {old new old' new' : Scalar}
    (hold : live.prop? hole = some (.scalar old)) (hnew : fresh.prop? hole = some (.scalar new))
    (heq : old.equal new = true) (hold' : live.prop? hole = some (.scalar old'))
    (hnew' : fresh.prop? hole = some (.scalar new')) (hne : old'.equal new' = false) : False := by
  obtain rfl := Value.scalar.inj (Option.some.inj (hold.symm.trans hold'))
  obtain rfl := Value.scalar.inj (Option.some.inj (hnew.symm.trans hnew'))
  simp [heq] at hne

/-- A slot has a scalar or a nested instance. -/
theorem not_scalar_and_block {hole : String} {old : Scalar} {n : Instance}
    (hold : live.prop? hole = some (.scalar old)) (hold' : live.prop? hole = some (.block n)) :
    False := by
  simp [hold] at hold'

theorem OwesFor.unique
    (hnested : ∀ slot n, live.prop? slot = some (.block n) →
      ∀ m cs cs', Owes d n m cs → Owes d n m cs' → cs = cs') :
    ∀ {es : List Edit} {nodes : List Nat} {cs cs' : List Change},
      OwesFor d live fresh es nodes cs → OwesFor d live fresh es nodes cs' → cs = cs'
  | [], _, _, _, h, h' => by
    cases h
    cases h'
    rfl
  | e :: es, nodes, cs, cs', h, h' => by
    -- the kind of the edit and the values of its slot leave one rule for it
    cases h with
    | equal hold hnew heq rest =>
      cases h' with
      | equal _ _ _ rest' => exact rest.unique hnested rest'
      | attr hold' hnew' hne' => exact (not_equal_and_unequal hold hnew heq hold' hnew' hne').elim
      | text hold' hnew' hne' => exact (not_equal_and_unequal hold hnew heq hold' hnew' hne').elim
      | nested hold' => exact (not_scalar_and_block hold hold').elim
    | attr hold hnew hne rest =>
      cases h' with
      | equal hold' hnew' heq' => exact (not_equal_and_unequal hold' hnew' heq' hold hnew hne).elim
      | attr _ hnew' _ rest' =>
        obtain rfl := Value.scalar.inj (Option.some.inj (hnew.symm.trans hnew'))
        rw [rest.unique hnested rest']
    | text hold hnew hne hleaf rest =>
      cases h' with
      | equal hold' hnew' heq' => exact (not_equal_and_unequal hold' hnew' heq' hold hnew hne).elim
      | text _ hnew' _ hleaf' rest' =>
        obtain rfl := Value.scalar.inj (Option.some.inj (hnew.symm.trans hnew'))
        obtain rfl := Option.some.inj (hleaf.symm.trans hleaf')
        rw [rest.unique hnested rest']
      | nested hold' => exact (not_scalar_and_block hold hold').elim
    | nested hold hnew h rest =>
      cases h' with
      | equal hold' => exact (not_scalar_and_block hold' hold).elim
      | text hold' => exact (not_scalar_and_block hold' hold).elim
      | nested hold' hnew' h' rest' =>
        obtain rfl := Value.block.inj (Option.some.inj (hold.symm.trans hold'))
        obtain rfl := Value.block.inj (Option.some.inj (hnew.symm.trans hnew'))
        rw [hnested _ _ hold _ _ _ h h', rest.unique hnested rest']

/-- A patch owes one list of changes at most. -/
theorem Owes.unique : ∀ {fresh : Instance} {cs cs' : List Change},
    Owes d live fresh cs → Owes d live fresh cs' → cs = cs' := by
  induction live using Instance.induction with
  | _ live ih =>
    rintro fresh cs cs' ⟨h⟩ ⟨h'⟩
    exact h.unique (fun slot n hn _ _ _ => ih slot n hn) h'

/-- What a plan for edits comes to: what is owed for them, and an edit counts as changed unless
its scalars are equal. -/
structure Pays (d : Document) (live fresh : Instance) (es : List Edit) (nodes : List Nat)
    (plans : EditPlans) : Prop where
  owes : OwesFor d live fresh es nodes (plans.steps.map Step.change)
  skipped : plans.skipped = es.countP (live.unchanged fresh)
  changed : plans.changed = es.countP fun e => !live.unchanged fresh e

theorem pays_of_planEdits (hlive : live.Whole)
    (hnested : ∀ n m plan, live.Uses n → n.plan d m = .ok plan →
      Owes d n m (plan.steps.map Step.change)) :
    ∀ {es : List Edit} {nodes : List Nat} {number : Nat} {plans : EditPlans},
      (∀ e ∈ es, e ∈ live.block.edits) → nodes.length = es.length → (∀ x ∈ nodes, x < d.size) →
      planEdits d (facingsOf live.props) fresh number es nodes = .ok plans →
      Pays d live fresh es nodes plans
  | [], nodes, _, plans, _, hlen, _, h => by
    obtain rfl := Except.ok.inj h
    obtain rfl := List.eq_nil_of_length_eq_zero hlen
    exact ⟨.nil, rfl, rfl⟩
  | e :: rest, [], _, _, _, hlen, _, _ => by simp at hlen
  | e :: rest, node :: nodes, number, plans, hsub, hlen, hlt, h => by
    rw [List.forall_mem_cons] at hsub hlt
    obtain ⟨plan, plans', hedit, hrest, rfl⟩ := planEdits_cons_iff.mp h
    have ih := pays_of_planEdits hlive hnested hsub.2 (by simpa using hlen) hlt.2 hrest
    have hplans := @Instance.plans d live fresh hlive e hsub.1 node hlt.1 number
    rw [hedit] at hplans
    cases hplans with
    | skip hold hnew heq =>
      refine ⟨.equal hold hnew heq ih.owes, ?_, ?_⟩
      · simp [EditPlan.before, unchanged, hold, hnew, heq, ih.skipped]
      · simp [EditPlan.before, unchanged, hold, hnew, heq, ih.changed]
    | attr hold hnew hne =>
      refine ⟨.attr hold hnew hne ih.owes, ?_, ?_⟩
      · simp [EditPlan.before, unchanged, Edit.hole, hold, hnew, hne, ih.skipped]
      · simp [EditPlan.before, unchanged, Edit.hole, hold, hnew, hne, ih.changed]
    | text hold hnew hne hleaf =>
      refine ⟨.text hold hnew hne hleaf ih.owes, ?_, ?_⟩
      · simp [EditPlan.before, unchanged, Edit.hole, hold, hnew, hne, ih.skipped]
      · simp [EditPlan.before, unchanged, Edit.hole, hold, hnew, hne, ih.changed]
    | nested hold hnew hplan =>
      refine ⟨?_, ?_, ?_⟩
      · rw [EditPlan.before, List.map_append]
        exact .nested hold hnew (hnested _ _ _ ⟨_, hsub.1, hold⟩ hplan) ih.owes
      · simp [EditPlan.before, unchanged, Edit.hole, hold, ih.skipped]
      · simp [EditPlan.before, unchanged, Edit.hole, hold, ih.changed]

/-- **A plan has the steps that are owed and no others.** -/
theorem owes_of_plan (hlive : live.Settled d.size) :
    ∀ {fresh : Instance} {plan : Plan}, live.plan d fresh = .ok plan →
      Owes d live fresh (plan.steps.map Step.change) ∧
        plan.stats.edits = live.block.edits.length ∧
        plan.stats.skipped = live.block.edits.countP (live.unchanged fresh) ∧
        plan.stats.changed = live.block.edits.countP fun e => !live.unchanged fresh e := by
  induction live using Instance.induction with
  | _ live ih =>
    intro fresh plan h
    obtain ⟨-, -, plans, hplans, rfl⟩ := plan_of_ok h
    have hnested : ∀ n m plan, live.Uses n → n.plan d m = .ok plan →
        Owes d n m (plan.steps.map Step.change) := by
      rintro n m plan ⟨e, he, hn⟩ hplan
      exact (ih e.hole n hn (hlive.nested ⟨e, he, hn⟩) hplan).1
    have hpays := pays_of_planEdits hlive.here.1 hnested (fun _ he => he) hlive.here.1.resolved
      hlive.here.2 hplans
    exact ⟨.intro hpays.owes, rfl, hpays.skipped, hpays.changed⟩

theorem owesFor_of_agrees (hlive : live.Whole) (hagrees : live.Agrees fresh)
    (hnested : ∀ e ∈ live.block.edits, ∀ n m, live.prop? e.hole = some (.block n) →
      fresh.prop? e.hole = some (.block m) → Owes d n m []) :
    ∀ {es : List Edit} {nodes : List Nat}, (∀ e ∈ es, e ∈ live.block.edits) →
      nodes.length = es.length → OwesFor d live fresh es nodes []
  | [], nodes, _, hlen => by
    obtain rfl := List.eq_nil_of_length_eq_zero hlen
    exact .nil
  | e :: rest, [], _, hlen => by simp at hlen
  | e :: rest, node :: nodes, hsub, hlen => by
    rw [List.forall_mem_cons] at hsub
    have ih := owesFor_of_agrees hlive hagrees hnested hsub.2 (by simpa using hlen)
    rcases hagrees.slots e hsub.1 with ⟨old, new, hold, hnew, heq⟩ | ⟨n, m, hold, hnew⟩
    · exact .equal hold hnew heq ih
    · cases e with
      | attr path name hole =>
        -- no attribute of a complete instance holds a nested one
        obtain ⟨value, hvalue⟩ := hlive.attr hsub.1
        rw [Edit.hole, hvalue] at hold
        simp at hold
      | child path index hole =>
        exact .nested hold hnew (hnested _ hsub.1 n m hold hnew) ih

/-- Nothing is owed to an instance that agrees at every depth. -/
theorem owes_of_agrees (h : live.Along Agrees fresh) (hlive : live.Settled d.size) :
    Owes d live fresh [] := by
  induction h with
  | @intro live fresh hagrees _ ih =>
    have hnested : ∀ e ∈ live.block.edits, ∀ n m, live.prop? e.hole = some (.block n) →
        fresh.prop? e.hole = some (.block m) → Owes d n m [] := fun e he n m hn hm =>
      ih e he n m hn hm (hlive.nested ⟨e, he, hn⟩)
    exact .intro (owesFor_of_agrees hlive.here.1 hagrees hnested (fun _ he => he)
      hlive.here.1.resolved)

theorem Agrees.suits (h : live.Agrees fresh) : live.Suits fresh where
  block := h.block
  kinds e he := by
    rcases h.slots e he with ⟨old, new, hold, hnew, -⟩ | ⟨n, m, hold, hnew⟩ <;>
      simp [hold, hnew, Value.isBlock]

/-- Nor is there anything wrong with such an instance. -/
theorem not_fault_of_agrees {place : List Nat} {error : BlockError}
    (h : live.Along Agrees fresh) (hlive : live.Settled d.size) :
    ¬ Fault d live fresh place error := by
  intro hfault
  have htrue : live.Throughout fun _ => True := Throughout.mono hlive fun _ _ => trivial
  obtain ⟨n, m, path, index, hole, node, -, hagrees, hlacks, -⟩ :=
    childMissing_of_fault (fun _ _ => Agrees.suits) hfault hlive htrue h
  obtain ⟨old, new, hold, hnew, hne⟩ := hlacks.scalars
  rcases hagrees.slots _ (List.of_mem_zip hlacks.edit).1 with
    ⟨old', new', hold', hnew', heq⟩ | ⟨_, _, hold', -⟩
  · simp_all [Edit.hole]
  · simp [Edit.hole, hold] at hold'

/-- What the journal gets from a patch, and what becomes of the document. -/
theorem patch_owes {s : Stage} {stats : PatchStats} (hd : s.document.Closed)
    (hlive : live.isMounted = true → live.Settled s.document.size)
    (h : (live.patch fresh s).outcome = .ok stats) :
    ∃ cs, Owes s.document live fresh cs ∧
      (live.patch fresh s).stage.changes.toList = s.changes.toList ++ cs ∧
      (live.patch fresh s).stage.document = s.document.applyAll cs ∧
      stats.edits = live.block.edits.length ∧
      stats.skipped = live.block.edits.countP (live.unchanged fresh) ∧
      stats.changed = live.block.edits.countP fun e => !live.unchanged fresh e := by
  rcases patch_cases hd hlive fresh with ⟨_, _, -, hpatch⟩ | ⟨-, plan, hplan, hm, hok⟩
  · rw [hpatch] at h
    simp at h
  · obtain rfl := Except.ok.inj (hok.symm.trans h)
    have hsettled := hlive hm
    obtain ⟨howes, hedits, hskipped, hchanged⟩ := owes_of_plan hsettled hplan
    obtain ⟨-, -, hdoc, -⟩ := patch_of_ok hd hsettled hplan
    obtain ⟨s', hs', -⟩ := Stage.carryOut?_of_aims hd (Nat.le_refl _) (aims_of_plan hd hsettled hplan)
    refine ⟨_, howes, ?_, hdoc, hedits, hskipped, hchanged⟩
    rw [← Stage.changes_of_carryOut? hs']
    simp [patch, hplan, hs', Stage.note]

/-- A patch by an instance that agrees at every depth is accepted and makes no change. -/
theorem patch_of_agrees {s : Stage} (hd : s.document.Closed)
    (hlive : live.Settled s.document.size) (h : live.Along Agrees fresh) :
    (∃ stats, (live.patch fresh s).outcome = .ok stats) ∧
      (live.patch fresh s).stage.changes = s.changes ∧
      (live.patch fresh s).stage.document = s.document := by
  rcases patch_cases hd (fun _ => hlive) fresh with ⟨_, _, hfirst, -⟩ | ⟨-, plan, -, -, hok⟩
  · exact absurd hfirst.1 (not_fault_of_agrees h hlive)
  · obtain ⟨cs, howes, hchanges, hdoc, -⟩ := patch_owes hd (fun _ => hlive) hok
    obtain rfl := howes.unique (owes_of_agrees h hlive)
    refine ⟨⟨_, hok⟩, ?_, hdoc⟩
    rw [List.append_nil] at hchanges
    exact Array.toList_inj.mp hchanges

end Owes

end Instance

end Stencil
