import Stencil.Proofs.Document.Evolution
import Stencil.Proofs.Instance.Adoption
import Stencil.Proofs.Instance.Refusal
/- Carrying out a plan. All steps of a plan write to nodes that the document issued, so it
   admits each at its turn, and a plan that is not refused is carried out as a whole
   (`patch_of_ok`). -/
namespace Stencil

namespace Step

/-- The step writes to one of the nodes below the bound. -/
def Aims (bound : Nat) (step : Step) : Prop :=
  match step.change with
  | .setAttribute node _ _ => node < bound
  | .setText node _ => node < bound
  | _ => False

theorem Aims.admits {bound : Nat} {step : Step} (h : step.Aims bound) {d : Document}
    (hd : d.Closed) (hle : bound ≤ d.size) : d.admits step.change = true := by
  rw [Document.admits_iff]
  unfold Aims at h
  split at h
  · rename_i node name value heq
    rw [heq]
    simpa [Document.touched] using Nat.lt_of_lt_of_le h hle
  · rename_i node content heq
    rw [heq, Document.touched]
    have hnode : node < d.size := Nat.lt_of_lt_of_le h hle
    split
    · simpa using hnode
    · rw [List.forall_mem_cons]
      exact ⟨hnode, fun c hc => hd.children hc⟩
  · exact h.elim

end Step

theorem Stage.document_of_perform {s s' : Stage} {c : Change} (h : s.perform? c = some s') :
    s'.document = s.document.apply c := by
  unfold perform? at h
  split at h
  · obtain rfl := Option.some.inj h
    exact document_perform s c
  · cases h

theorem Stage.evolves_of_perform {s s' : Stage} {c : Change} (h : s.perform? c = some s') :
    s.document.Evolves s'.document := by
  unfold perform? at h
  split at h
  · rename_i hadmits
    obtain rfl := Option.some.inj h
    exact .single hadmits
  · simp at h

theorem Stage.carryOut?_of_aims {bound : Nat} : ∀ {steps : List Step} {s : Stage},
    s.document.Closed → bound ≤ s.document.size → (∀ step ∈ steps, step.Aims bound) →
    ∃ s', s.carryOut? steps = some s' ∧
      s'.document = s.document.applyAll (steps.map Step.change) ∧
      s.document.AdmitsAll (steps.map Step.change)
  | [], s, _, _, _ => ⟨s, rfl, rfl, trivial⟩
  | step :: rest, s, hd, hle, h => by
    rw [List.forall_mem_cons] at h
    have hadmits : (s.note step.event).document.admits step.change = true := h.1.admits hd hle
    have hclosed : (s.document.apply step.change).Closed := hd.apply hadmits
    have hsize := Nat.le_trans hle (Document.size_le_apply s.document step.change)
    obtain ⟨s', hs', hdoc, hadmits'⟩ :=
      @carryOut?_of_aims bound rest ((s.note step.event).perform step.change) hclosed hsize h.2
    refine ⟨s', ?_, hdoc, hadmits, hadmits'⟩
    simp only [carryOut?, perform?, hadmits, if_true, Option.bind_some]
    exact hs'

namespace Instance

variable {d : Document} {live fresh : Instance}

theorem aims_of_planEdits (hlive : live.Whole) (hd : d.Closed)
    (hnested : ∀ n m plan, live.Uses n → n.plan d m = .ok plan →
      ∀ step ∈ plan.steps, step.Aims d.size) :
    ∀ {es : List Edit} {nodes : List Nat} {number : Nat} {plans : EditPlans},
      (∀ e ∈ es, e ∈ live.block.edits) → nodes.length = es.length → (∀ x ∈ nodes, x < d.size) →
      planEdits d (facingsOf live.props) fresh number es nodes = .ok plans →
      ∀ step ∈ plans.steps, step.Aims d.size
  | [], _, _, plans, _, _, _, h => by
    obtain rfl := Except.ok.inj h
    simp
  | e :: rest, [], _, _, _, hlen, _, _ => by simp at hlen
  | e :: rest, node :: nodes, number, plans, hsub, hlen, hlt, h => by
    rw [List.forall_mem_cons] at hsub hlt
    obtain ⟨plan, plans', hedit, hrest, rfl⟩ := planEdits_cons_iff.mp h
    have ih := aims_of_planEdits hlive hd hnested hsub.2 (by simpa using hlen) hlt.2 hrest
    have hplans := @Instance.plans d live fresh hlive e hsub.1 node hlt.1 number
    rw [hedit] at hplans
    cases hplans with
    | skip _ _ _ => exact ih
    | attr _ _ _ => exact List.forall_mem_cons.mpr ⟨hlt.1, ih⟩
    | text _ _ _ hleaf =>
      -- the text was found as a child, so it was issued
      exact List.forall_mem_cons.mpr ⟨hd.children (List.mem_of_getElem? hleaf), ih⟩
    | nested hold _ hplan =>
      exact List.forall_mem_append.mpr ⟨hnested _ _ _ ⟨_, hsub.1, hold⟩ hplan, ih⟩

theorem aims_of_plan (hd : d.Closed) (hlive : live.Settled d.size) :
    ∀ {fresh : Instance} {plan : Plan}, live.plan d fresh = .ok plan →
      ∀ step ∈ plan.steps, step.Aims d.size := by
  induction live using Instance.induction with
  | _ live ih =>
    intro fresh plan h
    obtain ⟨-, -, plans, hplans, rfl⟩ := plan_of_ok h
    refine aims_of_planEdits hlive.here.1 hd ?_ (fun _ he => he) hlive.here.1.resolved
      hlive.here.2 hplans
    rintro n m plan ⟨e, he, hn⟩ hplan
    exact ih e.hole n hn (hlive.nested ⟨e, he, hn⟩) hplan

/-- What a patch does when its plan is not refused. -/
theorem patch_of_ok {s : Stage} {plan : Plan} (hd : s.document.Closed)
    (hlive : live.Settled s.document.size) (h : live.plan s.document fresh = .ok plan) :
    (live.patch fresh s).live = plan.adopted ∧ (live.patch fresh s).outcome = .ok plan.stats ∧
      (live.patch fresh s).stage.document =
        s.document.applyAll (plan.steps.map Step.change) ∧
      s.document.AdmitsAll (plan.steps.map Step.change) := by
  obtain ⟨s', hs', hdoc, hadmits⟩ :=
    Stage.carryOut?_of_aims hd (Nat.le_refl _) (aims_of_plan hd hlive h)
  refine ⟨?_, ?_, ?_, hadmits⟩ <;> simp only [patch, h, hs']
  simpa using hdoc

theorem patch_of_error {s : Stage} {failure : Failure}
    (h : live.plan s.document fresh = .error failure) :
    live.patch fresh s = ⟨s, live, .error failure⟩ := by
  simp [patch, h]

/-- What a patch of an instance in its document comes to: it is refused for the first fault
and changes nothing, or there is no fault and the plan is carried out. -/
theorem patch_cases {s : Stage} (hd : s.document.Closed)
    (hlive : live.isMounted = true → live.Settled s.document.size) (fresh : Instance) :
    (∃ place error, First (Fault s.document live fresh) place error ∧
      live.patch fresh s = ⟨s, live, .error (.refused error)⟩) ∨
    (∀ place error, ¬ Fault s.document live fresh place error) ∧ ∃ plan,
      live.plan s.document fresh = .ok plan ∧ live.isMounted = true ∧
        (live.patch fresh s).outcome = .ok plan.stats := by
  have hjudged := judged_plan hlive fresh
  cases h : live.plan s.document fresh with
  | error failure =>
    rw [h] at hjudged
    obtain ⟨place, error, rfl, hfirst⟩ := hjudged
    exact .inl ⟨place, error, hfirst, patch_of_error h⟩
  | ok plan =>
    rw [h] at hjudged
    obtain ⟨-, hmounted, -⟩ := plan_of_ok h
    exact .inr ⟨hjudged, plan, rfl, hmounted, (patch_of_ok hd (hlive hmounted) h).2.1⟩

/-- A patch fails with the error of the first fault, and only if there is one. -/
theorem patch_error_iff {s : Stage} (hd : s.document.Closed)
    (hlive : live.isMounted = true → live.Settled s.document.size) (fresh : Instance)
    (failure : Failure) : (live.patch fresh s).outcome = .error failure ↔
      ∃ place error, failure = .refused error ∧ First (Fault s.document live fresh) place error := by
  rcases patch_cases hd hlive fresh with ⟨place, error, hfirst, hpatch⟩ | ⟨hnone, plan, -, -, hok⟩
  · rw [hpatch]
    refine ⟨fun h => ⟨place, error, (Except.error.inj h).symm, hfirst⟩, ?_⟩
    rintro ⟨place', error', rfl, hfirst'⟩
    rw [hfirst.unique hfirst']
  · rw [hok]
    refine ⟨fun h => by simp at h, ?_⟩
    rintro ⟨place, error, -, hfirst⟩
    exact absurd hfirst.1 (hnone place error)

/-- What a patch keeps, whatever it comes to. -/
structure Patched (live : Instance) (s : Stage) (p : Patching) : Prop where
  evolves : s.document.Evolves p.stage.document
  continues : live.Along Continues p.live
  mounted : p.live.isMounted = live.isMounted
  settled : live.isMounted = true → p.live.Settled p.stage.document.size
  tidy : p.live.Everywhere Tidy

theorem patched {s : Stage} (hd : s.document.Closed)
    (hlive : live.isMounted = true → live.Settled s.document.size) (htidy : live.Everywhere Tidy)
    (hfresh : fresh.Everywhere Tidy) : live.Patched s (live.patch fresh s) := by
  rcases patch_cases hd hlive fresh with ⟨_, _, _, hpatch⟩ | ⟨-, plan, hplan, hm, -⟩
  · rw [hpatch]
    exact ⟨.refl, .refl Continues.refl live, rfl, hlive, htidy⟩
  · have hsettled := hlive hm
    obtain ⟨hlive', -, hdoc, hadmits⟩ := patch_of_ok hd hsettled hplan
    have hevolves : s.document.Evolves (live.patch fresh s).stage.document := by
      rw [hdoc]
      exact hadmits.evolves
    have hordered := hfresh.mono fun _ hj => hj.sorted
    have hadopted := adopted_settled (Nat.le_refl _) hsettled hordered hplan
    refine ⟨hevolves, ?_, ?_, fun _ => ?_, ?_⟩ <;> rw [hlive']
    · exact hadopted.2
    · rw [isMounted, hadopted.2.here.root hm]
      rfl
    · exact hadopted.1.mono hevolves.size_le
    · exact adopted_tidy (Nat.le_refl _) hsettled htidy hfresh hplan

end Instance

end Stencil
