import Stencil.Proofs.Instance.Anchoring
import Stencil.Proofs.Instance.Merging
import Stencil.Proofs.Instance.Patching
import Stencil.Proofs.World
/- What a patch in a world leaves for the next one to compare with. -/
namespace Stencil

namespace World

/-- **A patch adopts the fresh values for its baseline.** At every depth, the instances that
child edits read stay, with their nodes, and merge their values with the fresh ones by the same
rule; every other slot takes the fresh value if there is one, and keeps its own if not. So
another patch that has the values of the edits equal to those of the last, at every depth, is
accepted; it makes no change, and reports each edit skipped that has a scalar. -/
theorem patch_adopts {acts : List Act} {w : World} (hrun : empty.run acts = some w)
    {k document : Nat} {h : Holding} {s : Stage} (hk : w.held? k = some h)
    (hs : w.stages[document]? = some s) (hmounted : h.inst.isMounted = true)
    (hhome : h.home = some document) {fresh : Instance} (hfresh : fresh.Everywhere Instance.Ordered)
    {stats : PatchStats} (hok : (h.inst.patch fresh s).outcome = .ok stats) :
    let p := h.inst.patch fresh s
    h.inst.Threefold Instance.Absorbs fresh p.live ∧
      ∀ again, h.inst.Threefold Instance.Echoes fresh again →
        let q := p.live.patch again p.stage
        let edits := p.live.block.edits
        q.outcome = .ok ⟨edits.length, edits.countP (fun e => !p.live.hasScalar e),
          edits.countP p.live.hasScalar⟩ ∧
        q.stage.changes = p.stage.changes ∧ q.stage.document = p.stage.document := by
  intro p
  obtain ⟨hsound, -⟩ := run_follows empty_sound hrun
  have hclosed := (hsound.reachable hs).closed
  have hsettled := hsound.settled hk hs (fun _ => hhome) hmounted
  have habsorbs : h.inst.Threefold Instance.Absorbs fresh p.live := by
    cases hplan : h.inst.plan s.document fresh with
    | error failure =>
      rw [Instance.patch_of_error hplan] at hok
      cases hok
    | ok plan =>
      have hlive : p.live = plan.adopted := (Instance.patch_of_ok hclosed hsettled hplan).1
      rw [hlive]
      exact Instance.threefold_absorbs hsettled hfresh hplan
  have hendures := Instance.patch_endures hclosed hsettled hfresh hok
  refine ⟨habsorbs, fun again hechoes => ?_⟩
  have hagrees := Instance.agrees_of_absorbs habsorbs hsettled.complete hechoes
  have hquiet := Instance.patch_of_agrees hendures.closed hendures.settled hagrees
  exact ⟨Instance.outcome_of_agrees hendures.closed hendures.settled hagrees, hquiet.2⟩

/-- The values of a card, of which one is another that is equal. -/
theorem labelled_agrees :
    (Instance.labelled .null (.str "hot") .null (.float ⟨0⟩)).Along Instance.Agrees
      (Instance.labelled .null (.str "hot") .null (.float .negativeZero)) := by
  refine .intro ⟨rfl, ?_⟩ fun e _ n m hn hm => ?_
  · show ∀ e ∈ [Edit.attr [] "title" "tip", .child [1] 0 "remark", .child [] 2 "badge"], _
    simp only [List.forall_mem_cons]
    exact ⟨.inl ⟨_, _, rfl, rfl, rfl⟩, .inl ⟨_, _, rfl, rfl, rfl⟩, .inr ⟨_, _, rfl, rfl⟩, by simp⟩
  · rw [Sample.eq_of_prop?_cardOf hn, Sample.eq_of_prop?_cardOf hm]
    refine .intro ⟨rfl, ?_⟩ fun _ _ _ _ hn => absurd hn Sample.prop?_badgeOf_ne
    show ∀ e ∈ [Edit.attr [] "class" "tone", .child [] 0 "word"], _
    simp only [List.forall_mem_cons]
    exact ⟨.inl ⟨_, _, rfl, rfl, rfl⟩, .inl ⟨_, _, rfl, rfl, rfl⟩, by simp⟩

/-- A card with a new tip and a new word is patched by equal values once more. -/
theorem patch_adopts_card : empty.run cardActs = some cardWorld ∧ ∃ h s,
    cardWorld.held? 1 = some h ∧ cardWorld.stages[0]? = some s ∧
      let fresh := Instance.labelled .null (.str "hot") .null (.float ⟨0⟩)
      let again := Instance.labelled .null (.str "hot") .null (.float .negativeZero)
      let p := h.inst.patch fresh s
      fresh.Everywhere Instance.Ordered ∧ h.inst.Threefold Instance.Echoes fresh again ∧
        p.outcome = .ok ⟨3, 2, 1⟩ ∧ h.inst.Threefold Instance.Absorbs fresh p.live ∧
        (p.live.patch again p.stage).outcome = .ok ⟨3, 1, 2⟩ ∧
        (p.live.patch again p.stage).stage.changes = p.stage.changes := by
  refine ⟨rfl, _, _, rfl, rfl, ?_⟩
  have hordered := Instance.labelled_ordered .null (.str "hot") .null (.float ⟨0⟩)
  have hmounted := Instance.kin_mount (.labelled .null (.str "new") .null .null) 0 (.of .blank)
  have hechoes := (hmounted.symm.trans (Instance.labelled_kin ..)).echoes labelled_agrees
  have hadopts := @patch_adopts cardActs cardWorld rfl 1 0 _ _ rfl rfl rfl rfl _ hordered _ rfl
  have hquiet := hadopts.2 _ hechoes
  exact ⟨hordered, hechoes, rfl, hadopts.1, hquiet.1, hquiet.2.1⟩

end World

end Stencil
