import Stencil.Proofs.Instance.Carrying
import Stencil.Proofs.Instance.Mounting
import Stencil.Proofs.Instance.Renewal
import Stencil.Proofs.Instance.Revision
/- Patching and mounting anew. An instance that was mounted and is then patched by instances
   that are alike, one after another, shows what the last of them would show if it were
   mounted anew, and shows it at the nodes that the mount created (`patch_remounts`). What
   every patch of such a run keeps is said in `Stays`. -/
namespace Stencil

namespace Instance

variable {source : Block → Fragment} {p live fresh : Instance} {L : Layout} {s : Stage}
  {target : Nat}

/-- The instance and the stage after patches by several fresh instances in turn, if none is
refused. -/
def patchAll (live : Instance) (s : Stage) : List Instance → Option (Instance × Stage)
  | [] => some (live, s)
  | fresh :: rest =>
    match (live.patch fresh s).outcome with
    | .error _ => none
    | .ok _ => (live.patch fresh s).live.patchAll (live.patch fresh s).stage rest

/-- The instance stands where the first one was mounted, and is like it. -/
structure Stays (source : Block → Fragment) (p : Instance) (L : Layout) (live : Instance)
    (d : Document) : Prop where
  closed : d.Closed
  settled : live.Settled d.size
  kin : p.Kin live
  stands : live.Stands source d L

/-- The instance is like the first one, and its slots are in order. -/
structure Suited (p q : Instance) : Prop where
  kin : p.Kin q
  ordered : q.Everywhere Ordered

/-- The instance is like the first one and has no negative zero, and its slots are in order. -/
structure Updates (p q : Instance) : Prop where
  kin : p.Kin q
  ordered : q.Everywhere Ordered
  exact : q.Throughout Exact

/-- Instances without a negative zero never go from one zero to the other. -/
theorem isChain_discerns {qs : List Instance} (hp : p.Throughout Exact)
    (hqs : ∀ q ∈ qs, p.Updates q) : (p :: qs).IsChain (Along Discerns) := by
  refine List.Pairwise.isChain (List.pairwise_cons.mpr ⟨fun q hq => ?_, ?_⟩)
  · exact (hqs q hq).kin.discerns hp (hqs q hq).exact
  · refine List.pairwise_of_forall_mem_list fun q hq r hr => ?_
    exact ((hqs q hq).kin.symm.trans (hqs r hr).kin).discerns (hqs q hq).exact (hqs r hr).exact

/-- What one patch of such an instance comes to. -/
theorem Stays.patch (h : Stays source p L live s.document) (hmade : p.MadeFrom source)
    (hregular : p.Throughout (Regular source)) (hnodup : L.ids.Nodup) (hfresh : p.Suited fresh)
    (hdiscerns : live.Along Discerns fresh) :
    (∃ stats, (live.patch fresh s).outcome = .ok stats) ∧
      Stays source p L (live.patch fresh s).live (live.patch fresh s).stage.document ∧
      Document.Redrawn L.ids s.document (live.patch fresh s).stage.document ∧
      live.Along Continues (live.patch fresh s).live ∧
      fresh.Along Repeats (live.patch fresh s).live := by
  have hkin := h.kin.symm.trans hfresh.kin
  obtain ⟨plan, hplan, hredraws⟩ := revises h.settled (h.kin.madeFrom hmade)
    (h.kin.regular hmade hregular) hkin hfresh.ordered hdiscerns h.stands hnodup
  obtain ⟨hlive, hok, hdoc, hadmits⟩ := patch_of_ok h.closed h.settled hplan
  obtain ⟨hredrawn, hstands⟩ := hredraws s.document fun x _ => .refl ..
  obtain ⟨hsettled, hcontinues⟩ := adopted_settled (Nat.le_refl _) h.settled hfresh.ordered hplan
  have hrepeats := adopted_repeats h.settled hkin hfresh.ordered hplan
  rw [hlive, hdoc]
  refine ⟨⟨_, hok⟩, ⟨?_, ?_, hfresh.kin.trans hrepeats.kin, hstands⟩, hredrawn, hcontinues,
    hrepeats⟩
  · exact hadmits.evolves.closed h.closed
  · rw [hredrawn.size]
    exact hsettled

/-- What a run of patches comes to, if none goes from one zero to the other. -/
theorem Stays.patchAll (hmade : p.MadeFrom source) (hregular : p.Throughout (Regular source))
    (hnodup : L.ids.Nodup) : ∀ {qs : List Instance} {live last : Instance} {s : Stage},
      Stays source p L live s.document → last.Along Repeats live → (∀ q ∈ qs, p.Suited q) →
      (last :: qs).IsChain (Along Discerns) → ∃ live' s', live.patchAll s qs = some (live', s') ∧
        Stays source p L live' s'.document ∧ Document.Redrawn L.ids s.document s'.document ∧
        live.Along Continues live' ∧ (qs.getLastD last).Along Repeats live'
  | [], live, last, s, h, hrepeats, _, _ =>
    ⟨live, s, rfl, h, .refl _ _, .refl Continues.refl live, hrepeats⟩
  | q :: rest, live, last, s, h, hrepeats, hqs, hchain => by
    rw [List.forall_mem_cons] at hqs
    rw [List.isChain_cons_cons] at hchain
    obtain ⟨⟨stats, hok⟩, hstays, hredrawn, hcontinues, hrepeats'⟩ :=
      h.patch hmade hregular hnodup hqs.1 (hrepeats.discerns hchain.1)
    obtain ⟨live', s', hall, hstays', hredrawn', hcontinues', hlast⟩ :=
      Stays.patchAll hmade hregular hnodup hstays hrepeats' hqs.2 hchain.2
    refine ⟨live', s', ?_, hstays', hredrawn.trans hredrawn',
      Continues.trans hcontinues hcontinues', ?_⟩
    · simp only [Instance.patchAll, hok, hall]
    · rw [List.getLastD_cons]
      exact hlast

/-- An instance that is mounted stays where it is. -/
theorem Lands.stays {root : Nat} (h : p.Lands source s.document (p.mount target s) L)
    (hs : s.document.Closed) (hm : (p.mount target s).outcome = .ok root) :
    Stays source p L (p.mount target s).mounted (p.mount target s).stage.document where
  closed := (mount_evolves p target hs).closed hs
  settled := mount_settled p hs hm
  kin := kin_mount p target s
  stands := h.stands

/-- The last of the instances that patch one is like it. -/
theorem kin_getLastD {qs : List Instance} (hqs : ∀ q ∈ qs, p.Kin q) : p.Kin (qs.getLastD p) := by
  rcases List.eq_nil_or_concat qs with rfl | ⟨rest, q, rfl⟩
  · -- without a patch it is the first instance itself
    exact .refl (fun _ => ⟨rfl, fun _ _ => rfl⟩) p
  · simpa using hqs q (by simp)

/-- If one instance can be mounted, one that is alike can be mounted anew, and lands. -/
theorem anew_lands {q : Instance} (hmade : p.MadeFrom source) (hp : p.mountFault source = none)
    (hkin : p.Kin q) (hs : s.document.Closed) (ht : target < s.document.size) :
    ∃ L, q.anew.Lands source s.document (q.anew.mount target s) L := by
  have hsettles := settles ((hkin.trans (anew_kin q)).madeFrom hmade) target s hs ht
  rw [mountFault_anew hmade hp hkin] at hsettles
  exact hsettles

/-- If one instance can be mounted, one that is alike can be mounted anew, and is rendered. -/
theorem anew_renders {q : Instance} (hmade : p.MadeFrom source) (hp : p.mountFault source = none)
    (hkin : p.Kin q) (hs : s.document.Closed) (ht : target < s.document.size) :
    ∃ root t, (q.anew.mount target s).outcome = .ok root ∧
      (q.anew.mount target s).stage.document.tree? root = some t ∧
      q.render source = some t.shape := by
  obtain ⟨L, hL⟩ := anew_lands hmade hp hkin hs ht
  have hown := isOwnAncestor_mount hs ht (isMounted_anew q)
  rw [← hL.id] at hown
  obtain ⟨t, htree, -, -, -, hshape⟩ := hL.stands.tree hL.nodup hown
  rw [hL.id] at htree
  refine ⟨_, t, hL.outcome, htree, ?_⟩
  calc q.render source
      = q.anew.render source := ((anew_repeats q).render (hkin.madeFrom hmade)).symm
    _ = (q.anew.mount target s).mounted.render source := hL.render.symm
    _ = some t.shape := hshape

/-! Cards with badges, as an example. -/

/-- A card with a badge. -/
def labelled (tone word remark tip : Scalar) : Instance :=
  Sample.cardOf (Sample.badgeOf tone word) remark tip

theorem labelled_neat (tone word remark tip : Scalar) :
    (labelled tone word remark tip).Throughout (Neat Sample.source) :=
  Sample.cardOf_throughout
    ⟨⟨by simp, trivial, ⟨by simp, trivial, trivial⟩, trivial, trivial⟩,
      ⟨fun _ => rfl, trivial, ⟨fun _ => rfl, trivial, trivial⟩, trivial, trivial⟩⟩
    (Sample.badgeOf_throughout
      ⟨⟨by simp, trivial, trivial⟩, ⟨fun _ => rfl, trivial, trivial⟩⟩)

theorem labelled_kin (tone word remark tip tone' word' remark' tip' : Scalar) :
    (labelled tone word remark tip).Kin (labelled tone' word' remark' tip') := by
  refine .intro ⟨rfl, ?_⟩ fun e _ n m hn hm => ?_
  · show ∀ e ∈ [Edit.attr [] "title" "tip", .child [1] 0 "remark", .child [] 2 "badge"], _
    simp only [List.forall_mem_cons]
    exact ⟨rfl, rfl, rfl, by simp⟩
  · rw [Sample.eq_of_prop?_cardOf hn, Sample.eq_of_prop?_cardOf hm]
    refine .intro ⟨rfl, ?_⟩ fun _ _ _ _ hn => absurd hn Sample.prop?_badgeOf_ne
    show ∀ e ∈ [Edit.attr [] "class" "tone", .child [] 0 "word"], _
    simp only [List.forall_mem_cons]
    exact ⟨rfl, rfl, by simp⟩

theorem labelled_ordered (tone word remark tip : Scalar) :
    (labelled tone word remark tip).Everywhere Ordered := by
  refine .intro ?_ fun slot n hn => ?_
  · have hnames : ["badge", "remark", "tip"].Pairwise (· < ·) := by decide
    exact List.pairwise_map.mp hnames
  · obtain ⟨-, rfl⟩ : slot = "badge" ∧ n = Sample.badgeOf tone word := by
      simpa [labelled, Sample.cardOf, new] using hn
    refine .intro ?_ fun slot n hn => ?_
    · have hnames : ["tone", "word"].Pairwise (· < ·) := by decide
      exact List.pairwise_map.mp hnames
    · simp [Sample.badgeOf, new] at hn

theorem labelled_exact {tone word remark tip : Scalar}
    (h : ∀ a ∈ [tone, word, remark, tip], a ≠ .float .negativeZero) :
    (labelled tone word remark tip).Throughout Exact := by
  simp only [List.forall_mem_cons] at h
  obtain ⟨htone, hword, hremark, htip, -⟩ := h
  refine Sample.cardOf_throughout ?_ (Sample.badgeOf_throughout ?_)
  · show ∀ e ∈ [Edit.attr [] "title" "tip", .child [1] 0 "remark", .child [] 2 "badge"], _
    simp only [List.forall_mem_cons]
    exact ⟨fun h => htip (by cases h; rfl), fun h => hremark (by cases h; rfl), nofun, by simp⟩
  · show ∀ e ∈ [Edit.attr [] "class" "tone", .child [] 0 "word"], _
    simp only [List.forall_mem_cons]
    exact ⟨fun h => htone (by cases h; rfl), fun h => hword (by cases h; rfl), by simp⟩

/-- **Patching is remounting.** An instance is mounted, and then patched by instances that are
like it, in turn. No patch is refused, all nodes stay, and in the end the instance shows what
the last of the others shows when it is mounted anew, wherever that is. -/
theorem patch_remounts {root : Nat} {qs : List Instance} (hs : s.document.Reachable)
    (ht : s.document.issued target) (hmade : p.MadeFrom source)
    (hneat : p.Throughout (Neat source)) (hexact : p.Throughout Exact)
    (hm : (p.mount target s).outcome = .ok root) (hqs : ∀ q ∈ qs, p.Updates q) :
    ∃ live s' t t', (p.mount target s).mounted.patchAll (p.mount target s).stage qs =
        some (live, s') ∧
      live.root = some root ∧ (p.mount target s).mounted.Along Continues live ∧
      (p.mount target s).stage.document.tree? root = some t ∧
      s'.document.tree? root = some t' ∧ t'.ids = t.ids ∧
      p.render source = some t.shape ∧ (qs.getLastD p).render source = some t'.shape ∧
      ∀ (target' : Nat) (s'' : Stage), s''.document.Reachable → s''.document.issued target' →
        ∃ root' u, ((qs.getLastD p).anew.mount target' s'').outcome = .ok root' ∧
          ((qs.getLastD p).anew.mount target' s'').stage.document.tree? root' = some u ∧
          u.shape = t'.shape := by
  have ht := Document.issued_iff.mp ht
  obtain ⟨rfl, hfault, L, hL⟩ := lands_of_ok hmade hs.closed ht hm
  have hstays := hL.stays hs.closed hm
  have hsuited : ∀ q ∈ qs, p.Suited q := fun q hq => ⟨(hqs q hq).kin, (hqs q hq).ordered⟩
  obtain ⟨live, s', hall, hstays', hredrawn, hcontinues, hrepeats⟩ :=
    hstays.patchAll hmade (hneat.mono fun _ => Neat.regular) hL.nodup (mount_repeats p target s)
      hsuited (isChain_discerns hexact hqs)
  have hown := isOwnAncestor_mount hs.closed ht (isMounted_of_mountFault hfault)
  rw [← hL.id] at hown
  obtain ⟨t, htree, hshows, hid, hnodup, hshape⟩ := hL.stands.tree hL.nodup hown
  obtain ⟨t', htree', -, -, -, hshape'⟩ := hstays'.stands.tree hL.nodup
    ((hredrawn.isOwnAncestor L.id).trans hown)
  -- the same nodes show a tree again, and there is but one tree below the root
  obtain ⟨u, hu, huids, huid⟩ := hshows.redrawn hredrawn
  have hutree := Document.tree?_of_shows hu (huids ▸ hnodup)
    (by rw [huid, hid, hredrawn.isOwnAncestor, hown])
  rw [huid, hid] at hutree
  obtain rfl := Option.some.inj (hutree.symm.trans htree')
  have hkin := kin_getLastD fun q hq => (hqs q hq).kin
  have hlast := hrepeats.render (hkin.madeFrom hmade)
  rw [hL.id] at htree htree'
  refine ⟨live, s', t, u, hall, ?_, hcontinues, htree, htree', huids, ?_, ?_, ?_⟩
  · cases hstays'.stands with
    | intro root _ _ _ => rw [root, hL.id]
  · rw [← hL.render, hshape]
  · rw [← hlast, hshape']
  · intro target' s'' hs'' ht''
    obtain ⟨root', v, hok, hv, hvshape⟩ := anew_renders hmade hfault hkin hs''.closed
      (Document.issued_iff.mp ht'')
    refine ⟨root', v, hok, hv, ?_⟩
    rw [← hlast, hshape'] at hvshape
    exact (Option.some.inj hvshape).symm

/-- A card is patched, and then patched back to what it was. -/
theorem patch_remounts_card :
    let before := labelled (.str "red") (.str "new") .null (.bool true)
    let other := labelled .null (.str "old") (.str "sold") .null
    let m := before.mount 0 (.of .blank)
    m.outcome = .ok 1 ∧ ∃ live s' t t', m.mounted.patchAll m.stage [other, before] =
        some (live, s') ∧
      live.root = some 1 ∧ m.stage.document.tree? 1 = some t ∧ s'.document.tree? 1 = some t' ∧
      t'.ids = t.ids ∧ before.render Sample.source = some t.shape ∧
      before.render Sample.source = some t'.shape := by
  intro before other m
  have hexact : before.Throughout Exact := labelled_exact (by simp)
  have hexact' : other.Throughout Exact := labelled_exact (by simp)
  have hqs : ∀ q ∈ [other, before], before.Updates q := by
    simp only [List.forall_mem_cons]
    exact ⟨⟨labelled_kin .., labelled_ordered .., hexact'⟩,
      ⟨labelled_kin .., labelled_ordered .., hexact⟩, by simp⟩
  have hm : (before.mount 0 (.of .blank)).outcome = .ok 1 := rfl
  obtain ⟨live, s', t, t', hall, hroot, -, ht, ht', hids, hshape, hshape', -⟩ :=
    @patch_remounts Sample.source before (.of .blank) 0 1 [other, before] .refl rfl
      (Sample.cardOf_madeFrom ..) (labelled_neat ..) hexact hm hqs
  exact ⟨hm, live, s', t, t', hall, hroot, ht, ht', hids, hshape, hshape'⟩

end Instance

end Stencil
