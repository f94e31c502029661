import Stencil.Proofs.Instance.Sites
/- What patches leave of the tree below an instance, and which of them are accepted, for all
   arrangements of scalars and nested instances. Where the instance is steady no patch
   changes a link (`patch_stable`), and where it is roomy as well every patch that suits it is
   accepted (`patch_accepts`). An instance in which nested instances are apart from other
   slots is both. In a heading with a badge after its lead the lead's index is the badge's
   place, so the new lead ends up in the badge (`heading_patched`), and in a caption with a
   badge and a fixed text before its lead nothing has the lead's index (`caption_refused`). -/
namespace Stencil

namespace Document

/-- The tree below a node has the same nodes again. -/
theorem Shows.tree?_redrawn {ids : List Nat} {d e : Document} {t : Tree} (ht : d.Shows t)
    (hnodup : t.ids.Nodup) (hown : d.isOwnAncestor t.id = false) (h : d.Redrawn ids e) :
    ∃ u, e.tree? t.id = some u ∧ u.ids = t.ids := by
  obtain ⟨u, hu, hids, hid⟩ := ht.redrawn h
  have hown' : e.isOwnAncestor u.id = false := by rw [hid, h.isOwnAncestor, hown]
  exact ⟨u, hid ▸ tree?_of_shows hu (hids ▸ hnodup) hown', hids⟩

end Document

namespace Instance

variable {source : Block → Fragment} {p live fresh : Instance} {s s' : Stage} {target root : Nat}
  {qs : List Instance} {L : Layout}

section Mounted

theorem Lands.anchored (h : p.Lands source s.document (p.mount target s) L)
    (hmade : p.MadeFrom source) (hsteady : p.Throughout (Steady source)) :
    (p.mount target s).mounted.Throughout (Anchored (p.mount target s).stage.document) := by
  have hkin := kin_mount p target s
  exact h.stands.throughout (hkin.madeFrom hmade) (hkin.steady hmade hsteady)
    fun _ _ hj hblock => hj.anchored hblock

theorem Lands.reaching (h : p.Lands source s.document (p.mount target s) L)
    (hmade : p.MadeFrom source) (hroomy : p.Throughout (Roomy source)) :
    (p.mount target s).mounted.Throughout (Reaching (p.mount target s).stage.document) := by
  have hkin := kin_mount p target s
  exact h.stands.throughout (hkin.madeFrom hmade) (hkin.roomy hmade hroomy)
    fun _ _ hj hblock => hj.reaching hblock

/-- What follows of a mount that succeeds and of patches after it. -/
theorem patchAll_mounted (hs : s.document.Reachable) (hm : (p.mount target s).outcome = .ok root)
    (hqs : ∀ q ∈ qs, q.Everywhere Ordered)
    (hall : (p.mount target s).mounted.patchAll (p.mount target s).stage qs = some (live, s')) :
    Endures (p.mount target s).mounted (p.mount target s).stage live s' :=
  patchAll_endures ((mount_evolves p target hs.closed).closed hs.closed)
    (mount_settled p hs.closed hm) hqs hall

end Mounted

/-- **Patches keep the tree.** An instance that is steady is mounted and then patched, as often
as one likes. Every node of the document keeps its tag, its parent and its children, and the
tree below the instance has the nodes that the mount gave it. -/
theorem patch_stable (hs : s.document.Reachable) (ht : s.document.issued target)
    (hmade : p.MadeFrom source) (hsteady : p.Throughout (Steady source))
    (hm : (p.mount target s).outcome = .ok root) (hqs : ∀ q ∈ qs, q.Everywhere Ordered)
    (hall : (p.mount target s).mounted.patchAll (p.mount target s).stage qs = some (live, s')) :
    live.root = some root ∧ s'.document.size = (p.mount target s).stage.document.size ∧
      (∀ x, s'.document.tag? x = (p.mount target s).stage.document.tag? x ∧
        s'.document.parent? x = (p.mount target s).stage.document.parent? x ∧
        s'.document.children x = (p.mount target s).stage.document.children x) ∧
      ∃ t t', (p.mount target s).stage.document.tree? root = some t ∧
        s'.document.tree? root = some t' ∧ t'.ids = t.ids := by
  have ht := Document.issued_iff.mp ht
  obtain ⟨rfl, hfault, L, hL⟩ := lands_of_ok hmade hs.closed ht hm
  have hendures := patchAll_mounted hs hm hqs hall
  obtain ⟨ids, hredrawn⟩ := hendures.redrawn (hL.anchored hmade hsteady)
  refine ⟨?_, hredrawn.size, fun x => ⟨hredrawn.tag? x, hredrawn.parent x, hredrawn.children x⟩, ?_⟩
  · rw [hendures.persists.here.root, ← hL.id]
    cases hL.stands with
    | intro root _ _ _ => exact root
  · have hown := isOwnAncestor_mount hs.closed ht (isMounted_of_mountFault hfault)
    rw [← hL.id] at hown
    obtain ⟨t, htree, hshows, hid, hnodup, -⟩ := hL.stands.tree hL.nodup hown
    obtain ⟨t', htree', hids⟩ := hshows.tree?_redrawn hnodup (hid ▸ hown) hredrawn
    rw [← hL.id]
    exact ⟨t, t', htree, hid ▸ htree', hids⟩

/-- A card keeps its tree when its tip, its remark and the word of its badge change. -/
theorem patch_stable_card :
    let m := (labelled .null (.str "new") .null .null).mount 0 (.of .blank)
    ∃ live s', m.mounted.patchAll m.stage [labelled .null (.str "old") (.str "sold") (.str "tip")] =
        some (live, s') ∧ live.root = some 1 ∧ s'.document.children 1 = [5] ∧
      ∃ t t', m.stage.document.tree? 1 = some t ∧ s'.document.tree? 1 = some t' ∧
        t'.ids = t.ids := by
  intro m
  have hsteady : (labelled .null (.str "new") .null .null).Throughout (Steady Sample.source) :=
    (labelled_neat ..).mono fun _ => Neat.steady
  have hqs : ∀ q ∈ [labelled .null (.str "old") (.str "sold") (.str "tip")],
      q.Everywhere Ordered := by
    simpa using labelled_ordered ..
  refine ⟨_, _, rfl, ?_⟩
  obtain ⟨hroot, -, hsame, htree⟩ := @patch_stable Sample.source
    (labelled .null (.str "new") .null .null) _ (.of .blank) _ 0 1 _ .refl rfl
    (Sample.cardOf_madeFrom ..) hsteady rfl hqs rfl
  exact ⟨hroot, (hsame 1).2.2.trans rfl, htree⟩

/-- **A patch that suits an instance is refused for a missing child only**, also after other
patches, and it is accepted if the instance is steady and roomy. -/
theorem patch_accepts (hs : s.document.Reachable) (ht : s.document.issued target)
    (hmade : p.MadeFrom source) (hm : (p.mount target s).outcome = .ok root)
    (hqs : ∀ q ∈ qs, q.Everywhere Ordered)
    (hall : (p.mount target s).mounted.patchAll (p.mount target s).stage qs = some (live, s'))
    (hsuits : live.Along Suits fresh) :
    (∀ failure, (live.patch fresh s').outcome = .error failure →
      ∃ k index, failure = .refused (.childMissing k index)) ∧
    (p.Throughout (Steady source) → p.Throughout (Roomy source) →
      ∃ stats, (live.patch fresh s').outcome = .ok stats) := by
  have ht := Document.issued_iff.mp ht
  obtain ⟨-, -, L, hL⟩ := lands_of_ok hmade hs.closed ht hm
  have hendures := patchAll_mounted hs hm hqs hall
  have hsettled := hendures.settled
  constructor
  · intro failure hfailed
    obtain ⟨place, error, rfl, hfirst⟩ :=
      (patch_error_iff hendures.closed (fun _ => hsettled) fresh failure).mp hfailed
    have htrue : live.Throughout fun _ => True := Throughout.mono hsettled fun _ _ => trivial
    obtain ⟨_, _, _, index, _, _, -, -, -, k, rfl⟩ :=
      childMissing_of_fault (fun _ _ h => h) hfirst.1 hsettled htrue hsuits
    exact ⟨k, index, rfl⟩
  · intro hsteady hroomy
    have hreaching := hendures.throughout (fun _ _ _ _ _ => Reaching.keep)
      (hL.anchored hmade hsteady) (hL.reaching hmade hroomy)
    rcases patch_cases hendures.closed (fun _ => hsettled) fresh with
      ⟨_, _, hfirst, -⟩ | ⟨-, plan, -, -, hok⟩
    · -- the child that is said to be missing is there
      obtain ⟨n, m, path, index, hole, node, hn, -, hlacks, -⟩ :=
        childMissing_of_fault (fun _ _ h => h) hfirst.1 hsettled hreaching hsuits
      obtain ⟨old, -, hold, -⟩ := hlacks.scalars
      exact absurd hlacks.lacking (hn path index hole node old hlacks.edit hold)
    · exact ⟨_, hok⟩

theorem Alike.suits {i j : Instance} (h : i.Alike j) : i.Suits j :=
  ⟨by simp [Block.sameAs, h.block], h.kinds⟩

/-- A card is patched twice, and the second time it is accepted as well. -/
theorem patch_accepts_card :
    let m := (labelled .null (.str "new") .null .null).mount 0 (.of .blank)
    ∃ live s', m.mounted.patchAll m.stage [labelled .null (.str "old") (.str "sold") (.str "tip")] =
        some (live, s') ∧
      ∃ stats, (live.patch (labelled (.str "red") .null (.int 3) .null) s').outcome =
        .ok stats := by
  intro m
  have hqs : ∀ q ∈ [labelled .null (.str "old") (.str "sold") (.str "tip")],
      q.Everywhere Ordered := by
    simpa using labelled_ordered ..
  obtain ⟨live, s', hall⟩ : ∃ live s', m.mounted.patchAll m.stage
      [labelled .null (.str "old") (.str "sold") (.str "tip")] = some (live, s') := ⟨_, _, rfl⟩
  have hm : m.outcome = .ok 1 := rfl
  have hs : (Stage.of .blank).document.Reachable := .refl
  have hkin := (kin_mount _ 0 _).trans <|
    (patchAll_mounted hs hm hqs hall).persists.mono fun _ _ => Persists.alike
  have hsuits : live.Along Suits (labelled (.str "red") .null (.int 3) .null) :=
    (hkin.symm.trans (labelled_kin ..)).mono fun _ _ => Alike.suits
  have hneat := labelled_neat .null (.str "new") .null .null
  exact ⟨live, s', hall, (patch_accepts hs rfl (Sample.cardOf_madeFrom ..) hm hqs hall hsuits).2
    (hneat.mono fun _ => Neat.steady) (hneat.mono fun _ => Neat.roomy)⟩

/-! A lead beside a badge, where the instance is not steady or not roomy. -/

/-- A lead before a badge. -/
def heading : List Fragment :=
  [.hole "lead", .hole "badge"]

/-- A lead after a badge and a blank. -/
def caption : List Fragment :=
  [.hole "badge", .text (.str " "), .hole "lead"]

theorem leadOf_kin {children : List Fragment} (lead lead' : Scalar) :
    (Sample.leadOf children lead).Kin (Sample.leadOf children lead') := by
  refine .intro ⟨rfl, fun e _ => ?_⟩ fun e _ n m hn hm => ?_
  · simp only [Sample.leadOf, Instance.new, prop?, Bindings.get?_cons]
    split
    · rfl
    · split <;> rfl
  · rw [Sample.eq_of_prop?_leadOf hn, Sample.eq_of_prop?_leadOf hm]
    exact .refl (fun _ => ⟨rfl, fun _ _ => rfl⟩) _

/-- The lead of a heading is written over the word of its badge: the badge, which is the node
3, loses its text, and gets another node for the lead. -/
theorem heading_patched :
    let m := (Sample.leadOf heading (.str "x")).mount 0 (.of .blank)
    let q := m.mounted.patch (Sample.leadOf heading (.str "y")) m.stage
    (Sample.leadOf heading (.str "x")).MadeFrom (Sample.leadSource heading) ∧ m.outcome = .ok 1 ∧
      q.outcome = .ok ⟨2, 2, 0⟩ ∧ m.stage.document.children 3 = [4] ∧
      q.stage.document.children 3 = [5] ∧ q.stage.document.text? 5 = some "y" :=
  ⟨Sample.leadOf_madeFrom ⟨{}, rfl⟩, rfl, rfl, rfl, rfl, rfl⟩

/-- A new lead for a caption suits it and is refused, though nothing was taken from the document
after the mount. -/
theorem caption_refused :
    let m := (Sample.leadOf caption (.str "x")).mount 0 (.of .blank)
    let q := m.mounted.patch (Sample.leadOf caption (.str "y")) m.stage
    (Sample.leadOf caption (.str "x")).MadeFrom (Sample.leadSource caption) ∧ m.outcome = .ok 1 ∧
      m.mounted.Along Suits (Sample.leadOf caption (.str "y")) ∧
      q.outcome = .error (.refused (.childMissing 1 2)) :=
  ⟨Sample.leadOf_madeFrom ⟨{}, rfl⟩, rfl,
    ((kin_mount _ 0 _).symm.trans (leadOf_kin ..)).mono fun _ _ => Alike.suits, rfl⟩

end Instance

end Stencil
