import Stencil.Proofs.Document.Forest
import Stencil.Proofs.Instance.Confinement
import Stencil.Proofs.Rendering
/- A mount is a graft. Its new nodes hang together among themselves, with one link to an old
   node, the target (`Grafts`). All that it does puts later nodes below earlier ones
   (`mount_descends`), so in a forest it leaves a forest, wherever it stops. -/
namespace Stencil

namespace Document

theorem hang_descends {d : Document} (hd : d.Closed) (s : Skeleton) {target : Nat}
    (ht : target < d.size) : d.Descends (d.hang s target) := by
  have ht₁ : target < (d.applyAll (s.copy d.size)).size := by
    rw [(applyAll_copy s d).size]
    omega
  rw [hang_eq]
  refine .applyAll (admits_hang hd s ht₁) fun c hc => ?_
  rcases List.mem_append.mp hc with hc | hc
  · exact s.descends_copy d.size hc
  · rcases List.mem_cons.mp hc with rfl | hc
    · trivial
    · obtain rfl := List.mem_singleton.mp hc
      exact ht

theorem insertText_descends {d : Document} {node : Nat} (content : String) (index : Nat)
    (hnode : node < d.size) :
    d.Descends (d.applyAll [.createText content d.size, .insertChild node index d.size]) := by
  refine .applyAll (admits_insertText content index hnode) ?_
  simp only [List.forall_mem_cons]
  exact ⟨trivial, hnode, by simp⟩

/-- What a mount leaves of a forest: it hosts the new nodes at the target, no other new node is
below an old one, and it is a forest still. -/
structure Grafts (d e : Document) (target : Nat) : Prop extends d.Hosts e target where
  within : ∀ x, d.size < x → ∀ p : Nat, e.parent? x = some p → d.size ≤ p
  forest : e.Forest

theorem Hosts.within {d e : Document} {target x p : Nat} (h : d.Hosts e target) (hd : d.Closed)
    (he : e.Linked) (hx : d.size < x) (hp : e.parent? x = some p) : d.size ≤ p := by
  by_contra hlt
  have hlt : p < d.size := Nat.lt_of_not_le hlt
  have hmem : x ∈ e.children p := he.mem_children.mpr hp
  by_cases ht : p = target
  · rw [ht, h.only, List.mem_singleton] at hmem
    omega
  · rw [h.children p hlt ht] at hmem
    exact Nat.lt_asymm hx (hd.children hmem)

theorem Hosts.sprouts {d e : Document} {target : Nat} (h : d.Hosts e target) (he : e.Linked)
    (hrises : e.Rises d.size) : d.Sprouts e := by
  refine hrises.sprouts he (Nat.le_of_lt h.grown) fun x hx p hp => ?_
  rw [h.parent x hx] at hp
  split at hp
  · simp at hp
  · exact hp

end Document

namespace Instance

theorem descends_fillEdit (i : Instance) {root : Nat}
    (hnested : ∀ slot n, i.prop? slot = some (.block n) → ∀ {target : Nat} {s : Stage},
      s.document.Closed → target < s.document.size →
      s.document.Descends (n.mount target s).stage.document)
    {p : Progress} (number : Nat) (edit : Edit) (hp : p.stage.document.Closed)
    (hroot : root < p.stage.document.size) :
    p.stage.document.Descends
      (p.fillEdit i.block (fillingsOf i.props) root number edit).1.stage.document := by
  have hnode : ∀ {path node}, p.stage.document.resolve? root path = some node →
      node < p.stage.document.size := fun hr => Document.lt_size_of_resolve? hp hroot hr
  refine Progress.document_fillEdit number edit .refl ?_ ?_ ?_
  · intro path node name value hr
    refine .step .refl (Document.admits_iff.mpr ?_) trivial
    simpa [Document.touched] using hnode hr
  · intro path node content index hr
    exact Document.insertText_descends content index (hnode hr)
  · intro path node slot n hr hv
    exact hnested slot n hv hp (hnode hr)

/-- **A mount puts later nodes below earlier ones**, and moves no old node. -/
theorem mount_descends (i : Instance) : ∀ {target : Nat} {s : Stage}, s.document.Closed →
    target < s.document.size → s.document.Descends (i.mount target s).stage.document := by
  induction i using Instance.induction with
  | _ i ih =>
    intro target s hd ht
    cases hm : i.isMounted with
    | true =>
      rw [mount_of_mounted hm]
      exact .refl
    | false =>
      have hstart : s.document.Descends (i.staged target s).document ∧
          s.document.size < (i.staged target s).document.size := by
        rw [document_staged]
        exact ⟨Document.hang_descends hd i.block.skeleton ht, Document.lt_size_hang ..⟩
      have hrun : s.document.Descends (i.filled target s).1.stage.document ∧
          s.document.size < (i.filled target s).1.stage.document.size := by
        refine Progress.fillEdits_induction (P := fun p => s.document.Descends p.stage.document ∧
          s.document.size < p.stage.document.size) ?_ _ 0 hstart
        intro p number edit _ hp
        have hedit := descends_fillEdit i ih number edit (hp.1.evolves.closed hd) hp.2
        exact ⟨hp.1.trans hedit, Nat.lt_of_lt_of_le hp.2 hedit.evolves.size_le⟩
      rw [mount_of_unmounted hm ht, stage_concluded]
      exact hrun.1

section Grafts

variable {i : Instance} {target : Nat} {s : Stage}

/-- The first mount of an instance grafts, whatever it comes to. -/
theorem grafts_mount (hs : s.document.Reachable) (hforest : s.document.Forest)
    (ht : target < s.document.size) (hu : i.isMounted = false) :
    s.document.Grafts (i.mount target s).stage.document target := by
  have hhosts := mount_hosts i hs.closed ht hu
  have hlinked := hhosts.evolves.linked hs.linked
  have hrises := (i.mount_descends hs.closed ht).rises (Document.rises_size s.document)
  have hsprouts := hhosts.sprouts hlinked hrises
  exact
    { hhosts with
      within := fun x hx p hp => hhosts.within hs.closed hlinked hx hp
      forest := hforest.sprouts hs.closed hsprouts }

/-- **A mount is confined to its target**, whether it succeeds or fails, and wherever it stops.
Nodes that were there before keep their kind, their children and their parent, except that the
target has the new root for its only child and its former children have no parent. New nodes
have links to new nodes only, except for the root, and a forest stays a forest. A second mount
of an instance changes nothing at all. -/
theorem mount_grafts (hs : s.document.Reachable) (hforest : s.document.Forest)
    (ht : s.document.issued target = true) :
    (i.isMounted = false → s.document.Grafts (i.mount target s).stage.document target) ∧
      (i.isMounted = true → i.mount target s = ⟨s, i, .error (.refused .alreadyMounted)⟩) := by
  exact ⟨grafts_mount hs hforest (Document.issued_iff.mp ht), fun hm => mount_of_mounted hm target s⟩

/-- A card that has no remark is mounted as far as its title. -/
theorem mount_grafts_partial :
    let i : Instance := .new Sample.cardBlock [("tip", .scalar (.str "more"))]
    let m := i.mount 0 (.of .blank)
    m.outcome = .error (.refused (.missingProp "remark")) ∧
      m.stage.document.attribute? 1 "title" = some (.str "more") ∧
      Document.blank.Grafts m.stage.document 0 := by
  intro i m
  have hgrafts := @mount_grafts i 0 (.of .blank) .refl Document.forest_blank rfl
  exact ⟨rfl, rfl, hgrafts.1 rfl⟩

end Grafts

end Instance

end Stencil
