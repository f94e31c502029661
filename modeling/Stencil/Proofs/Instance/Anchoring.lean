import Stencil.Proofs.Instance.Dues
import Stencil.Proofs.Instance.Patching
/- Patches that keep the tree. A patch looks for the text of a scalar at the index that its
   edit has in the fragment. An instance is `Anchored` if what it finds there is a text node;
   then all that a patch owes is attributes and contents of text nodes, and no link changes.
   This depends on links and on what kind of value a slot has, which no patch changes, so it
   holds of every run of patches if it holds at first (`patchAll_persists`). -/
namespace Stencil

namespace Instance

/-- What the edits of the instance find in the place of the text of a scalar is a text. -/
def Anchored (d : Document) (i : Instance) : Prop :=
  ∀ path index hole node value leaf, (Edit.child path index hole, node) ∈ i.block.edits.zip i.resolved →
    i.prop? hole = some (.scalar value) → d.childAt? node index = some leaf → d.isText leaf = true

/-- The edits of the instance do find something in the place of the text of a scalar. -/
def Reaching (d : Document) (i : Instance) : Prop :=
  ∀ path index hole node value, (Edit.child path index hole, node) ∈ i.block.edits.zip i.resolved →
    i.prop? hole = some (.scalar value) → d.childAt? node index ≠ none

/-- The second instance is like the first and has its nodes. -/
structure Persists (i j : Instance) : Prop where
  alike : i.Alike j
  root : j.root = i.root
  resolved : j.resolved = i.resolved

namespace Persists

variable {i j k : Instance}

theorem refl (i : Instance) : i.Persists i :=
  ⟨⟨rfl, fun _ _ => rfl⟩, rfl, rfl⟩

theorem trans (h : i.Persists j) (h' : j.Persists k) : i.Persists k :=
  ⟨h.alike.trans h'.alike, h'.root.trans h.root, h'.resolved.trans h.resolved⟩

/-- The same nodes belong to the same edits, and a scalar is where a scalar was. -/
theorem scalar (h : i.Persists j) {path : Path} {index node : Nat} {hole : String} {value : Scalar}
    (he : (Edit.child path index hole, node) ∈ j.block.edits.zip j.resolved)
    (hv : j.prop? hole = some (.scalar value)) :
    (Edit.child path index hole, node) ∈ i.block.edits.zip i.resolved ∧
      ∃ old, i.prop? hole = some (.scalar old) := by
  have hmem := (List.of_mem_zip he).1
  rw [h.alike.block, h.resolved] at he
  exact ⟨he, h.alike.symm.scalar hmem hv⟩

end Persists

section Redrawn

variable {ids : List Nat} {d e : Document} {i j : Instance}

theorem Anchored.keep (h : d.Redrawn ids e) (hij : i.Persists j) (hi : i.Anchored d) :
    j.Anchored e := by
  intro path index hole node value leaf he hv hleaf
  obtain ⟨he, old, hold⟩ := hij.scalar he hv
  rw [h.isText]
  exact hi path index hole node old leaf he hold (h.childAt? node index ▸ hleaf)

theorem Reaching.keep (h : d.Redrawn ids e) (hij : i.Persists j) (hi : i.Reaching d) :
    j.Reaching e := by
  intro path index hole node value he hv
  obtain ⟨he, old, hold⟩ := hij.scalar he hv
  rw [h.childAt?]
  exact hi path index hole node old he hold

end Redrawn

section Owes

variable {d : Document} {live fresh : Instance}

theorem retouches_of_owesFor (hanchored : live.Anchored d)
    (hnested : ∀ n m cs, live.Uses n → Owes d n m cs → ∀ c ∈ cs, c.Retouches d) :
    ∀ {es : List Edit} {nodes : List Nat} {cs : List Change},
      es.zip nodes ⊆ live.block.edits.zip live.resolved → OwesFor d live fresh es nodes cs →
      ∀ c ∈ cs, c.Retouches d
  | [], _, _, _, h => by
    cases h
    simp
  | e :: es, nodes, cs, hsub, h => by
    cases h with
    | equal _ _ _ rest =>
      exact retouches_of_owesFor hanchored hnested (List.cons_subset.mp hsub).2 rest
    | attr _ _ _ rest =>
      have ih := retouches_of_owesFor hanchored hnested (List.cons_subset.mp hsub).2 rest
      exact List.forall_mem_cons.mpr ⟨trivial, ih⟩
    | text hold _ _ hleaf rest =>
      obtain ⟨he, hsub⟩ := List.cons_subset.mp hsub
      have ih := retouches_of_owesFor hanchored hnested hsub rest
      exact List.forall_mem_cons.mpr ⟨hanchored _ _ _ _ _ _ he hold hleaf, ih⟩
    | nested hold _ h rest =>
      obtain ⟨he, hsub⟩ := List.cons_subset.mp hsub
      have ih := retouches_of_owesFor hanchored hnested hsub rest
      have huses : live.Uses _ := ⟨_, (List.of_mem_zip he).1, hold⟩
      exact List.forall_mem_append.mpr ⟨hnested _ _ _ huses h, ih⟩

/-- What is owed to an anchored instance does not change a link. -/
theorem retouches_of_owes (hanchored : live.Throughout (Anchored d)) :
    ∀ {fresh : Instance} {cs : List Change}, Owes d live fresh cs → ∀ c ∈ cs, c.Retouches d := by
  induction live using Instance.induction with
  | _ live ih =>
    rintro fresh cs ⟨h⟩
    refine retouches_of_owesFor hanchored.here ?_ (List.Subset.refl _) h
    rintro n m cs ⟨e, he, hn⟩ hcs
    exact ih e.hole n hn (hanchored.nested ⟨e, he, hn⟩) hcs

end Owes

section Runs

variable {live fresh live' : Instance} {s s' : Stage}

/-- What a run of patches keeps of an instance in its document, if none is refused. -/
structure Endures (live : Instance) (s : Stage) (live' : Instance) (s' : Stage) : Prop where
  closed : s'.document.Closed
  settled : live'.Settled s'.document.size
  persists : live.Along Persists live'
  redrawn : live.Throughout (Anchored s.document) → ∃ ids, s.document.Redrawn ids s'.document

theorem Endures.throughout {P : Document → Instance → Prop} (h : Endures live s live' s')
    (hP : ∀ ids (d e : Document) i j, d.Redrawn ids e → i.Persists j → P d i → P e j)
    (hanchored : live.Throughout (Anchored s.document)) (hlive : live.Throughout (P s.document)) :
    live'.Throughout (P s'.document) := by
  obtain ⟨ids, hredrawn⟩ := h.redrawn hanchored
  exact h.persists.throughout (fun _ _ => Persists.alike)
    (fun i j hij hi => hP ids _ _ i j hredrawn hij hi) hlive

theorem patch_endures {stats : PatchStats} (hd : s.document.Closed)
    (hlive : live.Settled s.document.size) (hfresh : fresh.Everywhere Ordered)
    (h : (live.patch fresh s).outcome = .ok stats) :
    Endures live s (live.patch fresh s).live (live.patch fresh s).stage := by
  obtain ⟨cs, howes, -, hdoc, -⟩ := patch_owes hd (fun _ => hlive) h
  rcases patch_cases hd (fun _ => hlive) fresh with ⟨_, _, -, hpatch⟩ | ⟨-, plan, hplan, -, -⟩
  · rw [hpatch] at h
    simp at h
  · obtain ⟨hadopted, -, hdoc', hadmits⟩ := patch_of_ok hd hlive hplan
    have hevolves : s.document.Evolves (live.patch fresh s).stage.document := by
      rw [hdoc']
      exact hadmits.evolves
    constructor
    · exact hevolves.closed hd
    · rw [hadopted]
      exact (adopted_settled (Nat.le_refl _) hlive hfresh hplan).1.mono hevolves.size_le
    · rw [hadopted]
      exact adopted_along (fun _ _ _ h hw => ⟨h.alike hw, h.root, h.resolved⟩) (Nat.le_refl _) hlive
        hfresh hplan
    · intro hanchored
      rw [hdoc]
      exact Document.redrawn_of_retouches (retouches_of_owes hanchored howes)

theorem Endures.trans {live'' : Instance} {s'' : Stage} (h : Endures live s live' s')
    (h' : Endures live' s' live'' s'') : Endures live s live'' s'' where
  closed := h'.closed
  settled := h'.settled
  persists := h.persists.trans (fun _ _ => Persists.alike) (fun _ _ _ => Persists.trans) h'.persists
  redrawn hanchored := by
    obtain ⟨ids, hredrawn⟩ := h.redrawn hanchored
    obtain ⟨ids', hredrawn'⟩ := h'.redrawn <|
      h.throughout (fun _ _ _ _ _ => Anchored.keep) hanchored hanchored
    exact ⟨ids ++ ids', (hredrawn.mono (List.subset_append_left ..)).trans
      (hredrawn'.mono (List.subset_append_right ..))⟩

theorem patchAll_endures : ∀ {qs : List Instance} {live : Instance} {s : Stage},
    s.document.Closed → live.Settled s.document.size → (∀ q ∈ qs, q.Everywhere Ordered) →
    live.patchAll s qs = some (live', s') → Endures live s live' s'
  | [], live, s, hd, hlive, _, h => by
    obtain ⟨rfl, rfl⟩ := Prod.mk.inj (Option.some.inj h)
    exact ⟨hd, hlive, .refl Persists.refl live, fun _ => ⟨[], .refl [] s.document⟩⟩
  | q :: rest, live, s, hd, hlive, hqs, h => by
    rw [List.forall_mem_cons] at hqs
    rw [patchAll] at h
    split at h
    · simp at h
    · rename_i stats hok
      have hfirst := patch_endures hd hlive hqs.1 hok
      exact hfirst.trans (patchAll_endures hfirst.closed hfirst.settled hqs.2 h)

end Runs

end Instance

end Stencil
