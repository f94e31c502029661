import Stencil.Proofs.Document.Moving
import Stencil.Proofs.Document.Walk
import Stencil.Proofs.Instance.Separation
import Stencil.Proofs.World
/- Documents stay forests. Nothing in a document keeps a node from being put below itself, so
   this is up to the callers: in worlds that come of calls which do not (`Tended`), mounts and
   patches never make a circle either, whatever they come to. So every reader of every document
   comes to its end (`tended_legible`). -/
namespace Stencil

/-- What is done in a world from outside: a call on a document, or an act on instances. -/
inductive Deed where
  | call (document : Nat) (c : Call)
  | act (a : Act)

namespace World

/-- The world after a deed, if it is possible. -/
def does (w : World) : Deed → Option World
  | .call document c => (w.stages[document]?).bind fun s =>
      w.run ((c.changes s.document.nextId).map (.change document))
  | .act a => w.step a

/-- Documents are changed by calls, and these are grounded; all ids are issued by then. -/
def Allows (w : World) : Deed → Prop
  | .call document c => ∀ s, w.stages[document]? = some s →
      (∀ x ∈ c.names, s.document.issued x = true) ∧ c.Grounded s.document
  | .act (.change _ _) => False
  | .act (.mount _ document target) => ∀ s, w.stages[document]? = some s →
      s.document.issued target = true
  | .act _ => True

/-- The worlds that come of deeds that were allowed in their turn. -/
inductive Tended : World → Prop where
  | empty : Tended .empty
  | step {w w' : World} (deed : Deed) :
      Tended w → w.Allows deed → w.does deed = some w' → Tended w'

/-- All documents are forests. -/
def Wooded (w : World) : Prop :=
  ∀ (document : Nat) (s : Stage), w.stages[document]? = some s → s.document.Forest

section Steps

variable {w w' : World} {document : Nat} {s : Stage}

theorem Wooded.set (hw : w.Wooded) {s' : Stage} (hs' : s'.document.Forest) {j : Nat} {t : Stage}
    (ht : (w.stages.set document s')[j]? = some t) : t.document.Forest := by
  rw [List.getElem?_set] at ht
  split at ht
  · split at ht
    · obtain rfl := Option.some.inj ht
      exact hs'
    · cases ht
  · exact hw j t ht

/-- Changes of one document make it what they make of a document, and leave the others. -/
theorem stages_of_changes {cs : List Change} (hs : w.stages[document]? = some s)
    (h : w.run (cs.map (.change document)) = some w') :
    ∃ s', w'.stages = w.stages.set document s' ∧ s'.document = s.document.applyAll cs := by
  induction cs generalizing w s with
  | nil =>
    obtain rfl := Option.some.inj h
    obtain ⟨hlt, hget⟩ := List.getElem?_eq_some_iff.mp hs
    exact ⟨s, by rw [← hget, List.set_getElem_self], rfl⟩
  | cons c rest ih =>
    simp only [List.map_cons, run, step, hs, Option.bind_some, Option.bind_eq_some_iff,
      Option.map_eq_some_iff] at h
    obtain ⟨w₁, ⟨s₁, hperform, rfl⟩, hrest⟩ := h
    have hlt := (List.getElem?_eq_some_iff.mp hs).1
    have hs₁ : (w.restage document s₁).stages[document]? = some s₁ := by
      simp [restage, hlt]
    obtain ⟨s', hstages, hdoc⟩ := ih hs₁ hrest
    refine ⟨s', ?_, ?_⟩
    · rw [hstages, restage, List.set_set]
    · rw [hdoc, Document.applyAll_cons, Stage.document_of_perform hperform]

/-- An act that is allowed leaves forests. -/
theorem Wooded.act (hw : w.Wooded) (hsound : w.Sound) {a : Act} (hallows : w.Allows (.act a))
    (h : w.step a = some w') : w'.Wooded := by
  intro j t ht
  cases a with
  | begin =>
    obtain rfl := Option.some.inj h
    rcases List.mem_append.mp (List.mem_of_getElem? ht) with hm | hm
    · obtain ⟨j, hj⟩ := List.mem_iff_getElem?.mp hm
      exact hw j t hj
    · obtain rfl := List.mem_singleton.mp hm
      exact Document.forest_blank
  | change document c => exact hallows.elim
  | instantiate block contents =>
    simp only [step, Option.map_eq_some_iff] at h
    obtain ⟨⟨w₁, pairs⟩, hgather, rfl⟩ := h
    exact hw j t ((gather_spec hgather).1 ▸ ht)
  | mount k document target =>
    simp only [step, Option.bind_eq_some_iff, Option.map_eq_some_iff] at h
    obtain ⟨h, hk, s, hs, rfl⟩ := h
    refine hw.set ?_ ht
    cases hm : h.inst.isMounted with
    | true =>
      rw [Instance.mount_of_mounted hm]
      exact hw document s hs
    | false =>
      have hlt := Document.issued_iff.mp (hallows s hs)
      exact (Instance.grafts_mount (hsound.reachable hs) (hw document s hs) hlt hm).forest
  | patch k next document =>
    simp only [step, Option.bind_eq_some_iff] at h
    obtain ⟨h, hk, fresh, hnext, s, hs, hif⟩ := h
    split at hif
    · rename_i hcond
      obtain rfl := Option.some.inj hif
      refine hw.set ?_ ht
      exact Instance.forest_patch (hsound.reachable hs).closed (hw document s hs)
        (hsound.settled hk hs hcond.2) fresh.inst
    · cases hif

/-- **A deed that is allowed leaves forests.** -/
theorem Wooded.does (hw : w.Wooded) (hsound : w.Sound) {deed : Deed} (hallows : w.Allows deed)
    (h : w.does deed = some w') : w'.Wooded := by
  cases deed with
  | call document c =>
    intro j t ht
    simp only [World.does, Option.bind_eq_some_iff] at h
    obtain ⟨s, hs, hrun⟩ := h
    obtain ⟨s', hstages, hdoc⟩ := stages_of_changes hs hrun
    have hreachable := hsound.reachable hs
    obtain ⟨hissued, hgrounded⟩ := hallows s hs
    have hforest : s'.document.Forest := by
      rw [hdoc]
      exact (hw document s hs).call hreachable.closed hreachable.linked hgrounded fun x hx =>
        Document.issued_iff.mp (hissued x hx)
    exact hw.set hforest (hstages ▸ ht)
  | act a => exact hw.act hsound hallows h

theorem Sound.does (hsound : w.Sound) {deed : Deed} (h : w.does deed = some w') : w'.Sound := by
  cases deed with
  | call document c =>
    simp only [World.does, Option.bind_eq_some_iff] at h
    obtain ⟨s, -, hrun⟩ := h
    exact (run_follows hsound hrun).1
  | act a => exact (step_follows hsound h).1

end Steps

/-- **Documents stay forests, and their readers come to an end.** In a world that comes of
calls, mounts and patches in any order, of which no call puts a node below itself, no node of
any document is above itself. So the markup of each node, its text and the markup of what is
below it are found, on walks that visit each node once that is not below a text node. -/
theorem tended_legible {w : World} (h : w.Tended) {document : Nat} {s : Stage}
    (hs : w.stages[document]? = some s) : s.document.Forest ∧
      ∀ x, s.document.issued x = true → s.document.Legible x := by
  have hkept : w.Sound ∧ w.Wooded := by
    clear hs
    induction h with
    | empty => exact ⟨empty_sound, fun _ _ hs => by simp [empty] at hs⟩
    | step _ _ hallows hdoes ih => exact ⟨ih.1.does hdoes, ih.2.does ih.1 hallows hdoes⟩
  have hreachable := hkept.1.reachable hs
  have hforest := hkept.2 document s hs
  exact ⟨hforest, fun x hx => hforest.legible hreachable.linked hreachable.closed
    (Document.issued_iff.mp hx)⟩

/-- A card is mounted and moved into a copy of a skeleton, and then patched. -/
def cardDeeds : List Deed :=
  cardActs.map .act ++
    [.call 0 (.cloneSkeleton (.element "p" [] [.text "see"])), .call 0 (.appendChild 7 1),
      .call 0 (.appendChild 0 7),
      .act (.instantiate Sample.badgeBlock
        [("tone", .scalar .null), ("word", .scalar (.str "hot"))]),
      .act (.instantiate Sample.cardBlock
        [("badge", .taken 2), ("remark", .scalar .null), ("tip", .scalar (.str "more"))]),
      .act (.patch 1 3 0)]

/-- The world after the first of these deeds. -/
def worldAfter (count : Nat) : World :=
  ((cardDeeds.take count).foldlM does empty).getD empty

theorem tended_mounted : (worldAfter 4).Tended := by
  have h₁ : (worldAfter 1).Tended := .step cardDeeds[0] .empty trivial rfl
  have h₂ : (worldAfter 2).Tended := .step cardDeeds[1] h₁ trivial rfl
  have h₃ : (worldAfter 3).Tended := .step cardDeeds[2] h₂ trivial rfl
  refine .step cardDeeds[3] h₃ (fun s hs => ?_) rfl
  obtain rfl := Option.some.inj hs
  rfl

/-- The copy has no parent when the card is moved into it, and the body never has. -/
theorem tended_moved : (worldAfter 7).Tended := by
  have h₅ : (worldAfter 5).Tended :=
    .step cardDeeds[4] tended_mounted (fun _ _ => ⟨List.forall_mem_nil _, trivial⟩) rfl
  have h₆ : (worldAfter 6).Tended := by
    refine .step cardDeeds[5] h₅ (fun s hs => ?_) rfl
    obtain rfl := Option.some.inj hs
    exact ⟨List.forall_mem_cons.mpr ⟨rfl, List.forall_mem_singleton.mpr rfl⟩, by decide,
      Document.not_above_of_parent? rfl⟩
  refine .step cardDeeds[6] h₆ (fun s hs => ?_) rfl
  obtain rfl := Option.some.inj hs
  exact ⟨List.forall_mem_cons.mpr ⟨rfl, List.forall_mem_singleton.mpr rfl⟩, by decide,
    Document.not_above_of_parent? rfl⟩

/-- The patched card is read in its new place. -/
theorem tended_legible_card : (worldAfter 10).Tended ∧ ∃ s,
    (worldAfter 10).stages[0]? = some s ∧
      s.document.markup? 0 = some "<body><p>see<p title=\"more\"><b>hot</b></p></p></body>" ∧
      s.document.Forest ∧ ∀ x, s.document.issued x = true → s.document.Legible x := by
  have h₈ : (worldAfter 8).Tended := .step cardDeeds[7] tended_moved trivial rfl
  have h₉ : (worldAfter 9).Tended := .step cardDeeds[8] h₈ trivial rfl
  have h₁₀ : (worldAfter 10).Tended := .step cardDeeds[9] h₉ trivial rfl
  exact ⟨h₁₀, _, rfl, rfl, @tended_legible _ h₁₀ 0 _ rfl⟩

end World

end Stencil
