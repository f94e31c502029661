import Stencil.Proofs.Document.Twins
import Stencil.Proofs.Instance.Anchoring
import Stencil.Proofs.Instance.Grafting
import Stencil.Proofs.Instance.Sites
/- Live instances do not interfere. A patch looks at a document only at the nodes of its
   instance and at their children. Where these have twins in another document, the patch
   comes to the same there and writes the same to the twins (`plan_twins`, `patch_twins`).
   So a run of patches of two instances is compared, for one of them, with the run in which
   the patches of the other are left out. The nodes of the one are twins in the two runs;
   those of the other are a set apart, which has no links to them (`Separate`). Ids may
   differ: a text set on an element makes a new node, whose id depends on all that was
   created before. -/
namespace Stencil

open Document (Twins Owns)
open Instance (labelled)

/-- Both fail in the same way, or both succeed with related results. -/
inductive Agree {α : Type} (R : α → α → Prop) : Except Failure α → Except Failure α → Prop where
  | error (failure : Failure) : Agree R (.error failure) (.error failure)
  | ok {a b : α} (h : R a b) : Agree R (.ok a) (.ok b)

theorem Agree.map {α β : Type} {R : α → α → Prop} {S : β → β → Prop} {f g : α → β}
    {r r' : Except Failure α} (h : Agree R r r') (hfg : ∀ a b, R a b → S (f a) (g b)) :
    Agree S (r.map f) (r'.map g) := by
  cases h with
  | error failure => exact .error failure
  | ok h => exact .ok (hfg _ _ h)

section Plans

variable (T : Nat → Nat → Prop)

/-- Plans that make the same of the instance and write the same to twins. -/
structure Plan.Twin (p q : Plan) : Prop where
  changes : List.Forall₂ (Change.Twin T) (p.steps.map Step.change) (q.steps.map Step.change)
  adopted : q.adopted = p.adopted
  stats : q.stats = p.stats

/-- Plans for one edit that do the same to twins. -/
inductive EditPlan.Twin : EditPlan → EditPlan → Prop where
  | skip : Twin .skip .skip
  | step {s t : Step} (h : s.change.Twin T t.change) : Twin (.step s) (.step t)
  | nested (hole : String) {p q : Plan} (h : p.Twin T q) : Twin (.nested hole p) (.nested hole q)

/-- Plans for several edits that do the same to twins. -/
structure EditPlans.Twin (p q : EditPlans) : Prop where
  changes : List.Forall₂ (Change.Twin T) (p.steps.map Step.change) (q.steps.map Step.change)
  nested : q.nested = p.nested
  changed : q.changed = p.changed
  skipped : q.skipped = p.skipped

end Plans

theorem EditPlan.Twin.before {T : Nat → Nat → Prop} {p q : EditPlan} {ps qs : EditPlans}
    (h : p.Twin T q) (hrest : ps.Twin T qs) : (p.before ps).Twin T (q.before qs) := by
  obtain ⟨hchanges, hnested, hchanged, hskipped⟩ := hrest
  cases h with
  | skip => exact ⟨hchanges, hnested, hchanged, congrArg (· + 1) hskipped⟩
  | step h => exact ⟨.cons h hchanges, hnested, congrArg (· + 1) hchanged, hskipped⟩
  | nested hole h =>
    refine ⟨?_, ?_, congrArg (· + 1) hchanged, hskipped⟩
    · simp only [EditPlan.before, List.map_append]
      exact List.rel_append h.changes hchanges
    · simp only [EditPlan.before, hnested, h.adopted]

namespace Instance

variable {T : Nat → Nat → Prop} {d e : Document} {live : Instance}

/-- The nodes of the edits, and of those of the instances that they read, are in the set. -/
def Inside (S : Nat → Prop) (i : Instance) : Prop :=
  i.Throughout fun j => ∀ x : Nat, x ∈ j.resolved → S x

theorem Inside.mono {S S' : Nat → Prop} (h : live.Inside S) (hS : ∀ x, S x → S' x) :
    live.Inside S' :=
  Throughout.mono h fun _ hj x hx => hS x (hj x hx)

theorem forall₂_getElem? {α β : Type} {R : α → β → Prop} : ∀ {as : List α} {bs : List β},
    List.Forall₂ R as bs → ∀ k : Nat, as[k]? = none ∧ bs[k]? = none ∨
      ∃ a b, as[k]? = some a ∧ bs[k]? = some b ∧ R a b
  | [], _, h, k => by
    cases h
    simp
  | a :: as, _, h, 0 => by
    cases h with
    | cons hab h => exact .inr ⟨_, _, rfl, rfl, hab⟩
  | a :: as, _, h, k + 1 => by
    cases h with
    | cons hab h => simpa using forall₂_getElem? h k

theorem planScalar_twins (h : Twins T d e) {node : Nat} (hnode : T node node) (number : Nat)
    (edit : Edit) (value : Scalar) : Agree (EditPlan.Twin T)
      (planScalar d number edit node value) (planScalar e number edit node value) := by
  cases edit with
  | attr path name hole => exact .ok (.step (.setAttribute hnode name value))
  | child path index hole =>
    obtain ⟨hd, he⟩ := h.lt_size hnode
    have hd : d.issued node = true := Document.issued_iff.mpr hd
    have he : e.issued node = true := Document.issued_iff.mpr he
    simp only [planScalar, hd, he, Bool.not_true, Bool.false_eq_true, if_false, Document.childAt?]
    rcases forall₂_getElem? (h.children hnode) index with ⟨hnone, hnone'⟩ | ⟨x, y, hx, hy, hxy⟩
    · rw [hnone, hnone']
      exact .error _
    · rw [hx, hy]
      exact .ok (.step (.setText hxy value.text))

theorem planSlot_twins (h : Twins T d e) {node : Nat} (hnode : T node node) (number : Nat)
    (edit : Edit) (old : Facing) (new : Value)
    (hnested : ∀ plan m, old = .block plan → Agree (Plan.Twin T) (plan d m) (plan e m)) :
    Agree (EditPlan.Twin T) (planSlot d number edit node old new)
      (planSlot e number edit node old new) := by
  cases old with
  | scalar value =>
    cases new with
    | scalar value' =>
      have hscalar := planScalar_twins h hnode number edit value'
      simp only [planSlot]
      split
      · exact .ok .skip
      · exact hscalar
    | block m => cases edit <;> exact .error _
  | block plan =>
    cases edit with
    | attr path name hole =>
      cases new with
      | scalar value' => exact planScalar_twins h hnode number (.attr path name hole) value'
      | block m => exact .error _
    | child path index hole =>
      cases new with
      | scalar value' => exact .error _
      | block m => exact (hnested plan m rfl).map fun _ _ => .nested hole

theorem planEdit_twins (h : Twins T d e) (fresh : Instance) (number : Nat) (edit : Edit)
    {node? : Option Nat} (hnode : ∀ x, node? = some x → T x x)
    (hnested : ∀ n m, live.prop? edit.hole = some (.block n) →
      Agree (Plan.Twin T) (n.plan d m) (n.plan e m)) :
    Agree (EditPlan.Twin T) (planEdit d (facingsOf live.props) fresh number edit node?)
      (planEdit e (facingsOf live.props) fresh number edit node?) := by
  simp only [planEdit, get?_facingsOf]
  cases hold : Bindings.get? live.props edit.hole with
  | none => exact .error _
  | some old =>
    cases fresh.prop? edit.hole with
    | none => exact .error _
    | some new =>
      cases node? with
      | none => exact .error _
      | some node =>
        refine planSlot_twins h (hnode node rfl) number edit old.facing new fun plan m hplan => ?_
        cases old with
        | scalar value => simp [Value.facing] at hplan
        | block n =>
          obtain rfl : n.plan = plan := by simpa [Value.facing] using hplan
          exact hnested n m hold

theorem planEdits_twins (h : Twins T d e) (fresh : Instance) :
    ∀ {edits : List Edit} {nodes : List Nat} (number : Nat), (∀ x ∈ nodes, T x x) →
      (∀ edit ∈ edits, ∀ n m, live.prop? edit.hole = some (.block n) →
        Agree (Plan.Twin T) (n.plan d m) (n.plan e m)) →
      Agree (EditPlans.Twin T) (planEdits d (facingsOf live.props) fresh number edits nodes)
        (planEdits e (facingsOf live.props) fresh number edits nodes)
  | [], _, _, _, _ => .ok ⟨.nil, rfl, rfl, rfl⟩
  | edit :: rest, nodes, number, hnodes, hnested => by
    rw [List.forall_mem_cons] at hnested
    have hfirst := planEdit_twins h fresh number edit
      (fun x hx => hnodes x (List.mem_of_mem_head? hx)) hnested.1
    have hrest := planEdits_twins h fresh (number + 1)
      (fun x hx => hnodes x (List.mem_of_mem_tail hx)) hnested.2
    simp only [planEdits]
    generalize planEdit d (facingsOf live.props) fresh number edit nodes.head? = r at hfirst ⊢
    generalize planEdit e (facingsOf live.props) fresh number edit nodes.head? = r' at hfirst ⊢
    cases hfirst with
    | error failure => exact .error failure
    | ok hplan => exact hrest.map fun _ _ hplans => hplan.before hplans

/-- **A patch is planned alike on twins.** -/
theorem plan_twins (h : Twins T d e) (hlive : live.Inside fun x => T x x) (fresh : Instance) :
    Agree (Plan.Twin T) (live.plan d fresh) (live.plan e fresh) := by
  induction live using Instance.induction generalizing fresh with
  | _ live ih =>
    have hplans := planEdits_twins h fresh 0 hlive.here fun edit hedit n m hn =>
      ih edit.hole n hn (Throughout.nested hlive ⟨edit, hedit, hn⟩) m
    simp only [plan_eq, planWith]
    split
    · exact .error _
    · split
      · exact .error _
      · refine hplans.map fun ps qs hpq => ⟨hpq.changes, ?_, ?_⟩
        · rw [hpq.nested]
        · rw [hpq.changed, hpq.skipped]

section Patches

variable {S : Nat → Prop} {s t : Stage} {fresh : Instance}

theorem settled_of_inside (hlive : live.Complete) (hinside : live.Inside S)
    (hlt : ∀ x, S x → x < d.size) : live.Settled d.size :=
  (hlive.and hinside).mono fun _ hj => ⟨hj.1, fun x hx => hlt x (hj.2 x hx)⟩

/-- **A patch comes to the same on twins**, and writes the same to them. -/
theorem patch_twins (hs : s.document.Closed) (ht : t.document.Closed) (hlive : live.Complete)
    (hinside : live.Inside fun x => T x x) (h : Twins T s.document t.document) (fresh : Instance) :
    (live.patch fresh t).outcome = (live.patch fresh s).outcome ∧
      (live.patch fresh t).live = (live.patch fresh s).live ∧
      ∃ cs cs', List.Forall₂ (Change.Twin T) cs cs' ∧
        (live.patch fresh s).stage.document = s.document.applyAll cs ∧
        (live.patch fresh t).stage.document = t.document.applyAll cs' := by
  have hs' := settled_of_inside hlive hinside fun _ hx => (h.lt_size hx).1
  have ht' := settled_of_inside hlive hinside fun _ hx => (h.lt_size hx).2
  have hagree := plan_twins h hinside fresh
  generalize hp : live.plan s.document fresh = r at hagree
  generalize hq : live.plan t.document fresh = r' at hagree
  cases hagree with
  | error failure =>
    rw [patch_of_error hp, patch_of_error hq]
    exact ⟨rfl, rfl, [], [], .nil, rfl, rfl⟩
  | ok hpq =>
    obtain ⟨hplive, hpoutcome, hpdoc, -⟩ := patch_of_ok hs hs' hp
    obtain ⟨hqlive, hqoutcome, hqdoc, -⟩ := patch_of_ok ht ht' hq
    refine ⟨?_, ?_, _, _, hpq.changes, hpdoc, hqdoc⟩
    · rw [hpoutcome, hqoutcome, hpq.stats]
    · rw [hplive, hqlive, hpq.adopted]

theorem sprouts_of_aims {bound : Nat} : ∀ {steps : List Step} {d : Document}, bound ≤ d.size →
    (∀ step ∈ steps, step.Aims bound) → d.Sprouts (d.applyAll (steps.map Step.change))
  | [], d, _, _ => .refl d
  | step :: rest, d, hle, h => by
    rw [List.forall_mem_cons] at h
    have hfirst : d.Sprouts (d.apply step.change) := by
      have haims := h.1
      unfold Step.Aims at haims
      split at haims
      · rename_i node name value heq
        rw [heq]
        exact .of_parent (Nat.le_of_eq (Document.size_setAttribute ..).symm)
          (Document.parent?_setAttribute d node name value)
      · rename_i node content heq
        rw [heq]
        exact .setText d (Nat.lt_of_lt_of_le haims hle) content
      · exact haims.elim
    exact hfirst.trans (sprouts_of_aims (Nat.le_trans hle hfirst.size_le) h.2)

/-- A patch leaves a forest, whatever it comes to. -/
theorem forest_patch (hd : s.document.Closed) (hforest : s.document.Forest)
    (hlive : live.isMounted = true → live.Settled s.document.size) (fresh : Instance) :
    (live.patch fresh s).stage.document.Forest := by
  cases hplan : live.plan s.document fresh with
  | error failure =>
    rw [patch_of_error hplan]
    exact hforest
  | ok plan =>
    obtain ⟨-, hmounted, -⟩ := plan_of_ok hplan
    obtain ⟨-, -, hdoc, -⟩ := patch_of_ok hd (hlive hmounted) hplan
    rw [hdoc]
    exact hforest.sprouts hd
      (sprouts_of_aims (Nat.le_refl _) (aims_of_plan hd (hlive hmounted) hplan))

/-- A patch leaves a forest, and an instance that is complete and has the nodes it had. -/
theorem patch_keeps (hs : s.document.Reachable) (hforest : s.document.Forest)
    (hlive : live.Settled s.document.size) (hfresh : fresh.Everywhere Ordered) :
    (live.patch fresh s).stage.document.Reachable ∧ (live.patch fresh s).stage.document.Forest ∧
      (live.patch fresh s).live.Complete ∧ live.Along Persists (live.patch fresh s).live := by
  refine (and_left_comm.mp ⟨forest_patch hs.closed hforest (fun _ => hlive) fresh, ?_⟩)
  cases hplan : live.plan s.document fresh with
  | error failure =>
    rw [patch_of_error hplan]
    exact ⟨hs, hlive.complete, .refl Persists.refl live⟩
  | ok plan =>
    obtain ⟨hadopted, hok, hdoc, hadmits⟩ := patch_of_ok hs.closed hlive hplan
    have hendures := patch_endures hs.closed hlive hfresh hok
    refine ⟨?_, hendures.settled.complete, hendures.persists⟩
    rw [hdoc]
    exact hs.trans hadmits.evolves

theorem Inside.keep {live' : Instance} {S' : Nat → Prop} (h : live.Inside S)
    (hpersists : live.Along Persists live') (hS : ∀ x, S x → S' x) : live'.Inside S' :=
  hpersists.throughout (fun _ _ => Persists.alike)
    (fun _ _ hij hi x hx => hS x (hi x (hij.resolved ▸ hx))) h

end Patches

end Instance

/-- One of two instances. -/
inductive Side where
  | first
  | second
  deriving DecidableEq, Repr

/-- The other of the two. -/
def Side.other : Side → Side
  | first => second
  | second => first

theorem Side.eq_other {side k : Side} (h : k ≠ side) : k = side.other := by
  cases side <;> cases k <;> first | rfl | exact absurd rfl h

/-- Two instances that are mounted in one document. -/
structure Duo where
  stage : Stage
  live : Side → Instance

namespace Duo

/-- Patch one of the instances. -/
def patch (p : Duo) (side : Side) (fresh : Instance) : Duo × Except Failure PatchStats :=
  let r := (p.live side).patch fresh p.stage
  (⟨r.stage, Function.update p.live side r.live⟩, r.outcome)

/-- Patch the instances as the moves say, and collect what each patch returns. -/
def play (p : Duo) : List (Side × Instance) → Duo × List (Side × Except Failure PatchStats)
  | [] => (p, [])
  | (side, fresh) :: rest =>
    let r := p.patch side fresh
    let q := r.1.play rest
    (q.1, (side, r.2) :: q.2)

/-- The document of a duo is a forest, and its instances are complete. -/
structure Sound (p : Duo) : Prop where
  reachable : p.stage.document.Reachable
  forest : p.stage.document.Forest
  complete : ∀ side, (p.live side).Complete

/-- The instance of one side is the same in two runs, and its nodes are twins. The instance of
the other side has its nodes elsewhere. -/
structure Separate (side : Side) (T : Nat → Nat → Prop) (S : Nat → Prop) (p q : Duo) : Prop where
  left : p.Sound
  right : q.Sound
  same : q.live side = p.live side
  twins : Twins T p.stage.document q.stage.document
  inside : (p.live side).Inside fun x => T x x
  owns : Owns S p.stage.document
  outside : ∀ k, k ≠ side → (p.live k).Inside S
  apart : ∀ x y, T x y → ¬ S x

section Moves

variable {side k : Side} {T : Nat → Nat → Prop} {S : Nat → Prop} {p q : Duo} {fresh : Instance}

theorem Sound.patch (h : p.Sound) (hsettled : (p.live k).Settled p.stage.document.size)
    (hfresh : fresh.Everywhere Instance.Ordered) :
    (p.patch k fresh).1.Sound ∧ (p.live k).Along Instance.Persists ((p.patch k fresh).1.live k) := by
  obtain ⟨hreachable, hforest, hcomplete, hpersists⟩ :=
    Instance.patch_keeps h.reachable h.forest hsettled hfresh
  refine ⟨⟨hreachable, hforest, fun j => ?_⟩, ?_⟩
  · simp only [Duo.patch, Function.update_apply]
    split
    · exact hcomplete
    · exact h.complete j
  · simpa [Duo.patch] using hpersists

/-- A patch of the one side, in both runs. -/
theorem Separate.own (h : Separate side T S p q) (hfresh : fresh.Everywhere Instance.Ordered) :
    (q.patch side fresh).2 = (p.patch side fresh).2 ∧ ∃ T', (∀ x y, T x y → T' x y) ∧
      Separate side T' S (p.patch side fresh).1 (q.patch side fresh).1 := by
  have hcomplete := h.left.complete side
  have hp := Instance.settled_of_inside hcomplete h.inside fun _ hx => (h.twins.lt_size hx).1
  have hq := Instance.settled_of_inside hcomplete h.inside fun _ hx => (h.twins.lt_size hx).2
  obtain ⟨hleft, hpersists⟩ := h.left.patch hp hfresh
  obtain ⟨hright, -⟩ := h.right.patch (h.same ▸ hq) hfresh
  obtain ⟨houtcome, hlive, cs, cs', hcs, hpdoc, hqdoc⟩ := Instance.patch_twins
    h.left.reachable.closed h.right.reachable.closed hcomplete h.inside h.twins fresh
  obtain ⟨T', htwins, hwidens⟩ := h.twins.applyAll hcs
  have hsize := Document.size_le_applyAll cs p.stage.document
  refine ⟨?_, T', hwidens.old, ?_⟩
  · simpa only [Duo.patch, h.same] using houtcome
  constructor
  case left => exact hleft
  case right => exact hright
  case same => simpa [Duo.patch, h.same] using hlive
  case twins => simpa only [Duo.patch, h.same, hpdoc, hqdoc] using htwins
  case inside => exact h.inside.keep hpersists fun x => hwidens.old x x
  case owns =>
    simp only [Duo.patch, hpdoc]
    refine h.owns.keep (fun x hx => ?_) hsize
    exact Document.sameAt_applyAll hcs (fun a b hab => (h.twins.lt_size hab).1) (h.owns.lt_size hx)
      fun y hxy => h.apart x y hxy hx
  case outside =>
    intro k hk
    simpa [Duo.patch, Function.update_of_ne hk] using h.outside k hk
  case apart =>
    intro x y hxy hx
    rcases hwidens.new x y hxy with hxy | ⟨n, rfl, -⟩
    · exact h.apart x y hxy hx
    · exact absurd (h.owns.lt_size hx) (by omega)

/-- A patch of another side, in the first run only. -/
theorem Separate.other (h : Separate side T S p q) (hk : k ≠ side)
    (hfresh : fresh.Everywhere Instance.Ordered) :
    ∃ S', Separate side T S' (p.patch k fresh).1 q := by
  have hinside := h.outside k hk
  have hsettled := Instance.settled_of_inside (h.left.complete k) hinside fun _ => h.owns.lt_size
  obtain ⟨hleft, hpersists⟩ := h.left.patch hsettled hfresh
  -- the nodes of that side are twins of themselves
  have hself : (p.live k).Inside fun x => x = x ∧ S x := hinside.mono fun _ hx => ⟨rfl, hx⟩
  obtain ⟨-, -, cs, cs', hcs, hdoc, hdoc'⟩ := Instance.patch_twins h.left.reachable.closed
    h.left.reachable.closed (h.left.complete k) hself h.owns fresh
  obtain ⟨S', howns, hold, hnew⟩ := h.owns.applyAll hcs (hdoc'.symm.trans hdoc)
  have hsize := Document.size_le_applyAll cs p.stage.document
  refine ⟨S', ?_⟩
  constructor
  case left => exact hleft
  case right => exact h.right
  case same => simpa [Duo.patch, Function.update_of_ne hk.symm] using h.same
  case twins =>
    simp only [Duo.patch, hdoc]
    refine h.twins.keep (fun x y hxy => ?_) (fun _ _ _ => .refl ..) hsize (Nat.le_refl _)
    refine Document.sameAt_applyAll hcs (fun a b hab => h.owns.lt_size hab.2)
      (h.twins.lt_size hxy).1 fun b hb => h.apart x y hxy hb.2
  case inside => simpa [Duo.patch, Function.update_of_ne hk.symm] using h.inside
  case owns => simpa only [Duo.patch, hdoc] using howns
  case outside =>
    intro j hj
    by_cases hjk : j = k
    · subst hjk
      exact hinside.keep hpersists hold
    · have hkeep := (h.outside j hj).mono hold
      simpa [Duo.patch, Function.update_of_ne hjk] using hkeep
  case apart =>
    intro x y hxy hx
    rcases hnew x hx with hx | hge
    · exact h.apart x y hxy hx
    · exact Nat.not_lt_of_le hge (h.twins.lt_size hxy).1

/-- Whatever the moves are, the one side sees its own only. -/
theorem Separate.play : ∀ {moves : List (Side × Instance)} {T : Nat → Nat → Prop} {S : Nat → Prop}
    {p q : Duo}, Separate side T S p q → (∀ m ∈ moves, m.2.Everywhere Instance.Ordered) →
    (p.play moves).2.filter (fun r => r.1 = side) =
        (q.play (moves.filter fun m => m.1 = side)).2 ∧
      ∃ T' S', (∀ x y, T x y → T' x y) ∧
        Separate side T' S' (p.play moves).1 (q.play (moves.filter fun m => m.1 = side)).1
  | [], T, S, _, _, h, _ => ⟨rfl, T, S, fun _ _ hxy => hxy, h⟩
  | (k, fresh) :: rest, T, S, p, q, h, hmoves => by
    rw [List.forall_mem_cons] at hmoves
    by_cases hk : side = k
    · subst hk
      obtain ⟨houtcome, T₁, hold₁, h₁⟩ := h.own hmoves.1
      obtain ⟨hresults, T₂, S₂, hold₂, h₂⟩ := h₁.play hmoves.2
      simp only [Duo.play, List.filter_cons, decide_true, if_true]
      rw [hresults, houtcome]
      exact ⟨rfl, T₂, S₂, fun x y hxy => hold₂ x y (hold₁ x y hxy), h₂⟩
    · obtain ⟨S₁, h₁⟩ := h.other (Ne.symm hk) hmoves.1
      obtain ⟨hresults, T₂, S₂, hold₂, h₂⟩ := h₁.play hmoves.2
      simp only [Duo.play, List.filter_cons, Ne.symm hk, decide_false, Bool.false_eq_true, if_false]
      exact ⟨hresults, T₂, S₂, hold₂, h₂⟩

end Moves

end Duo

namespace Instance

/-- What a mount that succeeds leaves: an instance in a document that are fit for patches, with
its nodes among the new ones, which have no links to others. -/
structure Settlement (i : Instance) (s : Stage) (m : Mounting) : Prop where
  reachable : m.stage.document.Reachable
  forest : m.stage.document.Forest
  complete : m.mounted.Complete
  root : m.mounted.root = some s.document.size
  grown : s.document.size < m.stage.document.size
  inside : m.mounted.Inside fun x => s.document.size ≤ x ∧ x < m.stage.document.size
  owns : Owns (fun x => s.document.size ≤ x ∧ x < m.stage.document.size) m.stage.document

variable {source : Block → Fragment} {i : Instance} {target root : Nat} {s : Stage}

theorem mount_settlement (hs : s.document.Reachable) (hforest : s.document.Forest)
    (hi : i.MadeFrom source) (ht : target < s.document.size)
    (hm : (i.mount target s).outcome = .ok root) : i.Settlement s (i.mount target s) := by
  obtain ⟨-, hfault, L, hL⟩ := lands_of_ok hi hs.closed ht hm
  have hu := isMounted_of_mountFault hfault
  have hgrafts := grafts_mount hs hforest ht hu
  have hclosed := hgrafts.evolves.closed hs.closed
  constructor
  case reachable => exact hs.trans hgrafts.evolves
  case forest => exact hgrafts.forest
  case complete => exact (mount_settled i hs.closed hm).complete
  case root =>
    cases hL.stands with
    | intro hroot _ _ _ => rw [hroot, hL.id]
  case grown => exact hgrafts.grown
  case inside =>
    have hresolved := hL.stands.resolved ((kin_mount i target s).madeFrom hi)
    exact hresolved.mono fun _ hj x hx => hL.fresh x (hj x hx)
  case owns =>
    refine .of_children (fun x hx => hx.2) fun x c hx hc => ⟨?_, hclosed.children hc⟩
    exact Nat.le_of_lt (hgrafts.below x hx.1 c hc)

end Instance

namespace Duo

/-- Two instances mounted one after the other. -/
def mount (i j : Instance) (target target' : NodeId) (s : Stage) : Duo :=
  let m := i.mount target s
  let m' := j.mount target' m.stage
  ⟨m'.stage, fun
    | .first => m.mounted
    | .second => m'.mounted⟩

section Mounted

variable {source : Block → Fragment} {i j : Instance} {target target' root root' : Nat} {s : Stage}

/-- A run is like itself for the instance of one side, if the instances have nodes of their
own. -/
theorem Sound.separate {p : Duo} (h : p.Sound) {S : Side → Nat → Prop}
    (howns : ∀ k, Owns (S k) p.stage.document) (hinside : ∀ k, (p.live k).Inside (S k))
    (hapart : ∀ x, S .first x → ¬ S .second x) (side : Side) :
    Separate side (fun x y => x = y ∧ S side x) (S side.other) p p where
  left := h
  right := h
  same := rfl
  twins := howns side
  inside := (hinside side).mono fun _ hx => ⟨rfl, hx⟩
  owns := howns side.other
  outside k hk := Side.eq_other hk ▸ hinside k
  apart := by
    rintro x _ ⟨rfl, hx⟩ hother
    cases side with
    | first => exact hapart x hx hother
    | second => exact hapart x hother hx

/-- The nodes of the two instances once both are mounted. -/
def territory (i j : Instance) (target target' : NodeId) (s : Stage) : Side → Nat → Prop
  | .first, x => s.document.size ≤ x ∧ x < (i.mount target s).stage.document.size
  | .second, x => (i.mount target s).stage.document.size ≤ x ∧
      x < (mount i j target target' s).stage.document.size

theorem mount_separate (hs : s.document.Reachable) (hforest : s.document.Forest)
    (hi : i.MadeFrom source) (hj : j.MadeFrom source) (ht : target < s.document.size)
    (ht' : target' < s.document.size) (hm : (i.mount target s).outcome = .ok root)
    (hm' : (j.mount target' (i.mount target s).stage).outcome = .ok root') (side : Side) :
    ∃ top S, territory i j target target' s side top ∧
      ((mount i j target target' s).live side).root = some top ∧
      Separate side (fun x y => x = y ∧ territory i j target target' s side x) S
        (mount i j target target' s) (mount i j target target' s) := by
  let m := i.mount target s
  let m' := j.mount target' m.stage
  have hfirst := Instance.mount_settlement hs hforest hi ht hm
  have ht₁ : target' < m.stage.document.size := Nat.lt_trans ht' hfirst.grown
  have hsecond := Instance.mount_settlement hfirst.reachable hfirst.forest hj ht₁ hm'
  have hu := Instance.isMounted_of_mountFault (Instance.lands_of_ok hj hfirst.reachable.closed ht₁ hm').2.1
  have hhosts := Instance.mount_hosts j hfirst.reachable.closed ht₁ hu
  have hsound : (mount i j target target' s).Sound := by
    refine ⟨hsecond.reachable, hsecond.forest, fun k => ?_⟩
    cases k with
    | first => exact hfirst.complete
    | second => exact hsecond.complete
  -- the second mount hangs its nodes below an older one than those of the first
  have howns : ∀ k, Owns (territory i j target target' s k)
      (mount i j target target' s).stage.document := by
    intro k
    cases k with
    | first =>
      refine hfirst.owns.keep (fun x hx => ⟨hhosts.kind x hx.2, hhosts.children x hx.2 ?_⟩)
        (Nat.le_of_lt hsecond.grown)
      exact Nat.ne_of_gt (Nat.lt_of_lt_of_le ht' hx.1)
    | second => exact hsecond.owns
  have hinside : ∀ k, ((mount i j target target' s).live k).Inside
      (territory i j target target' s k) := by
    intro k
    cases k with
    | first => exact hfirst.inside
    | second => exact hsecond.inside
  have hseparate := hsound.separate howns hinside
    (fun x hx hx' => Nat.not_lt_of_le hx'.1 hx.2) side
  cases side with
  | first => exact ⟨_, _, ⟨Nat.le_refl _, hfirst.grown⟩, hfirst.root, hseparate⟩
  | second => exact ⟨_, _, ⟨Nat.le_refl _, hsecond.grown⟩, hsecond.root, hseparate⟩

/-- **Live instances do not interfere.** Two instances are mounted in a forest, the second
somewhere outside the first, and then patched in any order, with success or without. For either
of them, each of its patches returns what it returns in the run in which the patches of the
other are left out, and after any moves the tree below its root has the same shape as there. -/
theorem play_separate (hs : s.document.Reachable) (hforest : s.document.Forest)
    (hi : i.MadeFrom source) (hj : j.MadeFrom source) (ht : s.document.issued target = true)
    (ht' : s.document.issued target' = true) (hm : (i.mount target s).outcome = .ok root)
    (hm' : (j.mount target' (i.mount target s).stage).outcome = .ok root')
    {moves : List (Side × Instance)} (hmoves : ∀ m ∈ moves, m.2.Everywhere Instance.Ordered)
    (side : Side) :
    let p := mount i j target target' s
    let both := p.play moves
    let own := p.play (moves.filter fun m => m.1 = side)
    both.2.filter (fun r => r.1 = side) = own.2 ∧ both.1.live side = own.1.live side ∧
      ∃ top t u, (p.live side).root = some top ∧ both.1.stage.document.tree? top = some t ∧
        own.1.stage.document.tree? top = some u ∧ t.shape = u.shape := by
  intro p both own
  obtain ⟨top, S, htop, hroot, hseparate⟩ := mount_separate hs hforest hi hj
    (Document.issued_iff.mp ht) (Document.issued_iff.mp ht') hm hm' side
  obtain ⟨hresults, T', S', hold, hend⟩ := hseparate.play hmoves
  obtain ⟨t, u, ht, hu, hshape⟩ := hend.twins.exists_trees hend.left.reachable hend.left.forest
    hend.right.reachable hend.right.forest (hold top top ⟨rfl, htop⟩)
  exact ⟨hresults, hend.same.symm, top, t, u, hroot, ht, hu, hshape⟩

/-- A document with two elements to mount in. -/
def pair : Document := (Document.blank.createElement "i").createElement "b"

theorem reachable_pair : pair.Reachable :=
  (Document.Evolves.refl.step (c := .createElement "i" 1) rfl).step (c := .createElement "b" 2) rfl

theorem forest_pair : pair.Forest := by
  have hsprouts : Document.blank.Sprouts pair := .of_parent (by decide) fun x => by simp [pair]
  exact Document.forest_blank.sprouts Document.closed_blank hsprouts

/-- The card that is mounted in each of the two elements. -/
def card : Instance := labelled (.str "red") (.str "new") .null .null

/-- A patch of the second card and then one of the first. -/
def moves : List (Side × Instance) :=
  [(.second, labelled .null (.str "old") .null (.str "tip")),
    (.first, labelled (.str "red") (.str "sold") (.str "out") .null)]

theorem ordered_moves : ∀ m ∈ moves, m.2.Everywhere Instance.Ordered := by
  simp only [moves, List.forall_mem_cons]
  exact ⟨Instance.labelled_ordered .., Instance.labelled_ordered .., by simp⟩

/-- The first of two cards does not see the patch of the second. The definitions above keep the
terms small that are evaluated here. -/
theorem play_separate_cards :
    let p := mount card card 1 2 (.of pair)
    let both := p.play moves
    let own := p.play (moves.filter fun m => m.1 = .first)
    both.2 = [(.second, .ok ⟨3, 2, 1⟩), (.first, .ok ⟨3, 2, 1⟩)] ∧
      own.2 = [(.first, .ok ⟨3, 2, 1⟩)] ∧ ∃ top t u, (p.live .first).root = some top ∧
        both.1.stage.document.tree? top = some t ∧ own.1.stage.document.tree? top = some u ∧
        t.shape = u.shape := by
  have hm : (card.mount 1 (.of pair)).outcome = .ok 3 := rfl
  have hm' : (card.mount 2 (card.mount 1 (.of pair)).stage).outcome = .ok 9 := rfl
  have hmade : card.MadeFrom Sample.source := Sample.cardOf_madeFrom ..
  have hseparate :=
    play_separate reachable_pair forest_pair hmade hmade rfl rfl hm hm' ordered_moves .first
  exact ⟨rfl, rfl, hseparate.2.2⟩

end Mounted

end Duo

end Stencil
