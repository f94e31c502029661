import Stencil.Proofs.Instance.Dues
/- Worlds: documents and instances together, under all that can be done with them in any
   order. An instance that is mounted stays with the document that it was mounted in, and is
   patched there; anything may be done to the documents in between. What each act keeps
   (`Sound`) and what it makes of the instances (`Follows`) is said once, in `step_follows`,
   and holds of every run by induction. -/
namespace Stencil

/-- An instance that is held on to, and the document that it was mounted in. -/
structure Holding where
  inst : Instance
  home : Option Nat

/-- Documents at work, and the instances that were ever held on to, in the order in which
they came. One that became part of another is no longer held. -/
structure World where
  stages : List Stage
  holdings : List (Option Holding)

/-- The value of a slot of a new instance: a scalar, or an instance that is held so far. -/
inductive Content where
  | scalar (value : Scalar)
  | taken (holding : Nat)

/-- What can be done in a world. Blocks are any, and documents may change in any way. -/
inductive Act where
  | begin
  | change (document : Nat) (c : Change)
  | instantiate (block : Block) (contents : List (String × Content))
  | mount (holding document target : Nat)
  | patch (holding next document : Nat)

namespace World

/-- A world without documents and instances. -/
def empty : World :=
  ⟨[], []⟩

/-- The instance that is held under a number, with its document. -/
def held? (w : World) (k : Nat) : Option Holding :=
  w.holdings[k]?.join

/-- The world with another state of a document. -/
def restage (w : World) (document : Nat) (s : Stage) : World :=
  { w with stages := w.stages.set document s }

/-- The world with something else, or nothing, held under a number. -/
def put (w : World) (k : Nat) (h : Option Holding) : World :=
  { w with holdings := w.holdings.set k h }

/-- The values for a new instance, which takes the instances among them out of the world. -/
def gather (w : World) : List (String × Content) → Option (World × List (String × Value))
  | [] => some (w, [])
  | (slot, .scalar value) :: rest =>
    (w.gather rest).map fun r => (r.1, (slot, .scalar value) :: r.2)
  | (slot, .taken k) :: rest =>
    (w.held? k).bind fun h =>
      ((w.put k none).gather rest).map fun r => (r.1, (slot, .block h.inst) :: r.2)

/-- The document that an instance belongs to after a mount. -/
def homeOf (document : Nat) (before : Option Nat) : Except Failure NodeId → Option Nat
  | .ok _ => some document
  | .error _ => before

/-- The world after an act, if the act is possible. A patch uses up the fresh instance. -/
def step (w : World) : Act → Option World
  | .begin => some { w with stages := w.stages ++ [.of .blank] }
  | .change document c =>
    (w.stages[document]?).bind fun s => (s.perform? c).map fun s => w.restage document s
  | .instantiate block contents =>
    (w.gather contents).map fun r =>
      { r.1 with holdings := r.1.holdings ++ [some ⟨.new block (.ofPairs r.2), none⟩] }
  | .mount k document target =>
    (w.held? k).bind fun h => (w.stages[document]?).map fun s =>
      let m := h.inst.mount target s
      (w.restage document m.stage).put k (some ⟨m.mounted, homeOf document h.home m.outcome⟩)
  | .patch k next document =>
    (w.held? k).bind fun h => (w.held? next).bind fun fresh => (w.stages[document]?).bind fun s =>
      if k ≠ next ∧ (h.inst.isMounted = true → h.home = some document) then
        let p := h.inst.patch fresh.inst s
        some (((w.restage document p.stage).put k (some ⟨p.live, h.home⟩)).put next none)
      else none

/-- The world after several acts in turn, if all are possible. -/
def run (w : World) : List Act → Option World
  | [] => some w
  | act :: rest => (w.step act).bind fun w => w.run rest

section Views

variable {w : World} {k j : Nat}

/-- What is held after something was put is what was put, or was held before. -/
theorem held?_put {h? : Option Holding} {h : Holding} (hj : (w.put k h?).held? j = some h) :
    j = k ∧ h? = some h ∨ j ≠ k ∧ w.held? j = some h := by
  simp only [held?, put, List.getElem?_set] at hj ⊢
  by_cases hjk : k = j
  · rw [if_pos hjk] at hj
    split at hj
    · exact .inl ⟨hjk.symm, hj⟩
    · simp at hj
  · rw [if_neg hjk] at hj
    exact .inr ⟨Ne.symm hjk, hj⟩

theorem lt_length_of_held? {h : Holding} (hk : w.held? k = some h) : k < w.holdings.length := by
  by_contra hlt
  simp [held?, List.getElem?_eq_none (Nat.le_of_not_lt hlt)] at hk

/-- What a new instance takes was held before, and what is still held too. -/
theorem gather_spec : ∀ {contents : List (String × Content)} {w w' : World}
    {pairs : List (String × Value)}, w.gather contents = some (w', pairs) →
    w'.stages = w.stages ∧ w'.holdings.length = w.holdings.length ∧
      (∀ k h, w'.held? k = some h → w.held? k = some h) ∧
      ∀ slot n, (slot, Value.block n) ∈ pairs → ∃ k h, w.held? k = some h ∧ h.inst = n
  | [], w, w', pairs, h => by
    simp only [gather, Option.some.injEq, Prod.mk.injEq] at h
    obtain ⟨rfl, rfl⟩ := h
    exact ⟨rfl, rfl, fun _ _ hk => hk, by simp⟩
  | (slot, .scalar value) :: rest, w, w', pairs, h => by
    simp only [gather, Option.map_eq_some_iff] at h
    obtain ⟨⟨w₁, pairs₁⟩, hrest, hr⟩ := h
    obtain ⟨rfl, rfl⟩ := Prod.mk.inj hr
    obtain ⟨hstages, hlen, hheld, htaken⟩ := gather_spec hrest
    refine ⟨hstages, hlen, hheld, fun slot' n hn => ?_⟩
    rcases List.mem_cons.mp hn with hn | hn
    · simp at hn
    · exact htaken slot' n hn
  | (slot, .taken k) :: rest, w, w', pairs, h => by
    simp only [gather, Option.bind_eq_some_iff, Option.map_eq_some_iff] at h
    obtain ⟨holding, hk, ⟨w₁, pairs₁⟩, hrest, hr⟩ := h
    obtain ⟨rfl, rfl⟩ := Prod.mk.inj hr
    obtain ⟨hstages, hlen, hheld, htaken⟩ := gather_spec hrest
    have hbefore : ∀ j h, (w.put k none).held? j = some h → w.held? j = some h := by
      intro j h hj
      rcases held?_put hj with ⟨-, hnone⟩ | ⟨-, hj⟩
      · simp at hnone
      · exact hj
    refine ⟨hstages, by simpa [put] using hlen, fun j h hj => hbefore j h (hheld j h hj),
      fun slot' n hn => ?_⟩
    rcases List.mem_cons.mp hn with hn | hn
    · obtain ⟨-, rfl⟩ : slot' = slot ∧ n = holding.inst := by simpa using hn
      exact ⟨k, holding, hk, rfl⟩
    · obtain ⟨j, h, hj, hn⟩ := htaken slot' n hn
      exact ⟨j, h, hbefore j h hj, hn⟩

end Views

/-- The instance is settled in the document that it was mounted in. -/
def Lodged (stages : List Stage) (h : Holding) : Prop :=
  ∃ document s, h.home = some document ∧ stages[document]? = some s ∧
    h.inst.Settled s.document.size

/-- Documents are reachable, and what is held is tidy and, once mounted, settled. -/
structure Sound (w : World) : Prop where
  reachable : ∀ {document : Nat} {s : Stage}, w.stages[document]? = some s → s.document.Reachable
  tidy : ∀ {k h}, w.held? k = some h → h.inst.Everywhere Instance.Tidy
  lodged : ∀ {k h}, w.held? k = some h → h.inst.isMounted = true → Lodged w.stages h

/-- Each document is there and has evolved. -/
def Evolve (stages stages' : List Stage) : Prop :=
  ∀ (document : Nat) (s : Stage), stages[document]? = some s →
    ∃ s', stages'[document]? = some s' ∧ s.document.Evolves s'.document

/-- What comes of a holding: the same instance as far as the nodes of its edits go, in the
same document once it is mounted. -/
structure Becomes (h h' : Holding) : Prop where
  inst : h.inst.Along Instance.Continues h'.inst
  home : h.inst.isMounted = true → h'.home = h.home

/-- The second world comes of the first: its documents have evolved, and what was held
before and is still held has become what it is. -/
structure Follows (w w' : World) : Prop where
  evolve : Evolve w.stages w'.stages
  grown : w.holdings.length ≤ w'.holdings.length
  becomes : ∀ {k h'}, k < w.holdings.length → w'.held? k = some h' →
    ∃ h, w.held? k = some h ∧ Becomes h h'

theorem Evolve.refl (stages : List Stage) : Evolve stages stages := fun _ s h => ⟨s, h, .refl⟩

theorem Evolve.trans {as bs cs : List Stage} (h : Evolve as bs) (h' : Evolve bs cs) :
    Evolve as cs := by
  intro document s hs
  obtain ⟨s', hs', hevolves⟩ := h document s hs
  obtain ⟨s'', hs'', hevolves'⟩ := h' document s' hs'
  exact ⟨s'', hs'', hevolves.trans hevolves'⟩

theorem Evolve.set {stages : List Stage} {document : Nat} {s s' : Stage}
    (hs : stages[document]? = some s) (h : s.document.Evolves s'.document) :
    Evolve stages (stages.set document s') := by
  intro j t ht
  rw [List.getElem?_set]
  split
  · rename_i hj
    subst hj
    obtain rfl := Option.some.inj (hs.symm.trans ht)
    exact ⟨s', if_pos (List.getElem?_eq_some_iff.mp hs).1, h⟩
  · exact ⟨t, ht, .refl⟩

theorem Becomes.refl (h : Holding) : Becomes h h :=
  ⟨.refl Instance.Continues.refl _, fun _ => rfl⟩

theorem Becomes.trans {h h' h'' : Holding} (hh : Becomes h h') (hh' : Becomes h' h'') :
    Becomes h h'' where
  inst := Instance.Continues.trans hh.inst hh'.inst
  home hm := by
    have hm' : h'.inst.isMounted = true := by
      rw [Instance.isMounted, hh.inst.here.root hm]
      exact hm
    rw [hh'.home hm', hh.home hm]

theorem Follows.refl (w : World) : w.Follows w :=
  ⟨.refl _, Nat.le_refl _, fun {_ h'} _ hk => ⟨h', hk, .refl h'⟩⟩

theorem Follows.trans {w w' w'' : World} (h : w.Follows w') (h' : w'.Follows w'') :
    w.Follows w'' where
  evolve := h.evolve.trans h'.evolve
  grown := Nat.le_trans h.grown h'.grown
  becomes {k h''} hk hheld := by
    obtain ⟨holding', hk', hbecomes'⟩ := h'.becomes (Nat.lt_of_lt_of_le hk h.grown) hheld
    obtain ⟨holding, hk, hbecomes⟩ := h.becomes hk hk'
    exact ⟨holding, hk, hbecomes.trans hbecomes'⟩

theorem Lodged.keep {stages stages' : List Stage} {h : Holding} (hl : Lodged stages h)
    (hevolve : Evolve stages stages') : Lodged stages' h := by
  obtain ⟨document, s, hhome, hs, hsettled⟩ := hl
  obtain ⟨s', hs', hevolves⟩ := hevolve document s hs
  exact ⟨document, s', hhome, hs', hsettled.mono hevolves.size_le⟩

/-- What an act must do for what follows from it: documents evolve, and what is held that
was not held before has become what it is, and is tidy and settled. -/
theorem Sound.follows {w w' : World} (hw : w.Sound) (hevolve : Evolve w.stages w'.stages)
    (hgrown : w.holdings.length ≤ w'.holdings.length)
    (hreachable : ∀ {document : Nat} {s : Stage}, w'.stages[document]? = some s →
      s.document.Reachable)
    (hheld : ∀ {k h'}, w'.held? k = some h' → w.held? k = some h' ∨
      (k < w.holdings.length → ∃ h, w.held? k = some h ∧ Becomes h h') ∧
        h'.inst.Everywhere Instance.Tidy ∧ (h'.inst.isMounted = true → Lodged w'.stages h')) :
    w'.Sound ∧ w.Follows w' := by
  refine ⟨⟨hreachable, fun {k h'} hk => ?_, fun {k h'} hk hm => ?_⟩,
    ⟨hevolve, hgrown, fun {k h'} hlt hk => ?_⟩⟩
  · rcases hheld hk with hk | ⟨-, htidy, -⟩
    · exact hw.tidy hk
    · exact htidy
  · rcases hheld hk with hk | ⟨-, -, hlodged⟩
    · exact (hw.lodged hk hm).keep hevolve
    · exact hlodged hm
  · rcases hheld hk with hk | ⟨hbecomes, -, -⟩
    · exact ⟨h', hk, .refl h'⟩
    · exact hbecomes hlt

theorem Sound.restage {w : World} (hw : w.Sound) {document : Nat} {s s' : Stage}
    (hs : w.stages[document]? = some s) (h : s.document.Evolves s'.document) {j : Nat} {t : Stage}
    (ht : (w.stages.set document s')[j]? = some t) : t.document.Reachable := by
  rw [List.getElem?_set] at ht
  split at ht
  · split at ht
    · obtain rfl := Option.some.inj ht
      exact (hw.reachable hs).trans h
    · simp at ht
  · exact hw.reachable ht

/-- What is mounted is settled in its document. -/
theorem Sound.settled {w : World} (hw : w.Sound) {k document : Nat} {h : Holding} {s : Stage}
    (hk : w.held? k = some h) (hs : w.stages[document]? = some s)
    (hhome : h.inst.isMounted = true → h.home = some document) (hm : h.inst.isMounted = true) :
    h.inst.Settled s.document.size := by
  obtain ⟨document', s', hhome', hs', hsettled⟩ := hw.lodged hk hm
  obtain rfl := Option.some.inj (hhome'.symm.trans (hhome hm))
  obtain rfl := Option.some.inj (hs'.symm.trans hs)
  exact hsettled

theorem begin_follows {w : World} (hw : w.Sound) :
    let w' : World := { w with stages := w.stages ++ [.of .blank] }
    w'.Sound ∧ w.Follows w' := by
  refine hw.follows (fun document s hs => ⟨s, ?_, .refl⟩) (Nat.le_refl _)
    (fun {document s} hs => ?_) fun hk => .inl hk
  · exact List.getElem?_append_left (List.getElem?_eq_some_iff.mp hs).1 ▸ hs
  · rcases List.mem_append.mp (List.mem_of_getElem? hs) with hm | hm
    · obtain ⟨j, hj⟩ := List.mem_iff_getElem?.mp hm
      exact hw.reachable hj
    · obtain rfl := List.mem_singleton.mp hm
      exact .refl

theorem instantiate_follows {w w₁ : World} (hw : w.Sound) {block : Block}
    {contents : List (String × Content)} {pairs : List (String × Value)}
    (h : w.gather contents = some (w₁, pairs)) :
    let w' : World :=
      { w₁ with holdings := w₁.holdings ++ [some ⟨.new block (.ofPairs pairs), none⟩] }
    w'.Sound ∧ w.Follows w' := by
  obtain ⟨hstages, hlen, hheld, htaken⟩ := gather_spec h
  refine hw.follows (hstages ▸ .refl _) (by simp [hlen]) (fun hs => hw.reachable (hstages ▸ hs))
    fun {k h'} hk => ?_
  -- only the new instance has a number that was not there before
  rcases Nat.lt_or_ge k w₁.holdings.length with hlt | hge
  · refine .inl (hheld k h' ?_)
    simpa [held?, List.getElem?_append_left hlt] using hk
  · right
    have hnew : (⟨.new block (.ofPairs pairs), none⟩ : Holding) = h' := by
      rw [held?, List.getElem?_append_right hge] at hk
      cases hd : k - w₁.holdings.length with
      | zero => simpa [hd] using hk
      | succ n => simp [hd] at hk
    subst hnew
    refine ⟨fun hlt => absurd hlt (by omega), .intro ⟨Bindings.sorted_ofPairs _, ?_⟩ ?_, ?_⟩
    · intro hm
      simp [Instance.new, Instance.isMounted] at hm
    · intro slot n hn
      rcases Bindings.mem_overlay hn with hn | hn
      · obtain ⟨k, h, hk, rfl⟩ := htaken slot n hn
        exact hw.tidy hk
      · simp at hn
    · intro hm
      simp [Instance.new, Instance.isMounted] at hm

theorem mount_follows {w : World} (hw : w.Sound) {k document : Nat} {h : Holding} {s : Stage}
    (hk : w.held? k = some h) (hs : w.stages[document]? = some s) (target : Nat) :
    let m := h.inst.mount target s
    let w' := (w.restage document m.stage).put k
      (some ⟨m.mounted, homeOf document h.home m.outcome⟩)
    w'.Sound ∧ w.Follows w' := by
  have hclosed := (hw.reachable hs).closed
  have hevolves := Instance.mount_evolves h.inst target hclosed
  have hremains := Instance.mount_remains h.inst target s
  have hevolve := Evolve.set hs hevolves
  refine hw.follows hevolve (by simp [put, restage]) (fun ht => hw.restage hs hevolves ht)
    fun {j h'} hj => ?_
  rcases held?_put hj with ⟨rfl, hh'⟩ | ⟨-, hj⟩
  · obtain rfl := Option.some.inj hh'
    refine .inr ⟨fun _ => ⟨h, hk, hremains.mono fun _ _ => Instance.Remains.continues, fun hm => ?_⟩,
      Instance.mount_tidy h.inst target hclosed (hw.tidy hk), fun hm => ?_⟩
    · rw [Instance.mount_of_mounted hm]
      rfl
    · cases hu : h.inst.isMounted with
      | true =>
        rw [Instance.mount_of_mounted hu]
        exact (hw.lodged hk hu).keep (Instance.mount_of_mounted hu target s ▸ hevolve)
      | false =>
        have hlt := (List.getElem?_eq_some_iff.mp hs).1
        have hset : (w.stages.set document (h.inst.mount target s).stage)[document]? =
            some (h.inst.mount target s).stage := by
          rw [List.getElem?_set, if_pos rfl, if_pos hlt]
        cases hm' : (h.inst.mount target s).outcome with
        | ok root =>
          exact ⟨document, _, rfl, hset, Instance.mount_settled h.inst hclosed hm'⟩
        | error failure =>
          -- it is not mounted, so it need not be settled anywhere
          have hunmounted := Instance.isMounted_of_failed hu hm'
          simp [hunmounted] at hm
  · exact .inl hj

theorem patch_follows {w : World} (hw : w.Sound) {k next document : Nat} {h fresh : Holding}
    {s : Stage} (hk : w.held? k = some h) (hnext : w.held? next = some fresh)
    (hs : w.stages[document]? = some s)
    (hhome : h.inst.isMounted = true → h.home = some document) :
    let p := h.inst.patch fresh.inst s
    let w' := ((w.restage document p.stage).put k (some ⟨p.live, h.home⟩)).put next none
    w'.Sound ∧ w.Follows w' := by
  have hclosed := (hw.reachable hs).closed
  have hlive := hw.settled hk hs hhome
  have hpatched := Instance.patched hclosed hlive (hw.tidy hk) (hw.tidy hnext)
  have hevolve := Evolve.set hs hpatched.evolves
  refine hw.follows hevolve (by simp [put, restage]) (fun ht => hw.restage hs hpatched.evolves ht)
    fun {j h'} hj => ?_
  -- the fresh instance is used up
  rcases held?_put hj with ⟨-, hnone⟩ | ⟨-, hj⟩
  · simp at hnone
  rcases held?_put hj with ⟨rfl, hh'⟩ | ⟨-, hj⟩
  · obtain rfl := Option.some.inj hh'
    refine .inr ⟨fun _ => ⟨h, hk, hpatched.continues, fun _ => rfl⟩, hpatched.tidy, fun hm => ?_⟩
    have hset : (w.stages.set document (h.inst.patch fresh.inst s).stage)[document]? =
        some (h.inst.patch fresh.inst s).stage := by
      rw [List.getElem?_set, if_pos rfl, if_pos (List.getElem?_eq_some_iff.mp hs).1]
    have hm := hpatched.mounted.symm.trans hm
    exact ⟨document, _, hhome hm, hset, hpatched.settled hm⟩
  · exact .inl hj

/-- **What an act keeps**, and what it makes of the documents and the instances. -/
theorem step_follows {w w' : World} {act : Act} (hw : w.Sound) (h : w.step act = some w') :
    w'.Sound ∧ w.Follows w' := by
  cases act with
  | begin =>
    obtain rfl := Option.some.inj h
    exact begin_follows hw
  | change document c =>
    simp only [step, Option.bind_eq_some_iff, Option.map_eq_some_iff] at h
    obtain ⟨s, hs, s', hperform, rfl⟩ := h
    have hevolves := Stage.evolves_of_perform hperform
    exact hw.follows (Evolve.set hs hevolves) (Nat.le_refl _)
      (fun ht => hw.restage hs hevolves ht) fun hk => .inl hk
  | instantiate block contents =>
    simp only [step, Option.map_eq_some_iff] at h
    obtain ⟨⟨w₁, pairs⟩, hgather, rfl⟩ := h
    exact instantiate_follows hw hgather
  | mount k document target =>
    simp only [step, Option.bind_eq_some_iff, Option.map_eq_some_iff] at h
    obtain ⟨h, hk, s, hs, rfl⟩ := h
    exact mount_follows hw hk hs target
  | patch k next document =>
    simp only [step, Option.bind_eq_some_iff] at h
    obtain ⟨h, hk, fresh, hnext, s, hs, hif⟩ := h
    split at hif
    · rename_i hcond
      obtain rfl := Option.some.inj hif
      exact patch_follows hw hk hnext hs hcond.2
    · simp at hif

theorem empty_sound : empty.Sound :=
  ⟨fun hs => by simp [empty] at hs, fun hk => by simp [empty, held?] at hk,
    fun hk => by simp [empty, held?] at hk⟩

theorem run_follows {acts : List Act} {w w' : World} (hw : w.Sound) (h : w.run acts = some w') :
    w'.Sound ∧ w.Follows w' := by
  induction acts generalizing w with
  | nil =>
    obtain rfl := Option.some.inj h
    exact ⟨hw, .refl w⟩
  | cons act rest ih =>
    simp only [run, Option.bind_eq_some_iff] at h
    obtain ⟨w₁, hstep, hrest⟩ := h
    obtain ⟨hsound, hfollows⟩ := step_follows hw hstep
    obtain ⟨hsound', hfollows'⟩ := ih hsound hrest
    exact ⟨hsound', hfollows.trans hfollows'⟩

/-- **An instance that is mounted is completely mounted for its whole life.** Whatever was
done before, all that is mounted is complete, at any depth; planning a patch in the document
that an instance was mounted in finds all it reads; and whatever is done later leaves the
nodes of the instance as they are, at any depth. -/
theorem run_complete {acts : List Act} {w : World} (hrun : empty.run acts = some w) {k : Nat}
    {h : Holding} (hk : w.held? k = some h) :
    h.inst.Everywhere (fun i => i.isMounted = true → i.Complete) ∧
      (h.inst.isMounted = true → ∃ document s, h.home = some document ∧
        w.stages[document]? = some s ∧ h.inst.Throughout (Instance.Ready s.document)) ∧
      ∀ later w' h', w.run later = some w' → w'.held? k = some h' →
        h.inst.Along Instance.Continues h'.inst := by
  obtain ⟨hsound, -⟩ := run_follows empty_sound hrun
  refine ⟨(hsound.tidy hk).mono fun _ hi => hi.complete, fun hm => ?_,
    fun later w' h' hlater hk' => ?_⟩
  · obtain ⟨document, s, hhome, hs, hsettled⟩ := hsound.lodged hk hm
    exact ⟨document, s, hhome, hs, hsettled.ready⟩
  · obtain ⟨-, hfollows⟩ := run_follows hsound hlater
    obtain ⟨h₁, hk₁, hbecomes⟩ := hfollows.becomes (lt_length_of_held? hk) hk'
    obtain rfl := Option.some.inj (hk.symm.trans hk₁)
    exact hbecomes.inst

/-- A badge is put on a card, and the card is mounted. -/
def cardActs : List Act :=
  [.begin, .instantiate Sample.badgeBlock [("tone", .scalar .null), ("word", .scalar (.str "new"))],
    .instantiate Sample.cardBlock
      [("badge", .taken 0), ("remark", .scalar .null), ("tip", .scalar .null)],
    .mount 1 0 0]

/-- The world in which the card is mounted. -/
def cardWorld : World :=
  (empty.run cardActs).getD empty

/-- The mounted card is complete. -/
theorem run_complete_card : empty.run cardActs = some cardWorld ∧ ∃ h,
    cardWorld.held? 1 = some h ∧ h.inst.root = some 1 ∧ h.inst.resolved = [1, 3, 1] ∧
      h.inst.Everywhere (fun i => i.isMounted = true → i.Complete) :=
  ⟨rfl, _, rfl, rfl, rfl, (@run_complete cardActs cardWorld rfl 1 _ rfl).1⟩

/-- **A patch does all or nothing.** It fails exactly if there is a fault at some depth, with
the error of the fault that comes first, and then the document and the instance are as they
were. -/
theorem patch_all_or_nothing {acts : List Act} {w : World} (hrun : empty.run acts = some w)
    {k document : Nat} {h : Holding} {s : Stage} (hk : w.held? k = some h)
    (hs : w.stages[document]? = some s)
    (hhome : h.inst.isMounted = true → h.home = some document) (fresh : Instance) :
    (∀ failure, (h.inst.patch fresh s).outcome = .error failure →
      (h.inst.patch fresh s).stage = s ∧ (h.inst.patch fresh s).live = h.inst) ∧
    (∀ failure, (h.inst.patch fresh s).outcome = .error failure ↔ ∃ place error,
      failure = .refused error ∧
        Instance.First (Instance.Fault s.document h.inst fresh) place error) ∧
    ((∃ failure, (h.inst.patch fresh s).outcome = .error failure) ↔
      ∃ place error, Instance.Fault s.document h.inst fresh place error) := by
  obtain ⟨hsound, -⟩ := run_follows empty_sound hrun
  have hclosed := (hsound.reachable hs).closed
  have hlive := hsound.settled hk hs hhome
  refine ⟨?_, Instance.patch_error_iff hclosed hlive fresh, ?_⟩
  all_goals
    rcases Instance.patch_cases hclosed hlive fresh with
      ⟨place, error, hfirst, hpatch⟩ | ⟨hnone, plan, -, -, hok⟩
  · rw [hpatch]
    exact fun _ _ => ⟨rfl, rfl⟩
  · rw [hok]
    exact fun _ hfailed => by simp at hfailed
  · rw [hpatch]
    exact ⟨fun _ => ⟨place, error, hfirst.1⟩, fun _ => ⟨_, rfl⟩⟩
  · rw [hok]
    refine ⟨fun hfailed => by simp at hfailed, ?_⟩
    rintro ⟨place, error, hfault⟩
    exact absurd hfault (hnone place error)

/-- A badge without a word is refused, though the tip before it and the tone have changed. -/
theorem patch_all_or_nothing_card : empty.run cardActs = some cardWorld ∧ ∃ h s,
    cardWorld.held? 1 = some h ∧ cardWorld.stages[0]? = some s ∧
      let fresh := Sample.cardOf (.new Sample.badgeBlock [("tone", .scalar (.str "red"))]) .null
        (.str "tip")
      (h.inst.patch fresh s).outcome = .error (.refused (.missingProp "word")) ∧
        (h.inst.patch fresh s).stage = s ∧ (h.inst.patch fresh s).live = h.inst :=
  ⟨rfl, _, _, rfl, rfl, rfl,
    (@patch_all_or_nothing cardActs cardWorld rfl 1 0 _ _ rfl rfl (fun _ => rfl) _).1 _ rfl⟩

/-- **A patch makes the changes that it owes and no others**: one for each edit, at any depth,
whose scalar is not equal to the one before, in the order of the edits. It counts the edits of
the instance itself, as skipped if their scalars are equal and as changed otherwise. A fresh
instance that agrees at every depth is accepted, and nothing is written. -/
theorem patch_makes_owed {acts : List Act} {w : World} (hrun : empty.run acts = some w)
    {k document : Nat} {h : Holding} {s : Stage} (hk : w.held? k = some h)
    (hs : w.stages[document]? = some s) (hmounted : h.inst.isMounted = true)
    (hhome : h.home = some document) (fresh : Instance) :
    (∀ stats, (h.inst.patch fresh s).outcome = .ok stats →
      (∃ cs, (∀ cs', Instance.Owes s.document h.inst fresh cs' ↔ cs' = cs) ∧
        (h.inst.patch fresh s).stage.changes.toList = s.changes.toList ++ cs ∧
        (h.inst.patch fresh s).stage.document = s.document.applyAll cs) ∧
      stats.edits = h.inst.block.edits.length ∧
      stats.skipped = h.inst.block.edits.countP (h.inst.unchanged fresh) ∧
      stats.changed = h.inst.block.edits.countP (fun e => !h.inst.unchanged fresh e) ∧
      stats.changed + stats.skipped = stats.edits) ∧
    (h.inst.Along Instance.Agrees fresh →
      (∃ stats, (h.inst.patch fresh s).outcome = .ok stats) ∧
      (h.inst.patch fresh s).stage.changes = s.changes ∧
      (h.inst.patch fresh s).stage.document = s.document) := by
  obtain ⟨hsound, -⟩ := run_follows empty_sound hrun
  have hclosed := (hsound.reachable hs).closed
  have hsettled := hsound.settled hk hs (fun _ => hhome) hmounted
  constructor
  · intro stats hok
    obtain ⟨cs, howes, hchanges, hdoc, hedits, hskipped, hchanged⟩ :=
      Instance.patch_owes hclosed (fun _ => hsettled) hok
    refine ⟨⟨cs, fun cs' => ⟨fun h => h.unique howes, fun h => h ▸ howes⟩, hchanges, hdoc⟩,
      hedits, hskipped, hchanged, ?_⟩
    rw [hedits, hskipped, hchanged, Nat.add_comm,
      List.length_eq_countP_add_countP (h.inst.unchanged fresh)]
    simp
  · exact fun hagrees => Instance.patch_of_agrees hclosed hsettled hagrees

/-- A new tip and a new word make two changes. The remark is the same, and so is the tone. -/
theorem patch_makes_owed_card : empty.run cardActs = some cardWorld ∧ ∃ h s,
    cardWorld.held? 1 = some h ∧ cardWorld.stages[0]? = some s ∧
      let fresh := Sample.cardOf (Sample.badgeOf .null (.str "hot")) .null (.str "tip")
      (h.inst.patch fresh s).outcome = .ok ⟨3, 2, 1⟩ ∧
        (h.inst.patch fresh s).stage.changes.toList =
          s.changes.toList ++ [.setAttribute 1 "title" (.str "tip"), .setText 6 "hot"] := by
  refine ⟨rfl, _, _, rfl, rfl, rfl, ?_⟩
  obtain ⟨⟨cs, hcs, hchanges, -⟩, -⟩ := (@patch_makes_owed cardActs cardWorld rfl 1 0 _ _ rfl rfl
    rfl rfl (Sample.cardOf (Sample.badgeOf .null (.str "hot")) .null (.str "tip"))).1 _ rfl
  obtain rfl := (hcs _).mp (.intro (.attr rfl rfl rfl (.equal rfl rfl rfl
    (.nested rfl rfl (.intro (.equal rfl rfl rfl (.text rfl rfl rfl rfl .nil))) .nil))))
  exact hchanges

end World

end Stencil
