import Stencil.Proofs.Instance.Planning
/- What an instance holds after a patch. A nested instance stays in its slot and adopts
   the fresh values in turn; every other slot takes its fresh value, if there is one
   (`get?_adopt`, `Adopts`). So a complete instance stays complete, and no instance at any
   depth gets other nodes (`adopted_settled`). -/
namespace Stencil

namespace Instance

theorem adopt_eq (props fresh : Bindings Value) (nested : List (String × Instance)) :
    adopt props fresh nested =
      (Bindings.overlay props (nested.map fun n => (n.1, .block n.2))).overlay
        (nested.foldl (fun acc n => Bindings.erase acc n.1) fresh) := by
  simp only [adopt, Bindings.overlay, List.foldl_map]

theorem get?_foldl_erase (nested : List (String × Instance)) (fresh : Bindings Value)
    (slot : String) : Bindings.get? (nested.foldl (fun acc n => Bindings.erase acc n.1) fresh) slot =
      if slot ∈ nested.map Prod.fst then none else Bindings.get? fresh slot := by
  induction nested generalizing fresh with
  | nil => rfl
  | cons entry rest ih =>
    simp only [List.foldl_cons, ih, Bindings.get?_erase, List.map_cons, List.mem_cons]
    by_cases hr : slot ∈ rest.map Prod.fst <;> by_cases hs : slot = entry.1 <;> simp [hr, hs]

theorem sublist_foldl_erase (nested : List (String × Instance)) (fresh : Bindings Value) :
    (nested.foldl (fun acc n => Bindings.erase acc n.1) fresh).Sublist fresh := by
  induction nested generalizing fresh with
  | nil => exact .refl _
  | cons entry rest ih => exact (ih _).trans List.filter_sublist

/-- After a patch, a nested instance is in its slot, and the fresh value in every other
that has one. -/
theorem get?_adopt {props fresh : Bindings Value} {nested : List (String × Instance)}
    (hfresh : fresh.Sorted) (hnested : (nested.map Prod.fst).Nodup) (slot : String) :
    Bindings.get? (adopt props fresh nested) slot =
      match Bindings.get? nested slot with
      | some n => some (.block n)
      | none => (Bindings.get? fresh slot).or (Bindings.get? props slot) := by
  have hget : Bindings.get? (nested.map fun n => (n.1, Value.block n.2)) slot =
      (Bindings.get? nested slot).map Value.block := by
    induction nested with
    | nil => rfl
    | cons entry rest ih =>
      simp only [List.map_cons, List.nodup_cons] at hnested
      rw [List.map_cons, Bindings.get?_cons, ih hnested.2, Bindings.get?_cons]
      split <;> rfl
  have hnames : Bindings.names (nested.map fun n => (n.1, Value.block n.2)) =
      nested.map Prod.fst := by
    simp [Bindings.names]
  have hrest : (Bindings.names (nested.foldl (fun acc n => Bindings.erase acc n.1) fresh)).Nodup :=
    hfresh.nodup.sublist ((sublist_foldl_erase nested fresh).map _)
  rw [adopt_eq, Bindings.get?_overlay _ _ hrest, Bindings.get?_overlay _ _ (hnames ▸ hnested),
    get?_foldl_erase, hget]
  cases hn : Bindings.get? nested slot with
  | some n =>
    have hmem : slot ∈ nested.map Prod.fst := List.mem_map_of_mem (Bindings.mem_of_get? hn)
    simp [hmem]
  | none =>
    have hmem : slot ∉ nested.map Prod.fst := Bindings.get?_eq_none.mp hn
    simp [hmem]

theorem adopt_sorted {props : Bindings Value} (h : props.Sorted) (fresh : Bindings Value)
    (nested : List (String × Instance)) : Bindings.Sorted (adopt props fresh nested) := by
  rw [adopt_eq]
  exact (h.overlay _).overlay _

theorem mem_adopt {props fresh : Bindings Value} {nested : List (String × Instance)}
    {slot : String} {n : Instance} (h : (slot, Value.block n) ∈ adopt props fresh nested) :
    (slot, n) ∈ nested ∨ (slot, Value.block n) ∈ fresh ∨ (slot, Value.block n) ∈ props := by
  rw [adopt_eq] at h
  rcases Bindings.mem_overlay h with h | h
  · exact .inr (.inl ((sublist_foldl_erase nested fresh).subset h))
  · rcases Bindings.mem_overlay h with h | h
    · obtain ⟨⟨hole, a⟩, ha, heq⟩ := List.mem_map.mp h
      obtain ⟨rfl, rfl⟩ : hole = slot ∧ a = n := by simpa using heq
      exact .inl ha
    · exact .inr (.inr h)

theorem get?_of_mem {nested : List (String × Instance)} (h : (nested.map Prod.fst).Nodup)
    {slot : String} {n : Instance} (hm : (slot, n) ∈ nested) : Bindings.get? nested slot = some n := by
  induction nested with
  | nil => simp at hm
  | cons entry rest ih =>
    simp only [List.map_cons, List.nodup_cons] at h
    rw [Bindings.get?_cons]
    rcases List.mem_cons.mp hm with rfl | hm
    · simp
    · have hne : slot ≠ entry.1 := fun heq => h.1 (heq ▸ List.mem_map_of_mem hm)
      rw [if_neg hne, ih h.2 hm]

/-! Plans of whole instances. -/

theorem plan_of_ok {d : Document} {live fresh : Instance} {plan : Plan}
    (h : live.plan d fresh = .ok plan) : live.block.sameAs fresh.block = true ∧
      live.isMounted = true ∧ ∃ plans : EditPlans,
        planEdits d (facingsOf live.props) fresh 0 live.block.edits live.resolved = .ok plans ∧
          plan = ⟨plans.steps, { live with props := adopt live.props fresh.props plans.nested },
            ⟨live.block.edits.length, plans.changed, plans.skipped⟩⟩ := by
  rw [plan_eq, planWith] at h
  split at h
  · simp at h
  · rename_i hsame
    split at h
    · simp at h
    · rename_i hmounted
      cases hplans : planEdits d (facingsOf live.props) fresh 0 live.block.edits live.resolved with
      | error failure => simp [hplans, Except.map] at h
      | ok plans =>
        simp only [hplans, Except.map, Except.ok.injEq] at h
        exact ⟨by simpa using hsame, by simpa using hmounted, plans, rfl, h.symm⟩

/-- A plan for the edits of a mounted instance is a plan of the instance. -/
theorem plan_of_planEdits {d : Document} {live fresh : Instance} {plans : EditPlans}
    (hsame : live.block.sameAs fresh.block = true) (hmounted : live.isMounted = true)
    (h : planEdits d (facingsOf live.props) fresh 0 live.block.edits live.resolved = .ok plans) :
    live.plan d fresh =
      .ok ⟨plans.steps, { live with props := adopt live.props fresh.props plans.nested },
        ⟨live.block.edits.length, plans.changed, plans.skipped⟩⟩ := by
  rw [plan_eq, planWith, hsame, hmounted, h]
  rfl

/-- What an instance is once it has adopted the values of a fresh one. -/
structure Adopts (d : Document) (live fresh after : Instance) : Prop where
  block : after.block = live.block
  resolved : after.resolved = live.resolved
  root : after.root = live.root
  scalars : ∀ e ∈ live.block.edits, ∀ old, live.prop? e.hole = some (.scalar old) →
    ∃ new, fresh.prop? e.hole = some (.scalar new) ∧ after.prop? e.hole = some (.scalar new)
  blocks : ∀ e ∈ live.block.edits, ∀ n, live.prop? e.hole = some (.block n) →
    ∃ m plan, fresh.prop? e.hole = some (.block m) ∧ n.plan d m = .ok plan ∧
      after.prop? e.hole = some (.block plan.adopted)
  sorted : Bindings.Sorted live.props → Bindings.Sorted after.props
  mem : ∀ slot a, (slot, Value.block a) ∈ after.props →
    (∃ n m plan, live.prop? slot = some (.block n) ∧ fresh.prop? slot = some (.block m) ∧
      n.plan d m = .ok plan ∧ a = plan.adopted ∧ ∃ e ∈ live.block.edits, e.hole = slot) ∨
    (slot, Value.block a) ∈ fresh.props ∨ (slot, Value.block a) ∈ live.props

theorem adopts_of_plan {d : Document} {live fresh : Instance} {plan : Plan} (hlive : live.Whole)
    (hlt : ∀ x : Nat, x ∈ live.resolved → x < d.size) (hfresh : Bindings.Sorted fresh.props)
    (h : live.plan d fresh = .ok plan) : Adopts d live fresh plan.adopted := by
  obtain ⟨-, -, plans, hplans, rfl⟩ := plan_of_ok h
  have hp := planned hlive (.refl _) hlive.resolved hlt hplans
  refine ⟨rfl, rfl, rfl, fun e he old hold => ?_, fun e he n hn => ?_, fun hs => ?_,
    fun slot a ha => ?_⟩
  · obtain ⟨new, hnew⟩ := hp.scalars e he old hold
    have hnone : Bindings.get? plans.nested e.hole = none := by
      cases hget : Bindings.get? plans.nested e.hole with
      | none => rfl
      | some a =>
        obtain ⟨-, n, -, -, hn, -⟩ := hp.nested _ _ (Bindings.mem_of_get? hget)
        simp [hold] at hn
    refine ⟨new, hnew, ?_⟩
    simp only [prop?] at hnew ⊢
    rw [get?_adopt hfresh hp.nodup, hnone, hnew]
    rfl
  · obtain ⟨m, plan, hm, hplan, hmem⟩ := hp.blocks e he n hn
    refine ⟨m, plan, hm, hplan, ?_⟩
    simp only [prop?]
    rw [get?_adopt hfresh hp.nodup, get?_of_mem hp.nodup hmem]
  · exact adopt_sorted hs _ _
  · rcases mem_adopt ha with ha | ha
    · obtain ⟨he, n, m, plan, hn, hm, hplan, rfl⟩ := hp.nested slot a ha
      exact .inl ⟨n, m, plan, hn, hm, hplan, rfl, he⟩
    · exact .inr ha

section Adopts

variable {d : Document} {live fresh after : Instance} {e : Edit}

theorem Adopts.of_block (h : Adopts d live fresh after) (hlive : live.Whole)
    (he : e ∈ live.block.edits) {a : Instance} (ha : after.prop? e.hole = some (.block a)) :
    ∃ n m plan, live.prop? e.hole = some (.block n) ∧ fresh.prop? e.hole = some (.block m) ∧
      n.plan d m = .ok plan ∧ a = plan.adopted := by
  obtain ⟨value, hv⟩ := hlive.valued e he
  cases value with
  | scalar old =>
    obtain ⟨new, -, hnew⟩ := h.scalars e he old hv
    simp [hnew] at ha
  | block n =>
    obtain ⟨m, plan, hm, hplan, ha'⟩ := h.blocks e he n hv
    obtain rfl : plan.adopted = a := by simpa [ha'] using ha
    exact ⟨n, m, plan, hv, hm, hplan, rfl⟩

theorem Adopts.whole (h : Adopts d live fresh after) (hlive : live.Whole) : after.Whole where
  mounted := by
    rw [isMounted, h.root]
    exact hlive.mounted
  resolved := by rw [h.resolved, h.block, hlive.resolved]
  valued e he := by
    rw [h.block] at he
    obtain ⟨value, hv⟩ := hlive.valued e he
    cases value with
    | scalar old =>
      obtain ⟨new, -, hnew⟩ := h.scalars e he old hv
      exact ⟨_, hnew⟩
    | block n =>
      obtain ⟨m, plan, -, -, ha⟩ := h.blocks e he n hv
      exact ⟨_, ha⟩
  attr he := by
    rw [h.block] at he
    obtain ⟨old, hold⟩ := hlive.attr he
    obtain ⟨new, -, hnew⟩ := h.scalars _ he old hold
    exact ⟨new, hnew⟩
  once he ha := by
    rw [h.block] at he ⊢
    obtain ⟨n, -, -, hn, -⟩ := h.of_block hlive he ha
    exact hlive.once he hn

end Adopts

/-- What a patch leaves of an instance: its block and its nodes, and a nested instance in
each slot where there was one that an edit reads. -/
structure Continues (i j : Instance) : Prop where
  block : j.block = i.block
  root : i.isMounted = true → j.root = i.root
  resolved : i.isMounted = true → j.resolved = i.resolved
  nested : ∀ e ∈ i.block.edits, ∀ n, i.prop? e.hole = some (.block n) →
    ∃ m, j.prop? e.hole = some (.block m)

theorem Continues.refl (i : Instance) : i.Continues i :=
  ⟨rfl, fun _ => rfl, fun _ => rfl, fun _ _ n hn => ⟨n, hn⟩⟩

theorem Adopts.continues {d : Document} {live fresh after : Instance}
    (h : Adopts d live fresh after) : live.Continues after where
  block := h.block
  root _ := h.root
  resolved _ := h.resolved
  nested e he n hn := by
    obtain ⟨m, plan, -, -, ha⟩ := h.blocks e he n hn
    exact ⟨plan.adopted, ha⟩

theorem Remains.continues {i j : Instance} (h : i.Remains j) : i.Continues j where
  block := h.block
  root := h.root
  resolved := h.resolved
  nested e _ n hn := by
    have hscalars := h.scalars e.hole
    cases hm : j.prop? e.hole with
    | none => simp [hn, hm] at hscalars
    | some value =>
      cases value with
      | scalar a => simp [hn, hm, Value.scalar?] at hscalars
      | block m => exact ⟨m, rfl⟩

theorem Continues.trans {i j k : Instance} (h : i.Along Continues j) (h' : j.Along Continues k) :
    i.Along Continues k := by
  induction h generalizing k with
  | @intro i j hij _ ih =>
    have hjk := h'.here
    refine .intro ⟨hjk.block.trans hij.block, fun hm => ?_, fun hm => ?_, fun e he n hn => ?_⟩
      fun e he n m hn hm => ?_
    · have hmounted : j.isMounted = true := by
        rw [isMounted, hij.root hm]
        exact hm
      rw [hjk.root hmounted, hij.root hm]
    · have hmounted : j.isMounted = true := by
        rw [isMounted, hij.root hm]
        exact hm
      rw [hjk.resolved hmounted, hij.resolved hm]
    · obtain ⟨m, hm⟩ := hij.nested e he n hn
      exact hjk.nested e (hij.block ▸ he) m hm
    · obtain ⟨l, hl⟩ := hij.nested e he n hn
      exact ih e he n l hn hl (h'.nested (hij.block ▸ he) hl hm)

section Patched

variable {d : Document} {bound : Nat} {live : Instance}

/-- What adopting makes of an instance, it makes of it at every depth. -/
theorem adopted_along {R : Instance → Instance → Prop}
    (hR : ∀ live fresh after, Adopts d live fresh after → live.Whole → R live after)
    (hbound : bound ≤ d.size) (hlive : live.Settled bound) :
    ∀ {fresh : Instance} {plan : Plan}, fresh.Everywhere Ordered → live.plan d fresh = .ok plan →
      live.Along R plan.adopted := by
  induction live using Instance.induction with
  | _ live ih =>
    intro fresh plan hfresh h
    have hwhole := hlive.here.1
    have hadopts := adopts_of_plan hwhole
      (fun x hx => Nat.lt_of_lt_of_le (hlive.here.2 x hx) hbound) hfresh.here h
    refine .intro (hR _ _ _ hadopts hwhole) fun e he n a hn ha => ?_
    obtain ⟨n', m, plan', hn', hm, hplan', rfl⟩ := hadopts.of_block hwhole he ha
    obtain rfl : n' = n := by simpa [hn'] using hn
    exact ih e.hole n' hn (hlive.nested ⟨e, he, hn⟩) (hfresh.nested (Bindings.mem_of_get? hm))
      hplan'

/-- **A patch leaves a complete instance complete**, with the same nodes at every depth. -/
theorem adopted_settled (hbound : bound ≤ d.size) (hlive : live.Settled bound) :
    ∀ {fresh : Instance} {plan : Plan}, fresh.Everywhere Ordered → live.plan d fresh = .ok plan →
      plan.adopted.Settled bound ∧ live.Along Continues plan.adopted := by
  induction live using Instance.induction with
  | _ live ih =>
    intro fresh plan hfresh h
    have hwhole := hlive.here.1
    have hadopts := adopts_of_plan hwhole
      (fun x hx => Nat.lt_of_lt_of_le (hlive.here.2 x hx) hbound) hfresh.here h
    refine ⟨.intro ⟨hadopts.whole hwhole, hadopts.resolved ▸ hlive.here.2⟩ ?_,
      adopted_along (fun _ _ _ h _ => h.continues) hbound hlive hfresh h⟩
    rintro a ⟨e, he, ha⟩
    rw [hadopts.block] at he
    obtain ⟨n, m, plan', hn, hm, hplan', rfl⟩ := hadopts.of_block hwhole he ha
    exact (ih e.hole n hn (hlive.nested ⟨e, he, hn⟩) (hfresh.nested (Bindings.mem_of_get? hm))
      hplan').1

/-- A patch leaves all that an instance holds tidy. -/
theorem adopted_tidy (hbound : bound ≤ d.size) (hlive : live.Settled bound)
    (htidy : live.Everywhere Tidy) :
    ∀ {fresh : Instance} {plan : Plan}, fresh.Everywhere Tidy → live.plan d fresh = .ok plan →
      plan.adopted.Everywhere Tidy := by
  induction live using Instance.induction with
  | _ live ih =>
    intro fresh plan hfresh h
    have hlt : ∀ x : Nat, x ∈ live.resolved → x < d.size := fun x hx =>
      Nat.lt_of_lt_of_le (hlive.here.2 x hx) hbound
    have hadopts := adopts_of_plan hlive.here.1 hlt hfresh.here.sorted h
    refine .intro ⟨hadopts.sorted htidy.here.sorted, fun _ => ?_⟩ fun slot a ha => ?_
    · have hordered := hfresh.mono fun _ hj => hj.sorted
      exact (adopted_settled hbound hlive hordered h).1.complete
    · rcases hadopts.mem slot a ha with ⟨n, m, plan', hn, hm, hplan', rfl, e, he, rfl⟩ | ha | ha
      · exact ih e.hole n hn (hlive.nested ⟨e, he, hn⟩) (htidy.nested (Bindings.mem_of_get? hn))
          (hfresh.nested (Bindings.mem_of_get? hm)) hplan'
      · exact hfresh.nested ha
      · exact htidy.nested ha

end Patched

end Instance

end Stencil
