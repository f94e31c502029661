import Stencil.Proofs.Instance.Placing
/- Complete instances: each edit has its node and its value, and a nested instance is in
   one slot, mounted, and complete in turn. A mount that succeeds leaves its instance
   complete, with all its nodes in the document (`mount_settled`), and whatever a mount
   comes to, no instance that was mounted before gets other nodes (`mount_remains`). -/
namespace Stencil

/-- The edits of the second list are made after those of the first. A slot that one of the
first reads is not filled by one of the second. -/
theorem Block.get?_eq_of_read {b : Block} {es es' : List Edit} {before after : Bindings Value}
    (hsub : (es ++ es').Sublist b.edits)
    (h : ∀ slot, after.get? slot = before.get? slot ∨
      b.usesOf slot ≤ 1 ∧ ∃ e ∈ es', e.hole = slot) {e : Edit} (he : e ∈ es) :
    after.get? e.hole = before.get? e.hole := by
  rcases h e.hole with heq | ⟨huses, hmem⟩
  · exact heq
  · exact absurd hmem (Block.not_mem_of_usesOf hsub huses ⟨e, he, rfl⟩)

theorem Block.usesOf_pos {b : Block} {e : Edit} (he : e ∈ b.edits) : 0 < b.usesOf e.hole :=
  List.countP_pos_iff.mpr ⟨e, he, by simp⟩

namespace Instance

/-- All edits of an instance have been made. -/
structure Whole (i : Instance) : Prop where
  mounted : i.isMounted = true
  resolved : i.resolved.length = i.block.edits.length
  valued : ∀ e ∈ i.block.edits, ∃ value, i.prop? e.hole = some value
  attr : ∀ {path name hole}, Edit.attr path name hole ∈ i.block.edits →
    ∃ value, i.prop? hole = some (.scalar value)
  once : ∀ {path index hole n}, Edit.child path index hole ∈ i.block.edits →
    i.prop? hole = some (.block n) → i.block.usesOf hole = 1

/-- All edits of an instance have been made, and so, in turn, have those of the instances
that they read. -/
def Complete (i : Instance) : Prop :=
  i.Throughout Whole

/-- The instance is complete, and the nodes of its edits are below the bound. -/
def Settled (bound : Nat) (i : Instance) : Prop :=
  i.Throughout fun j => j.Whole ∧ ∀ x : Nat, x ∈ j.resolved → x < bound

theorem Settled.complete {bound : Nat} {i : Instance} (h : i.Settled bound) : i.Complete :=
  h.mono fun _ hj => hj.1

theorem Settled.mono {bound bound' : Nat} {i : Instance} (h : i.Settled bound)
    (hle : bound ≤ bound') : i.Settled bound' :=
  Throughout.mono h fun _ hj => ⟨hj.1, fun x hx => Nat.lt_of_lt_of_le (hj.2 x hx) hle⟩

/-- What an edit has found in its slot, or put there, once it is made. -/
inductive Done (b : Block) (props : Bindings Value) (bound : Nat) : Edit → Prop where
  | attr {path : Path} {name hole : String} {value : Scalar}
      (hv : props.get? hole = some (.scalar value)) : Done b props bound (.attr path name hole)
  | leaf {path : Path} {index : Nat} {hole : String} {value : Scalar}
      (hv : props.get? hole = some (.scalar value)) : Done b props bound (.child path index hole)
  | nested {path : Path} {index : Nat} {hole : String} {n : Instance}
      (huses : b.usesOf hole ≤ 1) (hv : props.get? hole = some (.block n))
      (hn : n.Settled bound) : Done b props bound (.child path index hole)

theorem Done.keep {b : Block} {props props' : Bindings Value} {bound bound' : Nat} {e : Edit}
    (h : Done b props bound e) (hle : bound ≤ bound')
    (heq : props'.get? e.hole = props.get? e.hole) : Done b props' bound' e := by
  cases h with
  | attr hv => exact .attr (heq.trans hv)
  | leaf hv => exact .leaf (heq.trans hv)
  | nested huses hv hn => exact .nested huses (heq.trans hv) (hn.mono hle)

/-- Edits that are all done make an instance complete. -/
theorem settled_of_done {b : Block} {props : Bindings Value} {nodes : List Nat}
    {root bound : Nat} (hlen : nodes.length = b.edits.length) (hlt : ∀ x ∈ nodes, x < bound)
    (hdone : ∀ e ∈ b.edits, Done b props bound e) :
    (Instance.mk b props nodes (some root)).Settled bound := by
  refine .intro ⟨⟨rfl, hlen, fun e he => ?_, fun he => ?_, fun he hv => ?_⟩, hlt⟩ ?_
  · cases hdone e he with
    | attr hv => exact ⟨_, hv⟩
    | leaf hv => exact ⟨_, hv⟩
    | nested _ hv _ => exact ⟨_, hv⟩
  · cases hdone _ he with
    | attr hv => exact ⟨_, hv⟩
  · have hpos := Block.usesOf_pos he
    cases hdone _ he with
    | leaf hv' => simp [prop?, hv'] at hv
    | nested huses _ _ => exact Nat.le_antisymm huses hpos
  · rintro n ⟨e, he, hv⟩
    cases hdone e he with
    | attr hv' =>
      rw [Edit.hole] at hv
      simp [prop?, hv'] at hv
    | leaf hv' =>
      rw [Edit.hole] at hv
      simp [prop?, hv'] at hv
    | nested _ hv' hn =>
      rw [Edit.hole] at hv
      obtain rfl : _ = n := by simpa [prop?, hv'] using hv
      exact hn

/-- What a run of edits leaves when it succeeds. -/
structure Ran (b : Block) (es : List Edit) (p q : Progress) (nodes : List Nat) : Prop where
  size : p.stage.document.size ≤ q.stage.document.size
  length : nodes.length = es.length
  issued : ∀ x ∈ nodes, x < q.stage.document.size
  done : ∀ e ∈ es, Done b q.props q.stage.document.size e
  slots : ∀ slot, q.props.get? slot = p.props.get? slot ∨
    b.usesOf slot ≤ 1 ∧ ∃ e ∈ es, e.hole = slot

theorem Ran.cons {b : Block} {e : Edit} {es : List Edit} {p q r : Progress} {node : Nat}
    {nodes : List Nat} (hsub : (e :: es).Sublist b.edits) (h : Ran b [e] p q [node])
    (h' : Ran b es q r nodes) : Ran b (e :: es) p r (node :: nodes) where
  size := Nat.le_trans h.size h'.size
  length := by simp [h'.length]
  issued x hx := by
    rcases List.mem_cons.mp hx with rfl | hx
    · exact Nat.lt_of_lt_of_le (h.issued x (List.mem_singleton_self _)) h'.size
    · exact h'.issued x hx
  done f hf := by
    rcases List.mem_cons.mp hf with rfl | hf
    · have hsub : ([f] ++ es).Sublist b.edits := hsub
      have hread := Block.get?_eq_of_read hsub h'.slots (List.mem_singleton_self _)
      exact (h.done f (List.mem_singleton_self _)).keep h'.size hread
    · exact h'.done f hf
  slots slot := by
    rcases h'.slots slot with heq | ⟨huses, f, hf, hslot⟩
    · rcases h.slots slot with heq' | ⟨huses, f, hf, hslot⟩
      · exact .inl (heq.trans heq')
      · exact .inr ⟨huses, f, List.mem_singleton.mp hf ▸ List.mem_cons_self, hslot⟩
    · exact .inr ⟨huses, f, List.mem_cons_of_mem _ hf, hslot⟩

/-- An instance that is mounted in a slot is settled in its document. -/
def Lodges (n : Instance) : Prop :=
  ∀ {target : Nat} {s : Stage} {top : Nat}, s.document.Closed →
    (n.mount target s).outcome = .ok top →
    (n.mount target s).mounted.Settled (n.mount target s).stage.document.size

theorem ran_fillEdit {i : Instance} {root : Nat}
    (hlodges : ∀ slot n, i.prop? slot = some (.block n) → n.Lodges)
    {p q : Progress} {number node : Nat} {e : Edit} (hp : p.stage.document.Closed)
    (hroot : root < p.stage.document.size) (hprops : p.props.get? e.hole = i.prop? e.hole)
    (h : p.fillEdit i.block (fillingsOf i.props) root number e = (q, .ok node)) :
    Ran i.block [e] p q [node] := by
  have hnode : ∀ {path node}, p.stage.document.resolve? root path = some node →
      node < p.stage.document.size := fun hr => Document.lt_size_of_resolve? hp hroot hr
  have hfills := Progress.fills p i.block i.props root number e
  rw [h] at hfills
  cases hfills with
  | attr hr hv =>
    refine ⟨?_, rfl, ?_, fun f hf => ?_, fun _ => .inl rfl⟩
    · simp [Document.applyAll, Document.apply]
    · simpa [Document.applyAll, Document.apply] using hnode hr
    · obtain rfl := List.mem_singleton.mp hf
      exact .attr (hprops.trans hv)
  | leaf hr hv =>
    refine ⟨?_, rfl, ?_, fun f hf => ?_, fun _ => .inl rfl⟩
    · simp [Document.applyAll, Document.apply]
    · simpa [Document.applyAll, Document.apply] using Nat.lt_succ_of_lt (hnode hr)
    · obtain rfl := List.mem_singleton.mp hf
      exact .leaf (hprops.trans hv)
  | nested hr hv huses hm =>
    rename_i path index hole n top
    have hsettled := hlodges hole n hv hp hm
    have hsize := (mount_evolves n node hp).size_le
    refine ⟨hsize, rfl, ?_, ?_, fun slot => ?_⟩
    · simpa using Nat.lt_of_lt_of_le (hnode hr) hsize
    · have hget : (p.props.insert hole (.block (n.mount node p.stage).mounted)).get? hole =
          some (.block (n.mount node p.stage).mounted) := by
        rw [Bindings.get?_insert, if_pos rfl]
      simpa using Done.nested huses hget hsettled
    · by_cases hslot : slot = hole
      · exact .inr ⟨hslot ▸ huses, _, List.mem_singleton_self _, hslot.symm⟩
      · exact .inl (by rw [Progress.props_note, Bindings.get?_insert, if_neg hslot])

theorem ran_fillEdits {i : Instance} {root : Nat}
    (hlodges : ∀ slot n, i.prop? slot = some (.block n) → n.Lodges)
    {es : List Edit} (hsub : es.Sublist i.block.edits) {p q : Progress} {number : Nat}
    {nodes : List Nat} (hp : p.stage.document.Closed) (hroot : root < p.stage.document.size)
    (hprops : ∀ e ∈ es, p.props.get? e.hole = i.prop? e.hole)
    (h : p.fillEdits i.block (fillingsOf i.props) root number es = (q, .ok nodes)) :
    Ran i.block es p q nodes := by
  induction es generalizing p number nodes with
  | nil =>
    simp only [Progress.fillEdits, Prod.mk.injEq, Except.ok.injEq] at h
    obtain ⟨rfl, rfl⟩ := h
    exact ⟨Nat.le_refl _, rfl, by simp, by simp, fun _ => .inl rfl⟩
  | cons e rest ih =>
    have hevolves := evolves_fillEdit i (fun _ n _ => mount_evolves n) number e hp hroot
    simp only [Progress.fillEdits] at h
    cases hedit : p.fillEdit i.block (fillingsOf i.props) root number e with
    | mk p₁ outcome =>
      cases outcome with
      | error failure => simp [hedit] at h
      | ok node =>
        simp only [hedit] at h hevolves
        have hfirst := ran_fillEdit hlodges hp hroot (hprops e List.mem_cons_self) hedit
        have hroot₁ := Nat.lt_of_lt_of_le hroot hevolves.size_le
        cases hrest : p₁.fillEdits i.block (fillingsOf i.props) root (number + 1) rest with
        | mk p₂ outcome =>
          cases outcome with
          | error failure => simp [hrest] at h
          | ok nodes' =>
            simp only [hrest, Prod.mk.injEq, Except.ok.injEq] at h
            obtain ⟨rfl, rfl⟩ := h
            refine hfirst.cons hsub (ih ((List.sublist_cons_self _ _).trans hsub)
              (hevolves.closed hp) hroot₁ (fun f hf => ?_) hrest)
            -- the later edits do not read a slot in which an instance was mounted
            rw [← hprops f (List.mem_cons_of_mem _ hf)]
            rcases hfirst.slots f.hole with heq | ⟨huses, hmem⟩
            · exact heq
            · have hsub : ([e] ++ rest).Sublist i.block.edits := hsub
              exact absurd ⟨f, hf, rfl⟩ (Block.not_mem_of_usesOf hsub huses hmem)

/-- **A mount that succeeds is complete.** -/
theorem mount_settled (i : Instance) : i.Lodges := by
  induction i using Instance.induction with
  | _ i ih =>
    intro target s top hd hm
    rcases mount_cases i target s with hspared | ⟨-, ht, hmount⟩
    · obtain ⟨failure, hfailed⟩ := hspared.failed
      simp [hfailed] at hm
    · rw [hmount] at hm ⊢
      have hstart := grounds_staged i hd ht
      have hran := fun {q nodes} => @ran_fillEdits i s.document.size ih i.block.edits
        (List.Sublist.refl _) ⟨i.staged target s, i.props⟩ q 0 nodes hstart.2.1 hstart.2.2
        fun _ _ => rfl
      simp only [filled] at hm ⊢
      generalize (Progress.mk (i.staged target s) i.props).fillEdits i.block (fillingsOf i.props)
        s.document.size 0 i.block.edits = r at hm hran ⊢
      obtain ⟨⟨stage, props⟩, outcome⟩ := r
      cases outcome with
      | error failure => simp [concluded] at hm
      | ok nodes =>
        have hran := hran rfl
        exact settled_of_done hran.length hran.issued hran.done

/-- A mount that fails does not leave its instance mounted. -/
theorem isMounted_of_failed {i : Instance} {target : Nat} {s : Stage} {failure : Failure}
    (hu : i.isMounted = false) (h : (i.mount target s).outcome = .error failure) :
    (i.mount target s).mounted.isMounted = false := by
  rcases mount_cases i target s with hspared | ⟨-, -, hm⟩
  · rw [hspared.mounted, hu]
  · rw [hm] at h ⊢
    generalize i.filled target s = r at h
    obtain ⟨⟨stage, props⟩, outcome⟩ := r
    cases outcome with
    | error failure => exact hu
    | ok nodes => simp [concluded] at h

/-- What no mount takes from an instance: its block, its nodes once it is mounted, its
scalars, and that a slot holds a nested instance. -/
structure Remains (i j : Instance) : Prop where
  block : j.block = i.block
  root : i.isMounted = true → j.root = i.root
  resolved : i.isMounted = true → j.resolved = i.resolved
  scalars : ∀ slot, (j.prop? slot).map Value.scalar? = (i.prop? slot).map Value.scalar?

theorem Remains.refl (i : Instance) : i.Remains i :=
  ⟨rfl, fun _ => rfl, fun _ => rfl, fun _ => rfl⟩

/-- Slots have the scalars of the instance, and what remains of its nested instances. -/
structure Retains (i : Instance) (props : Bindings Value) : Prop where
  scalars : ∀ slot, (props.get? slot).map Value.scalar? = (i.prop? slot).map Value.scalar?
  nested : ∀ slot n m, i.prop? slot = some (.block n) → props.get? slot = some (.block m) →
    n.Along Remains m

theorem Retains.self (i : Instance) : i.Retains i.props where
  scalars _ := rfl
  nested slot n m hn hm := by
    obtain rfl : n = m := by simpa [prop?] using hn.symm.trans hm
    exact .refl Remains.refl n

theorem Retains.insert {i : Instance} {props : Bindings Value} {hole : String} {n m : Instance}
    (h : i.Retains props) (hn : i.prop? hole = some (.block n)) (hm : n.Along Remains m) :
    i.Retains (props.insert hole (.block m)) where
  scalars slot := by
    rw [Bindings.get?_insert]
    split
    · rename_i hslot
      simp [hslot, hn, Value.scalar?]
    · exact h.scalars slot
  nested slot n' m' hn' hm' := by
    rw [Bindings.get?_insert] at hm'
    split at hm'
    · rename_i hslot
      obtain rfl : n = n' := by simpa [hslot, hn] using hn'
      obtain rfl : m = m' := by simpa using hm'
      exact hm
    · exact h.nested slot n' m' hn' hm'

/-- **A mount changes no nodes of an instance that was mounted before it**, at any depth,
and no values. -/
theorem mount_remains (i : Instance) : ∀ (target : Nat) (s : Stage),
    i.Along Remains (i.mount target s).mounted := by
  induction i using Instance.induction with
  | _ i ih =>
    intro target s
    rcases mount_cases i target s with hspared | ⟨hu, -, hm⟩
    · rw [hspared.mounted]
      exact .refl Remains.refl i
    · have hretains : i.Retains (i.filled target s).1.props := by
        refine Progress.fillEdits_induction (P := fun p => i.Retains p.props) ?_ _ 0 (.self i)
        intro p number e _ hp
        rcases p.props_fillEdit i.block i.props s.document.size number e with
          heq | ⟨n, node, hn, -, heq⟩
        · rw [heq]
          exact hp
        · rw [heq]
          exact hp.insert hn (ih e.hole n hn node p.stage)
      rw [hm]
      generalize i.filled target s = r at hretains
      obtain ⟨⟨stage, props⟩, outcome⟩ := r
      cases outcome <;>
        exact .intro ⟨rfl, by simp [hu], by simp [hu], hretains.scalars⟩
          fun e _ n m => hretains.nested e.hole n m

/-- The slots are in order. -/
def Ordered (i : Instance) : Prop :=
  Bindings.Sorted i.props

/-- The slots are in order, and an instance that is mounted is complete. -/
structure Tidy (i : Instance) : Prop where
  sorted : i.Ordered
  complete : i.isMounted = true → i.Complete

/-- A mount leaves all that an instance holds tidy, whatever it comes to. -/
theorem mount_tidy (i : Instance) : ∀ (target : Nat) {s : Stage}, s.document.Closed →
    i.Everywhere Tidy → (i.mount target s).mounted.Everywhere Tidy := by
  induction i using Instance.induction with
  | _ i ih =>
    intro target s hd hi
    rcases mount_cases i target s with hspared | ⟨hu, ht, hm⟩
    · rw [hspared.mounted]
      exact hi
    · have hrun : Grounds s.document.size s.document (i.filled target s).1.stage.document ∧
          Bindings.Sorted (i.filled target s).1.props ∧
          ∀ slot n, (slot, Value.block n) ∈ (i.filled target s).1.props → n.Everywhere Tidy := by
        refine Progress.fillEdits_induction
          (P := fun p => Grounds s.document.size s.document p.stage.document ∧
            Bindings.Sorted p.props ∧
            ∀ slot n, (slot, Value.block n) ∈ p.props → n.Everywhere Tidy) ?_ _ 0
          ⟨grounds_staged i hd ht, hi.here.sorted, fun slot n hn => hi.nested hn⟩
        rintro p number e _ ⟨hgrounds, hsorted, htidy⟩
        have hevolves := evolves_fillEdit i (fun _ n _ => mount_evolves n) number e hgrounds.2.1
          hgrounds.2.2
        refine ⟨hgrounds.step hevolves, ?_⟩
        rcases p.props_fillEdit i.block i.props s.document.size number e with
          heq | ⟨n, node, hn, -, heq⟩
        · rw [heq]
          exact ⟨hsorted, htidy⟩
        · rw [heq]
          refine ⟨hsorted.insert _ _, fun slot m hm => ?_⟩
          rcases Bindings.mem_insert hm with hm | hm
          · obtain ⟨-, rfl⟩ : slot = e.hole ∧ m = (n.mount node p.stage).mounted := by simpa using hm
            exact ih e.hole n hn node hgrounds.2.1 (hi.nested (Bindings.mem_of_get? hn))
          · exact htidy slot m hm
      have hsettled := fun {top} => @mount_settled i target s top hd
      rw [hm] at hsettled ⊢
      generalize i.filled target s = r at hrun hsettled ⊢
      obtain ⟨⟨stage, props⟩, outcome⟩ := r
      cases outcome with
      | error failure =>
        -- a mount that fails does not count as one
        refine .intro ⟨hrun.2.1, fun hm => ?_⟩ hrun.2.2
        exact absurd (hm.symm.trans hu) (by simp)
      | ok nodes => exact .intro ⟨hrun.2.1, fun _ => (hsettled rfl).complete⟩ hrun.2.2

end Instance

end Stencil
