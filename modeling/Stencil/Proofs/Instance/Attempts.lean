import Stencil.Proofs.Instance.Aging
import Stencil.Proofs.Instance.Tracing
/- Mount attempts. An instance can be attempted over and over, on its own or because one that
   holds it is; the attempts that a mount makes on nested instances are said in terms of the turns
   of its edits (`Reaches`). Whoever makes them, the first attempt on an instance decides
   (`first_attempt_decides`): each later one finds what earlier ones have made of it. -/
namespace Stencil

namespace Progress

variable {block : Block} {slots : Bindings Value} {root number node : Nat} {p : Progress}

/-- An edit that mounts a nested instance puts it back into its slot, however the mount ends. -/
theorem get?_fillEdit {path : Path} {index : Nat} {hole : String} {n : Instance}
    (hr : p.stage.document.resolve? root path = some node)
    (hv : slots.get? hole = some (.block n)) (huses : block.usesOf hole ≤ 1) :
    (p.fillEdit block (fillingsOf slots) root number (.child path index hole)).1.props.get? hole =
      some (.block (n.mount node p.stage).mounted) := by
  have hr' : p.stage.document.resolve? root (Edit.child path index hole).path = some node := hr
  have hv' : slots.get? (Edit.child path index hole).hole = some (.block n) := hv
  simp only [fillEdit, hr', get?_fillingsOf, hv', Option.map_some, Value.filling, fillSlot,
    Nat.not_lt_of_le huses, if_false]
  cases (n.mount node p.stage).outcome <;> simp [Except.map, Bindings.get?_insert]

/-- An edit that changes a slot mounts the nested instance in it. -/
theorem mounts_of_get?_ne {slot : String} {e : Edit}
    (h : (p.fillEdit block (fillingsOf slots) root number e).1.props.get? slot ≠
      p.props.get? slot) :
    ∃ path index node, e = .child path index slot ∧
      p.stage.document.resolve? root path = some node ∧ block.usesOf slot ≤ 1 := by
  have hfills := fills p block slots root number e
  generalize p.fillEdit block (fillingsOf slots) root number e = r at hfills h
  cases hfills with
  | nestedFails hr _ huses =>
    rw [Bindings.get?_insert, ite_ne_right_iff] at h
    exact ⟨_, _, _, by rw [h.1], hr, h.1 ▸ huses⟩
  | nested hr _ huses =>
    rw [props_note, Bindings.get?_insert, ite_ne_right_iff] at h
    exact ⟨_, _, _, by rw [h.1], hr, h.1 ▸ huses⟩
  | _ => exact absurd rfl h

/-- A run that changes a slot has come to an edit that mounts the nested instance in it. -/
theorem exists_turn_of_get?_ne {slot : String} {es : List Edit}
    (h : (p.fillEdits block (fillingsOf slots) root number es).1.props.get? slot ≠
      p.props.get? slot) :
    ∃ done path index rest q nodes node, es = done ++ .child path index slot :: rest ∧
      p.fillEdits block (fillingsOf slots) root number done = (q, .ok nodes) ∧
      q.stage.document.resolve? root path = some node ∧ block.usesOf slot ≤ 1 := by
  induction es generalizing p number with
  | nil => exact absurd rfl h
  | cons e rest ih =>
    by_cases hsame : (p.fillEdit block (fillingsOf slots) root number e).1.props.get? slot =
      p.props.get? slot
    · rw [fillEdits] at h
      cases hfirst : p.fillEdit block (fillingsOf slots) root number e with
      | mk p₁ outcome =>
        rw [hfirst] at h hsame
        cases outcome with
        | error failure => exact absurd hsame h
        | ok node =>
          have hrest : (p₁.fillEdits block (fillingsOf slots) root (number + 1) rest).1.props.get?
              slot ≠ p₁.props.get? slot := by
            rw [hsame]
            simp only at h
            split at h <;> simp_all
          obtain ⟨done, path, index, rest', q, nodes, node', rfl, hrun, hr, huses⟩ := ih hrest
          exact ⟨e :: done, path, index, rest', q, node :: nodes, node', rfl,
            by simp [fillEdits, hfirst, hrun], hr, huses⟩
    · obtain ⟨path, index, node, rfl, hr, huses⟩ := mounts_of_get?_ne hsame
      exact ⟨[], path, index, rest, p, [], node, rfl, rfl, hr, huses⟩

/-- Edits of other slots leave a slot alone. -/
theorem get?_fillEdits {slot : String} {es : List Edit} (h : ∀ e ∈ es, e.hole ≠ slot) :
    (p.fillEdits block (fillingsOf slots) root number es).1.props.get? slot = p.props.get? slot := by
  by_contra hne
  obtain ⟨done, path, index, rest, -, -, -, rfl, -⟩ := exists_turn_of_get?_ne hne
  exact h (.child path index slot) (by simp) rfl

end Progress

namespace Instance

/-- An attempt to mount the instance nested at the end of a list of slots, or the whole one if
there are no slots. -/
structure Attempt where
  slots : List String
  target : NodeId
  stage : Stage

/-- The document issued the target. -/
structure Attempt.Fits (a : Attempt) : Prop where
  reachable : a.stage.document.Reachable
  issued : a.stage.document.issued a.target = true

/-- The instance after an attempt. -/
def attempt (i : Instance) (a : Attempt) : Instance :=
  match i.descend? a.slots with
  | none => i
  | some n => i.plug a.slots (n.mount a.target a.stage).mounted

/-- The instance after several attempts in turn. -/
def attempts (i : Instance) (as : List Attempt) : Instance :=
  as.foldl attempt i

/-- A mount of the first instance comes to a mount of the second, which is nested in it at the end
of the slots: at each level an edit has its turn, finds its node, and reads the slot alone. -/
inductive Reaches : Instance → NodeId → Stage → List String → Instance → NodeId → Stage → Prop where
  | here {i : Instance} {target : NodeId} {s : Stage} : Reaches i target s [] i target s
  | nested {i n m : Instance} {target node t : NodeId} {s s' : Stage} {number index : Nat}
      {path : Path} {hole : String} {q : Progress} {slots : List String}
      (hu : i.isMounted = false) (hturn : i.Turn target s number (.child path index hole) q)
      (hr : q.stage.document.resolve? s.document.size path = some node)
      (hv : i.prop? hole = some (.block n)) (huses : i.block.usesOf hole ≤ 1)
      (h : Reaches n node q.stage slots m t s') : Reaches i target s (hole :: slots) m t s'

/-- The attempt of this number makes a mount of the instance that is nested at the end of the
slots by then: it is on that instance, or on one that holds it. -/
def Attempted (i : Instance) (as : List Attempt) (number : Nat) (slots : List String)
    (n : Instance) (t : NodeId) (s : Stage) : Prop :=
  ∃ a m more, as[number]? = some a ∧ (i.attempts (as.take number)).descend? a.slots = some m ∧
    slots = a.slots ++ more ∧ m.Reaches a.target a.stage more n t s

section Reaches

variable {i n n' : Instance} {target t t' : NodeId} {s s' s'' : Stage} {slots : List String}
  {number number' : Nat} {e e' : Edit} {q q' : Progress}

/-- Two turns of edits of a slot that only one edit reads are one turn. -/
theorem Turn.unique (h : i.Turn target s number e q) (h' : i.Turn target s number' e' q')
    (hhole : e'.hole = e.hole) (huses : i.block.usesOf e.hole ≤ 1) : e = e' ∧ q = q' := by
  obtain ⟨done, rest, nodes, hes, -, hrun⟩ := h
  obtain ⟨done', rest', nodes', hes', -, hrun'⟩ := h'
  -- no edit of the slot is among those before another one
  have hfirst : ∀ {done rest : List Edit} {f f' : Edit}, i.block.edits = done ++ f :: rest →
      f.hole = e.hole → f'.hole = e.hole → f' ∉ done := by
    intro done rest f f' hes hf hf' hm
    have hsub : (done ++ f :: rest).Sublist i.block.edits := by
      rw [hes]
    exact Block.not_mem_of_usesOf hsub huses ⟨f', hm, hf'⟩ ⟨f, List.mem_cons_self, hf⟩
  have hdone : done = done' ∧ e = e' := by
    rcases List.append_eq_append_iff.mp (hes.symm.trans hes') with
      ⟨more, hmore, hrest⟩ | ⟨more, hmore, hrest⟩
    · cases more with
      | nil => exact ⟨by simpa using hmore.symm, (List.cons.inj hrest).1⟩
      | cons f more =>
        refine absurd ?_ (hfirst hes' hhole rfl)
        rw [hmore, (List.cons.inj hrest).1]
        simp
    · cases more with
      | nil => exact ⟨by simpa using hmore, ((List.cons.inj hrest).1).symm⟩
      | cons f more =>
        refine absurd ?_ (hfirst hes rfl hhole)
        rw [hmore, (List.cons.inj hrest).1]
        simp
  obtain ⟨rfl, rfl⟩ := hdone
  exact ⟨rfl, (Prod.mk.inj (hrun.symm.trans hrun')).1⟩

/-- A mount makes one mount of each nested instance at most. -/
theorem Reaches.unique (h : i.Reaches target s slots n t s')
    (h' : i.Reaches target s slots n' t' s'') : n' = n ∧ t' = t ∧ s'' = s' := by
  induction h with
  | here =>
    cases h' with
    | here => exact ⟨rfl, rfl, rfl⟩
  | nested hu hturn hr hv huses h ih =>
    cases h' with
    | nested hu' hturn' hr' hv' huses' h' =>
      obtain ⟨hedit, rfl⟩ := hturn.unique hturn' rfl huses
      obtain ⟨rfl, -, -⟩ := Edit.child.inj hedit
      obtain rfl := Option.some.inj (hr.symm.trans hr')
      obtain rfl := Value.block.inj (Option.some.inj (hv.symm.trans hv'))
      exact ih h'

theorem Reaches.descend? (h : i.Reaches target s slots n t s') : i.descend? slots = some n := by
  induction h with
  | here => rfl
  | nested _ _ _ hv _ _ ih => rw [descend?_cons, nested?_eq_some.mpr hv, Option.bind_some, ih]

/-- A mount is reached under a node that its document issued. -/
theorem Reaches.grounds (h : i.Reaches target s slots n t s') (hs : s.document.Closed)
    (ht : target < s.document.size) : s'.document.Closed ∧ t < s'.document.size := by
  induction h with
  | here => exact ⟨hs, ht⟩
  | nested _ hturn hr _ _ _ ih =>
    obtain ⟨-, hclosed, hroot⟩ := hturn.grounds hs ht
    exact ih hclosed (Document.lt_size_of_resolve? hclosed hroot hr)

/-- After its turn an edit that mounts a nested instance has it in its slot, whatever comes of the
edits after it. -/
theorem Turn.nested?_mount {path : Path} {index node : Nat} {hole : String}
    (h : i.Turn target s number (.child path index hole) q) (hu : i.isMounted = false)
    (ht : target < s.document.size)
    (hr : q.stage.document.resolve? s.document.size path = some node)
    (hv : i.prop? hole = some (.block n)) (huses : i.block.usesOf hole ≤ 1) :
    (i.mount target s).mounted.nested? hole = some (n.mount node q.stage).mounted := by
  obtain ⟨done, rest, nodes, hes, rfl, hrun⟩ := h
  have hlater : ∀ e ∈ rest, e.hole ≠ hole := by
    intro e he heq
    have hsub : ((done ++ [Edit.child path index hole]) ++ rest).Sublist i.block.edits := by
      rw [hes, List.append_assoc, List.singleton_append]
    exact Block.not_mem_of_usesOf hsub huses ⟨_, List.mem_append_right _ List.mem_cons_self, rfl⟩
      ⟨e, he, heq⟩
  have hget : Bindings.get? (i.filled target s).1.props hole =
      some (.block (n.mount node q.stage).mounted) := by
    have hedit := @Progress.get?_fillEdit i.block i.props s.document.size done.length node q path
      index hole n hr hv huses
    rw [filled, hes, Progress.fillEdits_append, hrun]
    simp only [Nat.zero_add, Progress.fillEdits]
    generalize q.fillEdit i.block (fillingsOf i.props) s.document.size done.length
      (.child path index hole) = r at hedit
    obtain ⟨q₁, outcome⟩ := r
    cases outcome with
    | error failure => exact hedit
    | ok node =>
      have hrest := @Progress.get?_fillEdits i.block i.props s.document.size (done.length + 1) q₁
        hole rest hlater
      rw [hedit] at hrest
      simp only
      generalize q₁.fillEdits i.block (fillingsOf i.props) s.document.size (done.length + 1) rest = r
        at hrest
      obtain ⟨q₂, outcome⟩ := r
      cases outcome <;> exact hrest
  rw [mount_of_unmounted hu ht, nested?_eq_some]
  generalize i.filled target s = r at hget
  obtain ⟨⟨stage, props⟩, outcome⟩ := r
  cases outcome <;> exact hget

/-- A mount leaves each nested instance as the mount of it that it came to did. -/
theorem Reaches.descend?_mount (h : i.Reaches target s slots n t s') (hs : s.document.Closed)
    (ht : target < s.document.size) :
    (i.mount target s).mounted.descend? slots = some (n.mount t s').mounted := by
  induction h with
  | here => rfl
  | nested hu hturn hr hv huses _ ih =>
    obtain ⟨-, hclosed, hroot⟩ := hturn.grounds hs ht
    rw [descend?_cons, hturn.nested?_mount hu ht hr hv huses, Option.bind_some]
    exact ih hclosed (Document.lt_size_of_resolve? hclosed hroot hr)

/-- A mount leaves what is in a slot as it is, or it comes to a mount of it. -/
theorem nested?_mount_cases {hole : String} (hn : i.nested? hole = some n)
    (ht : target < s.document.size) :
    (i.mount target s).mounted.nested? hole = some n ∨
      i.isMounted = false ∧ ∃ number path index q node,
        i.Turn target s number (.child path index hole) q ∧
        q.stage.document.resolve? s.document.size path = some node ∧ i.block.usesOf hole ≤ 1 := by
  cases hu : i.isMounted with
  | true => exact .inl (by rw [mount_of_mounted hu, hn])
  | false =>
    by_cases hsame : Bindings.get? (i.filled target s).1.props hole = Bindings.get? i.props hole
    · left
      rw [mount_of_unmounted hu ht]
      rw [nested?_eq_some] at hn ⊢
      generalize i.filled target s = r at hsame
      obtain ⟨⟨stage, props⟩, outcome⟩ := r
      cases outcome <;> exact hsame.trans hn
    · obtain ⟨done, path, index, rest, q, nodes, node, hes, hrun, hr, huses⟩ :=
        Progress.exists_turn_of_get?_ne hsame
      exact .inr ⟨rfl, done.length, path, index, q, node, ⟨done, rest, nodes, hes, rfl, hrun⟩, hr,
        huses⟩

/-- A nested instance that a mount leaves mounted, and was not, was mounted when the mount came
to it. -/
theorem exists_reaches_of_mounted (hs : s.document.Closed) (ht : target < s.document.size)
    (hn : i.descend? slots = some n) (hu : n.isMounted = false)
    (hn' : (i.mount target s).mounted.descend? slots = some n') (hm : n'.isMounted = true) :
    ∃ t s', i.Reaches target s slots n t s' ∧ ∃ root, (n.mount t s').outcome = .ok root := by
  induction slots generalizing i target s with
  | nil =>
    obtain rfl := Option.some.inj hn
    obtain rfl := Option.some.inj hn'
    refine ⟨target, s, .here, ?_⟩
    cases houtcome : (i.mount target s).outcome with
    | ok root => exact ⟨root, rfl⟩
    | error failure => simp [isMounted_of_failed hu houtcome] at hm
  | cons hole rest ih =>
    rw [descend?_cons] at hn hn'
    obtain ⟨k, hk, hrest⟩ := Option.bind_eq_some_iff.mp hn
    rcases nested?_mount_cases hk ht with hsame | ⟨hui, number, path, index, q, node, hturn, hr, huses⟩
    · rw [hsame, Option.bind_some, hrest] at hn'
      rw [Option.some.inj hn', hm] at hu
      cases hu
    · have hv := nested?_eq_some.mp hk
      rw [hturn.nested?_mount hui ht hr hv huses, Option.bind_some] at hn'
      obtain ⟨-, hclosed, hroot⟩ := hturn.grounds hs ht
      obtain ⟨t, s', hreaches, hok⟩ :=
        ih hclosed (Document.lt_size_of_resolve? hclosed hroot hr) hrest hn'
      exact ⟨t, s', .nested hui hturn hr hv huses hreaches, hok⟩

end Reaches

section Attempted

variable {source : Block → Fragment} {i n n' : Instance} {as : List Attempt}
  {number number' : Nat} {slots : List String} {t t' : NodeId} {s s' : Stage}

theorem attempts_append (i : Instance) (as bs : List Attempt) :
    i.attempts (as ++ bs) = (i.attempts as).attempts bs :=
  List.foldl_append

theorem ages_attempt (i : Instance) {a : Attempt} (ha : a.Fits) : i.Ages (i.attempt a) := by
  unfold attempt
  split
  · exact .refl
  · rename_i n hn
    exact .plug hn (.mount .refl ha.reachable.closed (Document.issued_iff.mp ha.issued))

theorem ages_attempts {as : List Attempt} (h : ∀ a ∈ as, a.Fits) (i : Instance) :
    i.Ages (i.attempts as) := by
  induction as generalizing i with
  | nil => exact .refl
  | cons a rest ih =>
    rw [List.forall_mem_cons] at h
    exact (ages_attempt i h.1).trans (ih h.2 (i.attempt a))

theorem Attempted.descend? (h : i.Attempted as number slots n t s) :
    (i.attempts (as.take number)).descend? slots = some n := by
  obtain ⟨a, m, more, -, hm, rfl, hreaches⟩ := h
  rw [descend?_append, hm, Option.bind_some, hreaches.descend?]

theorem Attempted.grounds (h : i.Attempted as number slots n t s) (has : ∀ a ∈ as, a.Fits) :
    s.document.Closed ∧ t < s.document.size := by
  obtain ⟨a, m, more, ha, -, -, hreaches⟩ := h
  have hfits := has a (List.mem_of_getElem? ha)
  exact hreaches.grounds hfits.reachable.closed (Document.issued_iff.mp hfits.issued)

theorem attempts_take_succ {a : Attempt} (ha : as[number]? = some a) (i : Instance) :
    i.attempts (as.take (number + 1)) = (i.attempts (as.take number)).attempt a := by
  rw [List.take_add_one, ha, attempts_append]
  rfl

/-- The attempt leaves the instance as the mount does. -/
theorem Attempted.descend?_next (h : i.Attempted as number slots n t s) (has : ∀ a ∈ as, a.Fits) :
    (i.attempts (as.take (number + 1))).descend? slots = some (n.mount t s).mounted := by
  obtain ⟨a, m, more, ha, hm, rfl, hreaches⟩ := h
  have hfits := has a (List.mem_of_getElem? ha)
  simp only [attempts_take_succ ha, attempt, hm]
  rw [descend?_plug hm]
  exact hreaches.descend?_mount hfits.reachable.closed (Document.issued_iff.mp hfits.issued)

/-- An attempt that makes a mounted instance of one that was not has come to a mount of it. -/
theorem exists_attempted_of_mounted (has : ∀ a ∈ as, a.Fits) (hlt : number < as.length)
    (hn : (i.attempts (as.take number)).descend? slots = some n) (hu : n.isMounted = false)
    (hn' : (i.attempts (as.take (number + 1))).descend? slots = some n')
    (hm : n'.isMounted = true) :
    ∃ t s root, i.Attempted as number slots n t s ∧ (n.mount t s).outcome = .ok root := by
  have ha := List.getElem?_eq_getElem hlt
  generalize as[number] = a at ha
  have hfits := has a (List.mem_of_getElem? ha)
  rw [attempts_take_succ ha, attempt] at hn'
  split at hn'
  · rw [Option.some.inj (hn.symm.trans hn'), hm] at hu
    cases hu
  · rename_i m hdescend
    by_cases hprefix : a.slots <+: slots
    · obtain ⟨more, rfl⟩ := hprefix
      rw [descend?_plug hdescend] at hn'
      rw [descend?_append, hdescend, Option.bind_some] at hn
      obtain ⟨t, s, hreaches, root, hok⟩ := exists_reaches_of_mounted hfits.reachable.closed
        (Document.issued_iff.mp hfits.issued) hn hu hn' hm
      exact ⟨t, s, root, ⟨a, m, more, ha, hdescend, rfl, hreaches⟩, hok⟩
    · -- the attempt was on an instance elsewhere
      obtain ⟨k, hk, hkm⟩ := exists_descend?_plug hn hprefix
      rw [Option.some.inj (hn'.symm.trans hk), hkm, hu] at hm
      cases hm

/-- Between two attempts the instance ages. -/
theorem ages_between (has : ∀ a ∈ as, a.Fits) (i : Instance) (hle : number ≤ number') :
    (i.attempts (as.take number)).Ages (i.attempts (as.take number')) := by
  have hsplit : as.take number' = as.take number ++ (as.take number').drop number := by
    have htake : (as.take number').take number = as.take number := by
      rw [List.take_take, Nat.min_eq_left hle]
    rw [← htake, List.take_append_drop]
  rw [hsplit, attempts_append]
  exact ages_attempts (fun a ha => has a (List.mem_of_mem_take (List.mem_of_mem_drop ha))) _

/-- Later the nested instance is what attempts have made of the earlier one. -/
theorem ages_of_descend? (has : ∀ a ∈ as, a.Fits) (hle : number ≤ number')
    (h : (i.attempts (as.take number)).descend? slots = some n)
    (h' : (i.attempts (as.take number')).descend? slots = some n') : n.Ages n' := by
  obtain ⟨m, hm, hages⟩ := (ages_between has i hle).exists_later h
  rwa [Option.some.inj (h'.symm.trans hm)]

theorem Attempted.madeFrom (h : i.Attempted as number slots n t s)
    (hi : i.Everywhere fun j => j.block.IsOf (source j.block)) (has : ∀ a ∈ as, a.Fits) :
    n.MadeFrom source := by
  obtain ⟨m, hm, hages⟩ := (ages_between has i (Nat.zero_le number)).exists_earlier h.descend?
  exact hages.madeFrom (hi.descend? hm).throughout

/-- What a mount attempt means for a later one on the same instance. After an error it is refused
too, and leaves the instance unmounted if it was; after a success the instance keeps its root, and
the later attempt changes nothing. -/
def Decides (n : Instance) (t : NodeId) (s : Stage) (n' : Instance) (t' : NodeId) (s' : Stage) :
    Prop :=
  match (n.mount t s).outcome with
  | .error _ => (∃ error, (n'.mount t' s').outcome = .error (.refused error)) ∧
      (n'.mount t' s').mounted.isMounted = n.isMounted
  | .ok root => n'.root = some root ∧
      n'.mount t' s' = ⟨s', n', .error (.refused .alreadyMounted)⟩

/-- Two mounts of a nested instance that one attempt makes are one mount. -/
theorem Attempted.unique (h : i.Attempted as number slots n t s)
    (h' : i.Attempted as number slots n' t' s') : n' = n ∧ t' = t ∧ s' = s := by
  obtain ⟨a, m, more, ha, hm, rfl, hreaches⟩ := h
  obtain ⟨a', m', more', ha', hm', hslots, hreaches'⟩ := h'
  obtain rfl := Option.some.inj (ha.symm.trans ha')
  obtain rfl := Option.some.inj (hm.symm.trans hm')
  obtain rfl := List.append_cancel_left hslots
  exact hreaches.unique hreaches'

theorem Attempted.decides (hi : i.Everywhere fun j => j.block.IsOf (source j.block))
    (has : ∀ a ∈ as, a.Fits) (h : i.Attempted as number slots n t s)
    (h' : i.Attempted as number' slots n' t' s') (hlt : number < number') :
    n.Decides t s n' t' s' := by
  have hmade := h.madeFrom hi has
  obtain ⟨hs, ht⟩ := h.grounds has
  obtain ⟨hs', ht'⟩ := h'.grounds has
  have hages : n.Ages n' := ages_of_descend? has hlt.le h.descend? h'.descend?
  unfold Decides
  split
  · rename_i failure herror
    have hfault := mountFault_of_error hmade hs ht herror
    obtain ⟨error, herror'⟩ := mount_refused (hages.madeFrom hmade) hs' ht' fun hnone =>
      hfault (mountFault_of_remains hmade hages.remains hnone)
    refine ⟨⟨error, herror'⟩, ?_⟩
    cases hu : n.isMounted with
    | false => exact isMounted_of_failed (hages.isMounted hmade hu hfault) herror'
    | true =>
      have hu' := hages.remains.here.isMounted hu
      rw [mount_of_mounted hu', hu']
  · rename_i root hok
    have hroot := root_of_ok hok
    have hlater : (n.mount t s).mounted.Ages n' :=
      ages_of_descend? has hlt (h.descend?_next has) h'.descend?
    have hroot' : n'.root = some root :=
      (hlater.remains.here.root (isMounted_of_root hroot)).trans hroot
    exact ⟨hroot', mount_of_mounted (isMounted_of_root hroot') t' s'⟩

/-- An attempt that succeeds is the first. -/
theorem Attempted.first (hi : i.Everywhere fun j => j.block.IsOf (source j.block))
    (has : ∀ a ∈ as, a.Fits) (h : i.Attempted as number slots n t s) {root : NodeId}
    (hok : (n.mount t s).outcome = .ok root) (hlt : number' < number) :
    ¬i.Attempted as number' slots n' t' s' := by
  intro h'
  have hdecides := h'.decides hi has h hlt
  unfold Decides at hdecides
  split at hdecides
  · obtain ⟨⟨error, herror⟩, -⟩ := hdecides
    simp [hok] at herror
  · rw [hdecides.2] at hok
    cases hok

/-- A nested instance that is mounted after attempts, and was not before them, was mounted by one
of them. -/
theorem exists_attempted (has : ∀ a ∈ as, a.Fits) (hn : i.descend? slots = some n)
    (hu : n.isMounted = false) (hle : number ≤ as.length)
    (hn' : (i.attempts (as.take number)).descend? slots = some n') (hm : n'.isMounted = true) :
    ∃ number m t s root, i.Attempted as number slots m t s ∧ (m.mount t s).outcome = .ok root ∧
      n'.root = some root := by
  induction number generalizing n' with
  | zero =>
    rw [Option.some.inj (hn.symm.trans hn'), hm] at hu
    cases hu
  | succ k ih =>
    obtain ⟨m, hdescend, -⟩ := (ages_between has i (Nat.zero_le k)).exists_later hn
    cases hmounted : m.isMounted with
    | true =>
      -- it was mounted before, and keeps its root
      obtain ⟨number, l, t, s, root, h, hok, hroot⟩ := ih (Nat.le_of_succ_le hle) hdescend hmounted
      have hages := ages_of_descend? has (Nat.le_succ k) hdescend hn'
      exact ⟨number, l, t, s, root, h, hok, (hages.remains.here.root hmounted).trans hroot⟩
    | false =>
      obtain ⟨t, s, root, h, hok⟩ := exists_attempted_of_mounted has hle hdescend hmounted hn' hm
      have hroot := root_of_ok hok
      rw [Option.some.inj ((h.descend?_next has).symm.trans hn')] at hroot
      exact ⟨k, m, t, s, root, h, hok, hroot⟩

/-- **An instance is mounted by its first mount attempt or never**, and so is every instance that
is nested in it, whether it is attempted on its own or as a part. One attempt makes one mount of it
at most; the first decides every later one; and if it has come to be mounted, the first attempt on
it has mounted it. -/
theorem first_attempt_decides (hi : i.Everywhere fun j => j.block.IsOf (source j.block))
    (has : ∀ a ∈ as, a.Fits) :
    (∀ {number number' slots n n' t t' s s'}, i.Attempted as number slots n t s →
      i.Attempted as number' slots n' t' s' →
      (number = number' → n' = n ∧ t' = t ∧ s' = s) ∧
        (number < number' → n.Decides t s n' t' s')) ∧
    ∀ {slots n n'}, i.descend? slots = some n → (i.attempts as).descend? slots = some n' →
      n.isMounted = false → n'.isMounted = true →
      ∃ number m t s root, i.Attempted as number slots m t s ∧
        (m.mount t s).outcome = .ok root ∧ n'.root = some root ∧
        ∀ {number' k t' s'}, number' < number → ¬i.Attempted as number' slots k t' s' := by
  refine ⟨fun h h' => ⟨fun heq => ?_, h.decides hi has h'⟩, fun hn hn' hu hm => ?_⟩
  · subst heq
    exact h.unique h'
  · rw [← @List.take_length _ as] at hn'
    obtain ⟨number, m, t, s, root, h, hok, hroot⟩ := exists_attempted has hn hu le_rfl hn' hm
    exact ⟨number, m, t, s, root, h, hok, hroot, h.first hi has hok⟩

/-- Two attempts on a banner, whose line has no node, and one on its badge. -/
def bannerAttempts : List Attempt :=
  [⟨[], 0, .of .blank⟩, ⟨[], 0, .of .blank⟩, ⟨["badge"], 0, .of .blank⟩]

theorem bannerAttempts_fit : ∀ a ∈ bannerAttempts, a.Fits := by
  intro a ha
  simp only [bannerAttempts, List.mem_cons, List.not_mem_nil, or_false] at ha
  rcases ha with rfl | rfl | rfl <;> exact ⟨.refl, rfl⟩

theorem banner_compiled : (Sample.leadOf banner (.str "x")).Everywhere fun j =>
    j.block.IsOf (Sample.leadSource banner j.block) := by
  refine .intro ⟨{}, rfl⟩ fun slot n hn => ?_
  obtain ⟨-, rfl⟩ : slot = "badge" ∧ n = Sample.badgeOf .null (.str "new") := by
    simpa [Sample.leadOf, Instance.new] using hn
  exact .intro ⟨{}, rfl⟩ fun slot m hm => by simp [Sample.badgeOf, Instance.new] at hm

/-- A banner cannot be mounted. Its badge was mounted by the first attempt on it. -/
theorem first_attempt_decides_banner :
    let i := Sample.leadOf banner (.str "x")
    let j := i.attempts (bannerAttempts.take 1)
    let k := i.attempts (bannerAttempts.take 2)
    (i.mount 0 (.of .blank)).outcome = .error (.refused (.pathUnresolved 1 [1])) ∧
      (∃ error, (j.mount 0 (.of .blank)).outcome = .error (.refused error)) ∧
      ∃ n, k.descend? ["badge"] = some n ∧ n.root = some 3 ∧
        n.mount 0 (.of .blank) = ⟨.of .blank, n, .error (.refused .alreadyMounted)⟩ := by
  intro i j k
  obtain ⟨hdecides, -⟩ := @first_attempt_decides (Sample.leadSource banner) i bannerAttempts
    banner_compiled bannerAttempts_fit
  have hfirst : i.Attempted bannerAttempts 0 [] i 0 (.of .blank) := ⟨_, _, [], rfl, rfl, rfl, .here⟩
  have hsecond : i.Attempted bannerAttempts 1 [] j 0 (.of .blank) :=
    ⟨_, _, [], rfl, rfl, rfl, .here⟩
  have hturn : i.Turn 0 (.of .blank) 0 (.child [] 0 "badge") ⟨i.staged 0 (.of .blank), i.props⟩ :=
    ⟨[], [.child [1] 0 "lead"], [], rfl, rfl, rfl⟩
  have hbadge : i.Attempted bannerAttempts 0 ["badge"] (Sample.badgeOf .null (.str "new")) 1
      (i.staged 0 (.of .blank)) :=
    ⟨_, _, ["badge"], rfl, rfl, rfl, .nested rfl hturn rfl rfl (by decide) .here⟩
  obtain ⟨n, hn⟩ : ∃ n, k.descend? ["badge"] = some n := ⟨_, rfl⟩
  have hagain : i.Attempted bannerAttempts 2 ["badge"] n 0 (.of .blank) :=
    ⟨_, _, [], rfl, hn, rfl, .here⟩
  refine ⟨rfl, ?_, n, hn, ?_⟩
  · have h := (hdecides hfirst hsecond).2 (by decide)
    exact h.1
  · have h := (hdecides hbadge hagain).2 (by decide)
    exact h

end Attempted

end Instance

end Stencil
