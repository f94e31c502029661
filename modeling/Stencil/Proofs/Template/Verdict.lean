import Stencil.Proofs.Template.Splitting
import Mathlib.Data.List.Nodup
/- What compiling a template comes to. It is refused for one fault (`Repeats`, `RefusedFor`) or
   it is well made (`WellMade`), and these exclude each other; so the outcome is known from the
   slots, the options and the holes of the template's fragment in reading order, without a look
   at skeletons or edits. Each fault is shown to give its refusal, a well made fragment its
   block, and `refused_or_wellMade` that nothing else can be; the rest follows, since a
   compilation has one result. -/
namespace Stencil

/-- The element is the first of the list with the property. -/
def FirstOf {α : Type} (p : α → Prop) (l : List α) (a : α) : Prop :=
  ∃ before after, l = before ++ a :: after ∧ p a ∧ ∀ b ∈ before, ¬p b

/-- The slot is the first that equals one before it. -/
def Repeats (slots : List String) (slot : String) : Prop :=
  ∃ before after, slots = before ++ slot :: after ∧ slot ∈ before ∧ before.Nodup

namespace FirstOf

variable {α : Type} {p : α → Prop} [DecidablePred p] {l : List α} {a : α}

theorem find?_eq : l.find? (fun x => decide (p x)) = some a ↔ FirstOf p l a := by
  rw [List.find?_eq_some_iff_append]
  constructor
  · intro ⟨ha, before, after, hl, hbefore⟩
    exact ⟨before, after, hl, of_decide_eq_true ha, fun b hb => by simpa using hbefore b hb⟩
  · intro ⟨before, after, hl, ha, hbefore⟩
    exact ⟨decide_eq_true ha, before, after, hl, fun b hb => by simpa using hbefore b hb⟩

theorem find?_eq_none : l.find? (fun x => decide (p x)) = none ↔ ∀ b ∈ l, ¬p b := by
  simp [List.find?_eq_none]

theorem filter_eq (h : FirstOf p l a) :
    ∃ rest, l.filter (fun x => decide (p x)) = a :: rest := by
  obtain ⟨before, after, rfl, ha, hbefore⟩ := h
  have hnone : before.filter (fun x => decide (p x)) = [] := by
    simpa [List.filter_eq_nil_iff] using hbefore
  exact ⟨after.filter fun x => decide (p x), by simp [hnone, ha]⟩

/-- A list without a first element of a kind has none of this kind. -/
theorem exists_or_forall (p : α → Prop) [DecidablePred p] (l : List α) :
    (∃ a, FirstOf p l a) ∨ ∀ b ∈ l, ¬p b := by
  cases h : l.find? fun x => decide (p x) with
  | none => exact .inr (find?_eq_none.mp h)
  | some a => exact .inl ⟨a, find?_eq.mp h⟩

end FirstOf

/-- A search that has passed some slots stops at the first that equals one of these or one
after them. -/
theorem duplicateSlot?_eq_some {passed slots : List String} {slot : String} :
    duplicateSlot? passed slots = some slot ↔
    ∃ before after, slots = before ++ slot :: after ∧ (slot ∈ passed ∨ slot ∈ before) ∧
      before.Nodup ∧ ∀ s ∈ before, s ∉ passed := by
  induction slots generalizing passed with
  | nil => simp [duplicateSlot?]
  | cons s rest ih =>
    by_cases hs : s ∈ passed
    · have hstop : duplicateSlot? passed (s :: rest) = some s := by simp [duplicateSlot?, hs]
      rw [hstop]
      constructor
      · intro h
        obtain rfl := Option.some.inj h
        exact ⟨[], rest, rfl, .inl hs, List.nodup_nil, by simp⟩
      · intro ⟨before, after, heq, _, _, hnew⟩
        cases before with
        | nil => rw [(List.cons.inj heq).1]
        | cons t before => exact absurd ((List.cons.inj heq).1 ▸ hs) (hnew t (by simp))
    · have hnext : duplicateSlot? passed (s :: rest) = duplicateSlot? (s :: passed) rest := by
        simp [duplicateSlot?, hs]
      rw [hnext, ih]
      constructor
      · intro ⟨before, after, heq, hslot, hnodup, hnew⟩
        refine ⟨s :: before, after, congrArg (s :: ·) heq, ?_, ?_, ?_⟩
        · simpa [or_assoc, or_comm, or_left_comm] using hslot
        · exact List.nodup_cons.mpr ⟨fun hmem => hnew s hmem (by simp), hnodup⟩
        · intro t ht
          cases List.mem_cons.mp ht with
          | inl hts => exact hts ▸ hs
          | inr ht => exact fun hp => hnew t ht (List.mem_cons_of_mem s hp)
      · intro ⟨before, after, heq, hslot, hnodup, hnew⟩
        cases before with
        | nil =>
          have hslot : slot ∈ passed := by simpa using hslot
          exact absurd ((List.cons.inj heq).1 ▸ hslot) hs
        | cons t before =>
          obtain ⟨rfl, htail⟩ := List.cons.inj heq
          obtain ⟨hfresh, hnodup⟩ := List.nodup_cons.mp hnodup
          refine ⟨before, after, htail, ?_, hnodup, ?_⟩
          · simpa [or_assoc, or_comm, or_left_comm] using hslot
          · intro u hu hmem
            cases List.mem_cons.mp hmem with
            | inl hus => exact hfresh (hus ▸ hu)
            | inr hp => exact hnew u (List.mem_cons_of_mem s hu) hp

theorem duplicateSlot?_eq_none {passed slots : List String} :
    duplicateSlot? passed slots = none ↔ slots.Nodup ∧ ∀ slot ∈ slots, slot ∉ passed := by
  induction slots generalizing passed with
  | nil => simp [duplicateSlot?]
  | cons s rest ih =>
    by_cases hs : s ∈ passed
    · simp [duplicateSlot?, hs]
    · simp only [duplicateSlot?, List.contains_eq_mem, hs, decide_false, Bool.false_eq_true,
        if_false, ih, List.nodup_cons, List.mem_cons]
      grind

theorem duplicateSlot?_iff {slots : List String} {slot : String} :
    duplicateSlot? [] slots = some slot ↔ Repeats slots slot := by
  simp [duplicateSlot?_eq_some, Repeats]

theorem Repeats.not_nodup {slots : List String} {slot : String} (h : Repeats slots slot) :
    ¬slots.Nodup := by
  obtain ⟨before, after, rfl, hmem, -⟩ := h
  intro hnodup
  exact (List.nodup_append.mp hnodup).2.2 slot hmem slot (by simp) rfl

namespace Edit

theorem usesOf_eq (edits : List Edit) (hole : String) :
    usesOf edits hole = (edits.map Edit.hole).count hole := by
  simp [usesOf, List.count, List.countP_map, Function.comp_def]

theorem duplicateHole?_eq (edits : List Edit) :
    let holes := edits.map Edit.hole
    duplicateHole? edits =
      (holes.find? fun hole => decide (1 < holes.count hole)).map fun hole =>
        (hole, holes.count hole) := by
  simp [duplicateHole?, List.find?_map, Function.comp_def, usesOf_eq]

theorem undeclaredHole?_eq (slots : List String) (edits : List Edit) :
    undeclaredHole? slots edits = (edits.map Edit.hole).find? fun hole => decide (hole ∉ slots) := by
  rw [undeclaredHole?, List.find?_map]
  congr 2
  funext e
  simp

theorem unusedSlots_eq (slots : List String) (edits : List Edit) :
    unusedSlots slots edits = slots.filter fun slot => decide (slot ∉ edits.map Edit.hole) := by
  apply List.filter_congr
  intro slot _
  simp [usesOf_eq, List.count_eq_zero, beq_eq_decide]

end Edit

namespace Fragment

variable {f : Fragment} {slots : List String} {options : TemplateOptions}

/-- The fragment can be a block's: it is no hole, its holes are slots, and it has not what the
options refuse. -/
structure WellMade (f : Fragment) (slots : List String) (options : TemplateOptions) : Prop where
  rooted : f.hole? = none
  once : options.rejectDuplicateHoles = true → f.holes.Nodup
  declared : f.holes ⊆ slots
  used : options.rejectUnusedSlots = true → slots ⊆ f.holes

/-- What the fragment is refused for: of several faults, the first in this order, and of
several holes or slots with this fault the first in theirs. -/
inductive RefusedFor (f : Fragment) (slots : List String) (options : TemplateOptions) :
    TemplateError → Prop where
  | root {name : String} : f = .hole name → RefusedFor f slots options (.rootHole name)
  | duplicate {name : String} : f.hole? = none → options.rejectDuplicateHoles = true →
      FirstOf (fun hole => 1 < f.holes.count hole) f.holes name →
      RefusedFor f slots options (.duplicateHole name (f.holes.count name))
  | undeclared {name : String} : f.hole? = none →
      (options.rejectDuplicateHoles = true → f.holes.Nodup) →
      FirstOf (fun hole => hole ∉ slots) f.holes name →
      RefusedFor f slots options (.undeclaredHole name)
  | unused {name : String} : f.hole? = none →
      (options.rejectDuplicateHoles = true → f.holes.Nodup) → f.holes ⊆ slots →
      options.rejectUnusedSlots = true → FirstOf (fun slot => slot ∉ f.holes) slots name →
      RefusedFor f slots options (.unusedSlot name)

/-- A fragment is refused for something or it is well made. -/
theorem refused_or_wellMade (f : Fragment) (slots : List String) (options : TemplateOptions) :
    (∃ e, f.RefusedFor slots options e) ∨ f.WellMade slots options := by
  by_cases hroot : ∃ name, f = .hole name
  · obtain ⟨name, hroot⟩ := hroot
    exact .inl ⟨_, .root hroot⟩
  have hrooted : f.hole? = none := by
    cases f with
    | hole name => exact absurd ⟨name, rfl⟩ hroot
    | text value => rfl
    | element tag props children => rfl
  by_cases honce : options.rejectDuplicateHoles = true → f.holes.Nodup
  · rcases FirstOf.exists_or_forall (· ∉ slots) f.holes with ⟨name, hname⟩ | hdeclared
    · exact .inl ⟨_, .undeclared hrooted honce hname⟩
    have hdeclared : f.holes ⊆ slots := fun hole h => not_not.mp (hdeclared hole h)
    by_cases hused : options.rejectUnusedSlots = true → slots ⊆ f.holes
    · exact .inr ⟨hrooted, honce, hdeclared, hused⟩
    obtain ⟨hreject, hunused⟩ := Classical.not_imp.mp hused
    rcases FirstOf.exists_or_forall (· ∉ f.holes) slots with ⟨name, hname⟩ | hall
    · exact .inl ⟨_, .unused hrooted honce hdeclared hreject hname⟩
    · exact absurd (fun slot h => not_not.mp (hall slot h)) hunused
  · obtain ⟨hreject, hdup⟩ := Classical.not_imp.mp honce
    rcases FirstOf.exists_or_forall (1 < f.holes.count ·) f.holes with ⟨name, hname⟩ | hall
    · exact .inl ⟨_, .duplicate hrooted hreject hname⟩
    · refine absurd (List.nodup_iff_count_le_one.mpr fun name => ?_) hdup
      by_cases hname : name ∈ f.holes
      · exact Nat.le_of_not_lt (hall name hname)
      · exact (List.count_eq_zero.mpr hname).symm ▸ Nat.zero_le 1

/-- A fragment that is no hole splits into parts whose edits have its holes. -/
theorem exists_split (h : f.hole? = none) :
    ∃ parts, f.split = .ok parts ∧ parts.edits.map Edit.hole = f.holes := by
  cases f with
  | hole name => cases h
  | text value => exact ⟨_, rfl, rfl⟩
  | element tag props children => exact ⟨_, rfl, map_hole_edits .root rfl⟩

/-- The search for a hole bound twice finds none if these are not refused. -/
theorem duplicate_none {edits : List Edit} (hedits : edits.map Edit.hole = f.holes)
    (h : options.rejectDuplicateHoles = true → f.holes.Nodup) :
    (if options.rejectDuplicateHoles then Edit.duplicateHole? edits else none) = none := by
  split
  · rename_i hreject
    have hcount := List.nodup_iff_count_le_one.mp (h hreject)
    rw [Edit.duplicateHole?_eq, hedits, Option.map_eq_none_iff, FirstOf.find?_eq_none]
    exact fun hole _ => Nat.not_lt.mpr (hcount hole)
  · rfl

theorem undeclared_none {edits : List Edit} (hedits : edits.map Edit.hole = f.holes)
    (h : f.holes ⊆ slots) : Edit.undeclaredHole? slots edits = none := by
  rw [Edit.undeclaredHole?_eq, hedits, FirstOf.find?_eq_none]
  exact fun hole hmem => not_not.mpr (h hmem)

theorem toBlock_of_refused {e : TemplateError} (h : f.RefusedFor slots options e) (serial : Nat) :
    (f.toBlock serial slots options).result = .error e := by
  cases h with
  | root h =>
    subst h
    rfl
  | @duplicate name hrooted hreject hfirst =>
    obtain ⟨parts, hsplit, hedits⟩ := exists_split hrooted
    have hfound : Edit.duplicateHole? parts.edits = some (name, f.holes.count name) := by
      rw [Edit.duplicateHole?_eq, hedits, FirstOf.find?_eq.mpr hfirst]
      rfl
    simp [toBlock, compile, hsplit, hreject, hfound, Report.andThen]
  | undeclared hrooted honce hfirst =>
    obtain ⟨parts, hsplit, hedits⟩ := exists_split hrooted
    have hfound := Edit.undeclaredHole?_eq slots parts.edits
    rw [hedits, FirstOf.find?_eq.mpr hfirst] at hfound
    simp [toBlock, compile, hsplit, duplicate_none hedits honce, hfound, Report.andThen,
      Parts.toBlock]
  | unused hrooted honce hdeclared hreject hfirst =>
    obtain ⟨parts, hsplit, hedits⟩ := exists_split hrooted
    have hnone := undeclared_none hedits hdeclared
    obtain ⟨rest, hunused⟩ := hfirst.filter_eq
    have hunused := (Edit.unusedSlots_eq slots parts.edits).trans (hedits ▸ hunused)
    simp [toBlock, compile, hsplit, duplicate_none hedits honce, hnone, hunused, hreject,
      Report.andThen, Parts.toBlock]

/-- What comes of a well made fragment. -/
theorem toBlock_of_wellMade (h : f.WellMade slots options) (serial : Nat) :
    ∃ parts : Parts, f.split = .ok parts ∧ parts.edits.map Edit.hole = f.holes ∧
      f.toBlock serial slots options =
        ⟨.fragmentCompiled parts.skeleton.nodeCount parts.edits.length ::
            ((slots.filter (· ∉ f.holes)).map .slotUnused ++
              [.blockCompiled slots.length parts.edits.length]),
          .ok ⟨serial, slots, parts.skeleton, parts.edits⟩⟩ := by
  obtain ⟨parts, hsplit, hedits⟩ := exists_split h.rooted
  have hnone := undeclared_none hedits h.declared
  have hunused := Edit.unusedSlots_eq slots parts.edits
  rw [hedits] at hunused
  refine ⟨parts, hsplit, hedits, ?_⟩
  cases hreject : options.rejectUnusedSlots with
  | false =>
    simp [toBlock, compile, hsplit, duplicate_none hedits h.once, hnone, hunused, hreject,
      Report.andThen, Parts.toBlock]
  | true =>
    have hnil : slots.filter (fun slot => decide (slot ∉ f.holes)) = [] := by
      simpa [List.filter_eq_nil_iff] using fun slot hslot => h.used hreject hslot
    rw [hnil] at hunused ⊢
    simp [toBlock, compile, hsplit, duplicate_none hedits h.once, hnone, hunused, hreject,
      Report.andThen, Parts.toBlock]

/-- A fragment is refused for what its faults say, and for nothing else. -/
theorem toBlock_eq_error {e : TemplateError} (serial : Nat) :
    (f.toBlock serial slots options).result = .error e ↔ f.RefusedFor slots options e := by
  constructor
  · intro h
    rcases refused_or_wellMade f slots options with ⟨e', hrefused⟩ | hmade
    · have heq := h.symm.trans (toBlock_of_refused hrefused serial)
      exact Except.error.inj heq ▸ hrefused
    · obtain ⟨parts, -, -, hblock⟩ := toBlock_of_wellMade hmade serial
      rw [hblock] at h
      cases h
  · exact fun h => toBlock_of_refused h serial

theorem exists_block_iff (serial : Nat) :
    (∃ b, (f.toBlock serial slots options).result = .ok b) ↔ f.WellMade slots options := by
  constructor
  · intro ⟨b, h⟩
    rcases refused_or_wellMade f slots options with ⟨e, hrefused⟩ | hmade
    · rw [toBlock_of_refused hrefused serial] at h
      cases h
    · exact hmade
  · intro h
    obtain ⟨parts, -, -, hblock⟩ := toBlock_of_wellMade h serial
    exact ⟨_, congrArg Report.result hblock⟩

end Fragment

namespace Template

variable {f : List String → Fragment} {slots : List String}

theorem compile_of_repeats {slot : String} (h : Repeats slots slot) (serial : Nat)
    (options : TemplateOptions) (runs : Nat) :
    ((counted f).compile serial slots options).run runs =
      (⟨[], .error (.duplicateSlot slot)⟩, runs) := by
  simp only [compile, capture, duplicateSlot?_iff.mpr h]
  rfl

theorem compile_of_nodup (h : slots.Nodup) (serial : Nat) (options : TemplateOptions)
    (runs : Nat) :
    ((counted f).compile serial slots options).run runs =
      ((f slots).toBlock serial slots options, runs + 1) := by
  have hnone : duplicateSlot? [] slots = none := duplicateSlot?_eq_none.mpr ⟨h, by simp⟩
  simp only [compile, capture, hnone]
  rfl

/-- **The outcome of a compilation.** A template does not run if a slot repeats, and this slot
is reported; else it runs once. Then it is refused for the first of its fragment's faults, and
if the fragment is well made it becomes a block: with the slots as they are declared, with as
many uses of each string as the fragment has holes of this name, and with a warning for each
slot that is no hole, in the order of the slots. -/
theorem compile_outcome (f : List String → Fragment) (serial : Nat) (slots : List String)
    (options : TemplateOptions) (runs : Nat) :
    let out := ((counted f).compile serial slots options).run runs
    let holes := (f slots).holes
    out.2 = runs + (if slots.Nodup then 1 else 0) ∧
    (∀ e, out.1.result = .error e ↔
      (∃ slot, Repeats slots slot ∧ e = .duplicateSlot slot) ∨
        slots.Nodup ∧ (f slots).RefusedFor slots options e) ∧
    ((∃ b, out.1.result = .ok b) ↔ slots.Nodup ∧ (f slots).WellMade slots options) ∧
    ∀ b, out.1.result = .ok b →
      b.slots = slots ∧ (∀ s, b.usesOf s = holes.count s) ∧
      out.1.events.filter (fun e => e.level == .warn) =
        (slots.filter (· ∉ holes)).map .slotUnused := by
  cases hdup : duplicateSlot? [] slots with
  | some slot =>
    have hrepeats : Repeats slots slot := duplicateSlot?_iff.mp hdup
    have hnodup : ¬slots.Nodup := hrepeats.not_nodup
    rw [compile_of_repeats hrepeats serial options runs]
    refine ⟨by simp [hnodup], fun e => ?_, by simp [hnodup], fun b h => by cases h⟩
    constructor
    · intro h
      exact .inl ⟨slot, hrepeats, (Except.error.inj h).symm⟩
    · intro h
      rcases h with ⟨slot', hrepeats', rfl⟩ | ⟨h, -⟩
      · rw [Option.some.inj (hdup.symm.trans (duplicateSlot?_iff.mpr hrepeats'))]
      · exact absurd h hnodup
  | none =>
    have hnodup : slots.Nodup := (duplicateSlot?_eq_none.mp hdup).1
    rw [compile_of_nodup hnodup serial options runs]
    refine ⟨by simp [hnodup], fun e => ?_, ?_, fun b h => ?_⟩
    · rw [Fragment.toBlock_eq_error]
      constructor
      · exact fun h => .inr ⟨hnodup, h⟩
      · intro h
        rcases h with ⟨slot, hrepeats, -⟩ | ⟨-, h⟩
        · exact absurd hnodup hrepeats.not_nodup
        · exact h
    · rw [Fragment.exists_block_iff]
      exact ⟨fun h => ⟨hnodup, h⟩, fun h => h.2⟩
    · have hmade := (Fragment.exists_block_iff serial).mp ⟨b, h⟩
      obtain ⟨parts, -, hedits, hblock⟩ := Fragment.toBlock_of_wellMade hmade serial
      rw [hblock] at h ⊢
      obtain rfl := Except.ok.inj h
      refine ⟨rfl, fun s => ?_, ?_⟩
      · rw [Block.usesOf, Edit.usesOf_eq, hedits]
      · simp [Event.level, List.filter_map, Function.comp_def]

/-- Of three faults the hole bound twice is reported, though another hole is no slot and a slot
has no hole. -/
example :
    let f : Fragment := .element "p" [("class", .hole "lead")] [.hole "tip", .hole "lead"]
    (((counted fun _ => f).compile 0 ["lead", "word"] .strict).run 0).1.result =
      .error (.duplicateHole "lead" 2) := by rfl

end Template

end Stencil
