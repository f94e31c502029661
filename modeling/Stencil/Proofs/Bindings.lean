import Mathlib.Data.String.Basic
import Mathlib.Data.List.Pairwise
import Stencil.Bindings
import Stencil.Scalar
/- Laws of bindings. What is found under a name after an insertion, an erasure or an
   overlay is said for all lists; that two bindings with the same values are equal
   lists needs the order of the names (`Sorted`). Attributes are bindings of scalars
   that are written in turn, where the null value erases (`write`, `writeAll`). -/
namespace Stencil.Bindings

variable {α : Type}

theorem get?_nil (name : String) : get? ([] : Bindings α) name = none := rfl

theorem get?_cons (key : String) (held : α) (rest : Bindings α) (name : String) :
    get? ((key, held) :: rest) name = if name = key then some held else get? rest name := by
  simp only [get?, List.lookup_cons]
  by_cases h : name = key
  · simp [h]
  · have hb : (name == key) = false := by simp [h]
    simp [h, hb]

theorem get?_insert (bs : Bindings α) (name slot : String) (value : α) :
    (insert name value bs).get? slot = if slot = name then some value else bs.get? slot := by
  induction bs with
  | nil => simp [insert, get?_cons, get?_nil]
  | cons entry rest ih =>
    obtain ⟨key, held⟩ := entry
    simp only [insert]
    split
    · rw [get?_cons]
    · split
      · rename_i h
        subst h
        rw [get?_cons, get?_cons]
        split <;> rfl
      · rename_i h
        rw [get?_cons, ih, get?_cons]
        by_cases hk : slot = key
        · have hn : slot ≠ name := fun hs => h (hs.symm.trans hk)
          simp [hk, hk ▸ hn]
        · simp [hk]

theorem get?_erase (bs : Bindings α) (name slot : String) :
    (bs.erase name).get? slot = if slot = name then none else bs.get? slot := by
  induction bs with
  | nil => simp [erase, get?_nil]
  | cons entry rest ih =>
    obtain ⟨key, held⟩ := entry
    simp only [erase] at ih ⊢
    by_cases hk : key = name
    · subst hk
      simp only [ne_eq, not_true_eq_false, decide_false, Bool.false_eq_true, not_false_eq_true,
        List.filter_cons_of_neg, ih, get?_cons]
      split <;> rfl
    · simp only [ne_eq, hk, not_false_eq_true, decide_true, List.filter_cons_of_pos, get?_cons, ih]
      by_cases hs : slot = key
      · have hn : slot ≠ name := fun hn => hk (hs.symm.trans hn)
        simp [hs, hs ▸ hn]
      · simp [hs]

theorem get?_eq_none {bs : Bindings α} {name : String} :
    bs.get? name = none ↔ name ∉ bs.names := by
  induction bs with
  | nil => simp [get?_nil, names]
  | cons entry rest ih =>
    obtain ⟨key, held⟩ := entry
    simp only [names] at ih
    rw [get?_cons]
    by_cases h : name = key <;> simp [h, names, ih]

theorem mem_of_get? {bs : Bindings α} {name : String} {value : α} (h : bs.get? name = some value) :
    (name, value) ∈ bs := by
  induction bs with
  | nil => simp [get?_nil] at h
  | cons entry rest ih =>
    obtain ⟨key, held⟩ := entry
    rw [get?_cons] at h
    split at h
    · simp_all
    · exact List.mem_cons_of_mem _ (ih h)

/-- What is written over bindings wins, if it names nothing twice. -/
theorem get?_overlay {next : Bindings α} (bs : Bindings α) (slot : String)
    (h : next.names.Nodup) : (bs.overlay next).get? slot = (next.get? slot).or (bs.get? slot) := by
  induction next generalizing bs with
  | nil => simp [overlay, get?_nil]
  | cons entry rest ih =>
    obtain ⟨key, value⟩ := entry
    simp only [names, List.map_cons, List.nodup_cons] at h
    have hrest := ih (insert key value bs) h.2
    simp only [overlay, List.foldl_cons] at hrest ⊢
    rw [hrest, get?_insert, get?_cons]
    by_cases hs : slot = key
    · subst hs
      have hnone : get? rest slot = none := get?_eq_none.mpr h.1
      simp [hnone]
    · simp [hs]

/-- The names come in strictly increasing order. -/
def Sorted (bs : Bindings α) : Prop :=
  bs.Pairwise fun a b => a.1 < b.1

theorem Sorted.nil : Sorted ([] : Bindings α) := List.Pairwise.nil

theorem Sorted.nodup {bs : Bindings α} (h : bs.Sorted) : bs.names.Nodup := by
  rw [names, List.Nodup, List.pairwise_map]
  exact h.imp fun hab heq => absurd (heq ▸ hab) (lt_irrefl _)

theorem mem_insert {bs : Bindings α} {name : String} {value : α} {b : String × α}
    (h : b ∈ insert name value bs) : b = (name, value) ∨ b ∈ bs := by
  induction bs with
  | nil => simpa [insert] using h
  | cons entry rest ih =>
    obtain ⟨key, held⟩ := entry
    simp only [insert] at h
    split at h
    · simpa using h
    · split at h
      · rcases List.mem_cons.mp h with h | h
        · exact .inl h
        · exact .inr (List.mem_cons_of_mem _ h)
      · rcases List.mem_cons.mp h with h | h
        · exact .inr (h ▸ List.mem_cons_self)
        · exact (ih h).imp id (List.mem_cons_of_mem _)

theorem Sorted.insert {bs : Bindings α} (h : bs.Sorted) (name : String) (value : α) :
    (Bindings.insert name value bs).Sorted := by
  induction bs with
  | nil => simp [Bindings.insert, Sorted]
  | cons entry rest ih =>
    obtain ⟨key, held⟩ := entry
    obtain ⟨hkey, hrest⟩ := List.pairwise_cons.mp h
    simp only [Bindings.insert]
    split
    · rename_i hlt
      refine List.pairwise_cons.mpr ⟨?_, h⟩
      intro b hb
      rcases List.mem_cons.mp hb with hb | hb
      · exact hb ▸ hlt
      · exact lt_trans hlt (hkey b hb)
    · rename_i hlt
      split
      · rename_i heq
        exact List.pairwise_cons.mpr ⟨heq ▸ hkey, hrest⟩
      · rename_i hne
        refine List.pairwise_cons.mpr ⟨?_, ih hrest⟩
        intro b hb
        rcases mem_insert hb with hb | hb
        · exact hb ▸ lt_of_le_of_ne (le_of_not_gt hlt) (Ne.symm hne)
        · exact hkey b hb

theorem Sorted.erase {bs : Bindings α} (h : bs.Sorted) (name : String) : (bs.erase name).Sorted :=
  List.Pairwise.filter _ h

theorem mem_overlay {bs next : Bindings α} {b : String × α} (h : b ∈ bs.overlay next) :
    b ∈ next ∨ b ∈ bs := by
  induction next generalizing bs with
  | nil => exact .inr h
  | cons entry rest ih =>
    rcases ih h with h | h
    · exact .inl (List.mem_cons_of_mem _ h)
    · rcases mem_insert h with rfl | h
      · exact .inl List.mem_cons_self
      · exact .inr h

theorem Sorted.overlay {bs : Bindings α} (h : bs.Sorted) (next : Bindings α) :
    (bs.overlay next).Sorted := by
  induction next generalizing bs with
  | nil => exact h
  | cons entry rest ih => exact ih (h.insert entry.1 entry.2)

theorem sorted_ofPairs (pairs : List (String × α)) : (ofPairs pairs).Sorted :=
  Sorted.nil.overlay pairs

/-- The least name of sorted bindings is the first. -/
theorem Sorted.get?_of_lt {key name : String} {held : α} {rest : Bindings α}
    (h : Sorted ((key, held) :: rest)) (hlt : name < key) :
    get? ((key, held) :: rest) name = none := by
  rw [get?_eq_none]
  intro hm
  obtain ⟨b, hb, rfl⟩ := List.mem_map.mp hm
  rcases List.mem_cons.mp hb with hb | hb
  · exact absurd (hb ▸ hlt) (lt_irrefl _)
  · exact absurd (lt_trans hlt ((List.pairwise_cons.mp h).1 b hb)) (lt_irrefl _)

/-- Sorted bindings with the same values under all names are the same. -/
theorem Sorted.ext {as bs : Bindings α} (ha : as.Sorted) (hb : bs.Sorted)
    (h : ∀ name, as.get? name = bs.get? name) : as = bs := by
  induction as generalizing bs with
  | nil =>
    cases bs with
    | nil => rfl
    | cons entry rest =>
      have := h entry.1
      rw [get?_cons] at this
      simp [get?_nil] at this
  | cons entry rest ih =>
    obtain ⟨key, held⟩ := entry
    cases bs with
    | nil =>
      have := h key
      rw [get?_cons] at this
      simp [get?_nil] at this
    | cons entry' rest' =>
      obtain ⟨key', held'⟩ := entry'
      have hkey : key = key' := by
        rcases lt_trichotomy key key' with hlt | heq | hlt
        · have := h key
          rw [hb.get?_of_lt hlt, get?_cons] at this
          simp at this
        · exact heq
        · have := h key'
          rw [ha.get?_of_lt hlt, get?_cons] at this
          simp at this
      subst hkey
      have hheld : held = held' := by
        have := h key
        rw [get?_cons, get?_cons] at this
        simpa using this
      subst hheld
      have hnd := ha.nodup
      have hnd' := hb.nodup
      simp only [names, List.map_cons, List.nodup_cons] at hnd hnd'
      congr 1
      refine ih (List.pairwise_cons.mp ha).2 (List.pairwise_cons.mp hb).2 fun name => ?_
      by_cases hn : name = key
      · subst hn
        rw [get?_eq_none.mpr hnd.1, get?_eq_none.mpr hnd'.1]
      · have := h name
        rwa [get?_cons, get?_cons, if_neg hn, if_neg hn] at this

/-- Attributes with one of them written, where the null value erases. -/
def write (name : String) (value : Scalar) (bs : Bindings Scalar) : Bindings Scalar :=
  if value.isNull then bs.erase name else bs.insert name value

/-- Attributes with each of the pairs written in turn. -/
def writeAll (pairs : List (String × Scalar)) (bs : Bindings Scalar) : Bindings Scalar :=
  pairs.foldl (fun acc p => write p.1 p.2 acc) bs

/-- What is found where a scalar was written. -/
def present (value : Scalar) : Option Scalar :=
  if value.isNull then none else some value

theorem get?_write (bs : Bindings Scalar) (name slot : String) (value : Scalar) :
    (write name value bs).get? slot = if slot = name then present value else bs.get? slot := by
  unfold write present
  split
  · rw [get?_erase]
  · rw [get?_insert]

theorem Sorted.write {bs : Bindings Scalar} (h : bs.Sorted) (name : String) (value : Scalar) :
    (Bindings.write name value bs).Sorted := by
  unfold Bindings.write
  split
  · exact h.erase name
  · exact h.insert name value

theorem Sorted.writeAll {bs : Bindings Scalar} (h : bs.Sorted) (pairs : List (String × Scalar)) :
    (Bindings.writeAll pairs bs).Sorted := by
  induction pairs generalizing bs with
  | nil => exact h
  | cons p rest ih => exact ih (h.write p.1 p.2)

/-- Writing pairs of distinct names leaves each one's value under its name. -/
theorem get?_writeAll {pairs : List (String × Scalar)} (bs : Bindings Scalar) (slot : String)
    (h : (pairs.map Prod.fst).Nodup) :
    (writeAll pairs bs).get? slot =
      match get? pairs slot with
      | some value => present value
      | none => bs.get? slot := by
  induction pairs generalizing bs with
  | nil => rfl
  | cons p rest ih =>
    obtain ⟨name, value⟩ := p
    simp only [List.map_cons, List.nodup_cons] at h
    have hrest := ih (write name value bs) h.2
    simp only [writeAll, List.foldl_cons] at hrest ⊢
    rw [hrest, get?_write, get?_cons]
    by_cases hs : slot = name
    · subst hs
      have hnone : get? rest slot = none := get?_eq_none.mpr h.1
      simp [hnone]
    · simp [hs]

/-- The attributes show what each of the pairs wrote. -/
def Bears (held : Bindings Scalar) (pairs : List (String × Scalar)) : Prop :=
  ∀ name value, get? pairs name = some value → held.get? name = present value

theorem bears_writeAll {pairs : List (String × Scalar)} (bs : Bindings Scalar)
    (h : (pairs.map Prod.fst).Nodup) : (writeAll pairs bs).Bears pairs := by
  intro name value hvalue
  rw [get?_writeAll _ _ h, hvalue]

section Bears

variable {held : Bindings Scalar} {pairs : List (String × Scalar)} {name : String} {value : Scalar}

theorem Bears.head (h : held.Bears ((name, value) :: pairs)) : held.get? name = present value :=
  h name value (by simp [get?_cons])

theorem Bears.tail (h : held.Bears ((name, value) :: pairs)) (hname : get? pairs name = none) :
    held.Bears pairs := by
  intro slot other hother
  have hne : slot ≠ name := fun heq => by simp [heq, hname] at hother
  exact h slot other (by simp [get?_cons, hne, hother])

theorem Bears.write (h : held.Bears pairs) (hname : get? pairs name = none) (value : Scalar) :
    (Bindings.write name value held).Bears pairs := by
  intro slot other hother
  have hne : slot ≠ name := fun heq => by simp [heq, hname] at hother
  rw [get?_write, if_neg hne]
  exact h slot other hother

end Bears

end Stencil.Bindings
