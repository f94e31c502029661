import Mathlib.Data.String.Basic
import Stencil.Document.Markup
/- Escaping can be undone: reading the entities back gives the text (`unescape_escape`), so no two
   texts are escaped alike. An escaped text has no character by which markup tells where a text
   or a quoted value ends, and an ampersand only where an entity begins (`Inert`). Being so is all
   that sets the escaped texts apart: `inert_iff` says that there are no others. -/
namespace Stencil.Markup

/-- How a character is escaped. -/
inductive Escapes (quoted : Bool) : Char → List Char → Prop where
  | amp : Escapes quoted '&' ['&', 'a', 'm', 'p', ';']
  | lt : Escapes quoted '<' ['&', 'l', 't', ';']
  | gt : Escapes quoted '>' ['&', 'g', 't', ';']
  | quot : quoted = true → Escapes quoted '"' ['&', 'q', 'u', 'o', 't', ';']
  | plain {c : Char} : c ≠ '&' → c ≠ '<' → c ≠ '>' → (quoted = true → c ≠ '"') →
      Escapes quoted c [c]

theorem escapes (quoted : Bool) (c : Char) : Escapes quoted c (escapeChar quoted c) := by
  by_cases hamp : c = '&'
  · subst hamp
    exact .amp
  by_cases hlt : c = '<'
  · subst hlt
    exact .lt
  by_cases hgt : c = '>'
  · subst hgt
    exact .gt
  by_cases hquot : c = '"' ∧ quoted = true
  · obtain ⟨rfl, rfl⟩ := hquot
    exact .quot rfl
  · simp only [escapeChar, hamp, hlt, hgt, hquot, if_false]
    exact .plain hamp hlt hgt fun hq hc => hquot ⟨hc, hq⟩

/-- The text with each entity replaced by the character that it stands for, from left to right. -/
def unescape : List Char → List Char
  | '&' :: 'a' :: 'm' :: 'p' :: ';' :: rest => '&' :: unescape rest
  | '&' :: 'l' :: 't' :: ';' :: rest => '<' :: unescape rest
  | '&' :: 'g' :: 't' :: ';' :: rest => '>' :: unescape rest
  | '&' :: 'q' :: 'u' :: 'o' :: 't' :: ';' :: rest => '"' :: unescape rest
  | c :: rest => c :: unescape rest
  | [] => []

/-- An escaped character is read back as one. -/
theorem Escapes.unescape {quoted : Bool} {c : Char} {cs : List Char} (h : Escapes quoted c cs)
    (rest : List Char) : unescape (cs ++ rest) = c :: Markup.unescape rest := by
  cases h with
  | amp => simp [Markup.unescape]
  | lt => simp [Markup.unescape]
  | gt => simp [Markup.unescape]
  | quot _ => simp [Markup.unescape]
  | plain hamp _ _ _ =>
    rw [List.singleton_append, Markup.unescape] <;> simp [hamp]

theorem unescape_flatMap (quoted : Bool) (cs : List Char) :
    unescape (cs.flatMap (escapeChar quoted)) = cs := by
  induction cs with
  | nil => rfl
  | cons c rest ih => rw [List.flatMap_cons, (escapes quoted c).unescape, ih]

theorem toList_escape (quoted : Bool) (s : String) :
    (escape quoted s).toList = s.toList.flatMap (escapeChar quoted) := by
  rw [escape, String.toList_ofList]

/-- **Escaping is undone by reading the entities.** -/
theorem unescape_escape (quoted : Bool) (s : String) : unescape (escape quoted s).toList = s.toList := by
  rw [toList_escape, unescape_flatMap]

theorem escape_injective {quoted : Bool} {s t : String}
    (h : (escape quoted s).toList = (escape quoted t).toList) : s = t := by
  rw [← String.toList_inj, ← unescape_escape quoted s, h, unescape_escape]

theorem escape_ne_nil {quoted : Bool} {s : String} (h : s ≠ "") : (escape quoted s).toList ≠ [] := by
  intro hnil
  have hs := unescape_escape quoted s
  rw [hnil] at hs
  exact h (String.toList_inj.mp hs.symm)

/-- How the entities are written. A quote stands for itself in a text, and has an entity in a
quoted value only. -/
def entities (quoted : Bool) : List (List Char) :=
  [['&', 'a', 'm', 'p', ';'], ['&', 'l', 't', ';'], ['&', 'g', 't', ';']] ++
    if quoted then [['&', 'q', 'u', 'o', 't', ';']] else []

/-- Characters in which markup finds no tag and, in a quoted value, no end of the value. An
ampersand is among them only as the first character of an entity. -/
structure Inert (quoted : Bool) (cs : List Char) : Prop where
  no_less : '<' ∉ cs
  no_greater : '>' ∉ cs
  no_quote : quoted = true → '"' ∉ cs
  entity : ∀ rest, '&' :: rest <:+ cs → ∃ e ∈ entities quoted, e <+: '&' :: rest

section Inert

variable {quoted : Bool} {c : Char} {cs ds : List Char}

theorem Inert.nil : Inert quoted [] where
  no_less := List.not_mem_nil
  no_greater := List.not_mem_nil
  no_quote _ := List.not_mem_nil
  entity rest h := by simp at h

theorem Inert.suffix (h : Inert quoted cs) (hs : ds <:+ cs) : Inert quoted ds where
  no_less hm := h.no_less (hs.mem hm)
  no_greater hm := h.no_greater (hs.mem hm)
  no_quote hq hm := h.no_quote hq (hs.mem hm)
  entity rest hrest := h.entity rest (hrest.trans hs)

theorem Inert.append (h : Inert quoted cs) (h' : Inert quoted ds) : Inert quoted (cs ++ ds) where
  no_less := by simp [h.no_less, h'.no_less]
  no_greater := by simp [h.no_greater, h'.no_greater]
  no_quote hq := by simp [h.no_quote hq, h'.no_quote hq]
  entity := by
    intro rest hrest
    obtain ⟨before, hsplit⟩ := hrest
    rcases List.append_eq_append_iff.mp hsplit with ⟨mid, hcs, hmid⟩ | ⟨mid, -, hds⟩
    · cases mid with
      | nil => exact h'.entity rest (by rw [hmid]; exact List.suffix_refl _)
      | cons b mid =>
        obtain ⟨rfl, rfl⟩ := List.cons.inj hmid
        obtain ⟨e, he, hpre⟩ := h.entity mid ⟨before, hcs.symm⟩
        exact ⟨e, he, hpre.trans (List.prefix_append _ ds)⟩
    · exact h'.entity rest ⟨mid, hds.symm⟩

theorem Escapes.eq (h : Escapes quoted c cs) : escapeChar quoted c = cs := by
  cases h with
  | plain hamp hlt hgt hquot =>
    have hend : ¬(c = '"' ∧ quoted = true) := fun h => hquot h.2 h.1
    simp only [escapeChar, hamp, hlt, hgt, hend, if_false]
  | quot hq => simp [escapeChar, hq]
  | _ => rfl

theorem Escapes.ne_nil (h : Escapes quoted c cs) : cs ≠ [] := by
  cases h <;> exact List.cons_ne_nil _ _

theorem Escapes.inert (h : Escapes quoted c cs) : Inert quoted cs := by
  cases h with
  | plain hamp hlt hgt hquot =>
    refine ⟨?_, ?_, fun hq => ?_, fun rest hrest => ?_⟩
    · simpa using hlt.symm
    · simpa using hgt.symm
    · simpa using (hquot hq).symm
    · simp [List.suffix_cons_iff, hamp.symm] at hrest
  | _ =>
    -- the only ampersand of an entity is its first character
    refine ⟨by decide, by decide, fun _ => by decide, fun rest hrest => ?_⟩
    simp only [List.suffix_cons_iff] at hrest
    simp_all [entities]

theorem exists_escapes_of_mem {e : List Char} (h : e ∈ entities quoted) :
    ∃ b, Escapes quoted b e := by
  simp only [entities, List.mem_append, List.mem_cons, List.not_mem_nil, or_false] at h
  rcases h with (rfl | rfl | rfl) | h
  · exact ⟨_, .amp⟩
  · exact ⟨_, .lt⟩
  · exact ⟨_, .gt⟩
  · cases quoted with
    | false => simp at h
    | true => exact ⟨'"', List.mem_singleton.mp h ▸ .quot rfl⟩

/-- Inert characters begin with an escaped one. -/
theorem Inert.exists_escapes (h : Inert quoted (c :: cs)) :
    ∃ b e rest, Escapes quoted b e ∧ c :: cs = e ++ rest := by
  by_cases hamp : c = '&'
  · subst hamp
    obtain ⟨e, he, rest, hrest⟩ := h.entity cs (List.suffix_refl _)
    obtain ⟨b, hb⟩ := exists_escapes_of_mem he
    exact ⟨b, e, rest, hb, hrest.symm⟩
  · have hlt : c ≠ '<' := fun hc => h.no_less (hc ▸ List.mem_cons_self)
    have hgt : c ≠ '>' := fun hc => h.no_greater (hc ▸ List.mem_cons_self)
    have hquot : quoted = true → c ≠ '"' := fun hq hc => h.no_quote hq (hc ▸ List.mem_cons_self)
    exact ⟨c, [c], cs, .plain hamp hlt hgt hquot, rfl⟩

theorem inert_flatMap (quoted : Bool) (cs : List Char) :
    Inert quoted (cs.flatMap (escapeChar quoted)) := by
  induction cs with
  | nil => exact .nil
  | cons c rest ih =>
    rw [List.flatMap_cons]
    exact (escapes quoted c).inert.append ih

theorem Inert.exists_flatMap (h : Inert quoted cs) :
    ∃ bs : List Char, bs.flatMap (escapeChar quoted) = cs := by
  -- what follows an escaped character is shorter, and inert as well
  induction hn : cs.length using Nat.strong_induction_on generalizing cs with
  | _ n ih =>
    cases cs with
    | nil => exact ⟨[], rfl⟩
    | cons c cs =>
      obtain ⟨b, e, rest, hb, hsplit⟩ := h.exists_escapes
      have hlt : rest.length < n := by
        have hpos := List.length_pos_iff.mpr hb.ne_nil
        rw [← hn, hsplit, List.length_append]
        omega
      obtain ⟨bs, hbs⟩ := ih rest.length hlt (h.suffix ⟨e, hsplit.symm⟩) rfl
      exact ⟨b :: bs, by rw [List.flatMap_cons, hb.eq, hbs, hsplit]⟩

theorem inert_escape (quoted : Bool) (s : String) : Inert quoted (escape quoted s).toList := by
  rw [toList_escape]
  exact inert_flatMap quoted s.toList

/-- The inert characters are those of the escaped texts. -/
theorem inert_iff : Inert quoted cs ↔ ∃ s : String, (escape quoted s).toList = cs := by
  constructor
  · intro h
    obtain ⟨bs, hbs⟩ := h.exists_flatMap
    exact ⟨String.ofList bs, by rw [toList_escape, String.toList_ofList, hbs]⟩
  · intro h
    obtain ⟨s, rfl⟩ := h
    exact inert_escape quoted s

end Inert

/-- The characters that bound a tag are not in an escaped text, nor is, in a quoted value, the one
that ends it. -/
theorem ne_of_mem_escape {quoted : Bool} {s : String} {c : Char}
    (h : c ∈ (escape quoted s).toList) : c ≠ '<' ∧ c ≠ '>' ∧ (quoted = true → c ≠ '"') := by
  have hinert := inert_escape quoted s
  refine ⟨?_, ?_, fun hq => ?_⟩
  · exact fun hc => hinert.no_less (hc ▸ h)
  · exact fun hc => hinert.no_greater (hc ▸ h)
  · exact fun hc => hinert.no_quote hq (hc ▸ h)

theorem escape_append (quoted : Bool) (s t : String) :
    escape quoted (s ++ t) = escape quoted s ++ escape quoted t := by
  apply String.toList_inj.mp
  rw [String.toList_append, toList_escape, toList_escape, toList_escape, String.toList_append,
    List.flatMap_append]

/-- **Escaping is safe and can be undone.** As a text and as a quoted value, an escaped text has
no bracket and, quoted, no quote, and each of its ampersands begins an entity; with the entities
replaced from left to right by what they stand for it is the text again. So different texts are
escaped differently, and two texts in one are escaped one after the other. -/
theorem escape_reversible (quoted : Bool) :
    (∀ s, Inert quoted (escape quoted s).toList) ∧
    (∀ s, String.ofList (unescape (escape quoted s).toList) = s) ∧
    Function.Injective (escape quoted) ∧
    ∀ s t, escape quoted (s ++ t) = escape quoted s ++ escape quoted t := by
  refine ⟨inert_escape quoted, fun s => ?_, fun s t h => ?_, escape_append quoted⟩
  · rw [unescape_escape, String.ofList_toList]
  · exact escape_injective (congrArg String.toList h)

/-- A text that is an entity already has its ampersand escaped once more. -/
example : escape false "&lt;" = "&amp;lt;" ∧ escape true "\"" = "&quot;" := by decide

end Stencil.Markup
