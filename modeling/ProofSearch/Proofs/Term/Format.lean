import ProofSearch.Proofs.Term.Rename
import ProofSearch.Term.Format

/-!
# Written terms are unambiguous

A word is a text that is not empty and has no space and no parenthesis. Where the variables and symbols of a
term are words, each of them goes on up to the next space or parenthesis, and a tuple up to the parenthesis that
closes it. So the term is told from any other and from what stands behind it, as long as no word goes on into
that (`Worded.separates`); with nothing behind it, its text is that of no other term (`format_inj`).
-/

namespace ProofSearch

namespace Text

/-- Neither a space nor a parenthesis. -/
def inWord (c : Char) : Bool := c ≠ ' ' && c ≠ '(' && c ≠ ')'

structure Word (s : String) : Prop where
  ne_nil : s.toList ≠ []
  all_inWord : ∀ c ∈ s.toList, inWord c = true

instance (s : String) : Decidable (Word s) :=
  decidable_of_iff (s.toList ≠ [] ∧ s.toList.all inWord = true)
    ⟨fun ⟨hne, hall⟩ => ⟨hne, List.all_eq_true.1 hall⟩, fun h => ⟨h.ne_nil, List.all_eq_true.2 h.all_inWord⟩⟩

/-- A word that stands before this ends there. -/
def Breaks (cs : List Char) : Prop := cs.takeWhile inWord = []

/-- The word that this begins with. -/
def word? (cs : List Char) : Option String :=
  let w := cs.takeWhile inWord
  if w = [] then none else some (String.ofList w)

theorem word?_append {s : String} {rest : List Char} (hs : Word s) (hrest : Breaks rest) :
    word? (s.toList ++ rest) = some s := by
  have hword : (s.toList ++ rest).takeWhile inWord = s.toList := by
    rw [List.takeWhile_append_of_pos hs.all_inWord, hrest, List.append_nil]
  rw [word?, hword, if_neg hs.ne_nil, String.ofList_toList]

theorem word?_cons {c : Char} (hc : inWord c = false) (cs : List Char) : word? (c :: cs) = none :=
  if_pos (List.takeWhile_cons_of_neg (by simp [hc]))

end Text

namespace Term
open Text
variable {t u : Term} {ts us : List Term} {s : String} {rest rest' : List Char}

/-- The variables and symbols of the term are words. -/
structure Worded (t : Term) : Prop where
  vars : ∀ v ∈ t.vars, Word v.text
  syms : ∀ c ∈ t.syms, Word c.text

theorem Worded.of_mem (h : (tuple ts).Worded) (ht : t ∈ ts) : t.Worded where
  vars v hv := h.vars v (mem_vars_tuple.2 ⟨t, ht, hv⟩)
  syms c hc := h.syms c (mem_syms_tuple.2 ⟨t, ht, hc⟩)

theorem Worded.word (h : t.Worded) (hs : t.text = some s) : Word s := by
  cases t with
  | var v => exact Option.some.inj hs ▸ h.vars v (List.mem_singleton_self v)
  | sym c => exact Option.some.inj hs ▸ h.syms c (List.mem_singleton_self c)
  | tuple ts => cases hs

/-! ### Terms with a text, and tuples -/

theorem format_of_text (hs : t.text = some s) : t.format = s := by
  cases t with
  | var v => exact Option.some.inj hs
  | sym c => exact Option.some.inj hs
  | tuple ts => cases hs

/-- A text is that of one variable or of one symbol. -/
theorem eq_ofText (hs : t.text = some s) : t = ofText s := by
  cases t with
  | var v => exact Option.some.inj hs ▸ (ofText_var v).symm
  | sym c => exact Option.some.inj hs ▸ (ofText_sym c).symm
  | tuple ts => cases hs

theorem exists_eq_tuple (h : t.text = none) : ∃ ts, t = tuple ts := by
  cases t with
  | var v => cases h
  | sym c => cases h
  | tuple ts => exact ⟨ts, rfl⟩

/-- What is written for the terms of a tuple behind the first of them. -/
def following (ts : List Term) : List Char := ts.flatMap fun t => ' ' :: t.format.toList

theorem following_cons_append (t : Term) (ts : List Term) (cs : List Char) :
    following (t :: ts) ++ cs = ' ' :: (t.format.toList ++ (following ts ++ cs)) := by
  rw [following, List.flatMap_cons, List.append_assoc]
  rfl

theorem toList_formatAll (t : Term) (ts : List Term) :
    (formatAll (t :: ts)).toList = t.format.toList ++ following ts := by
  induction ts generalizing t with
  | nil => exact (List.append_nil _).symm
  | cons u ts ih =>
    rw [formatAll, String.toList_append, String.toList_append, ih, List.append_assoc]
    rfl

theorem toList_format_tuple (ts : List Term) (rest : List Char) :
    (tuple ts).format.toList ++ rest = '(' :: ((formatAll ts).toList ++ ')' :: rest) := by
  rw [format, String.toList_append, String.toList_append, List.append_assoc, List.append_assoc]
  rfl

theorem breaks_following (ts : List Term) (rest : List Char) : Breaks (following ts ++ ')' :: rest) := by
  cases ts <;> rfl

/-- What is written for a term begins with a word just if the term has a text, and the word is that text. -/
theorem Worded.word?_format (ht : t.Worded) (hrest : Breaks rest) : word? (t.format.toList ++ rest) = t.text := by
  cases hs : t.text with
  | none =>
    obtain ⟨ts, rfl⟩ := exists_eq_tuple hs
    rw [toList_format_tuple]
    exact word?_cons rfl _
  | some s =>
    rw [format_of_text hs]
    exact word?_append (ht.word hs) hrest

theorem Worded.text_eq (ht : t.Worded) (hu : u.Worded) (hrest : Breaks rest) (hrest' : Breaks rest')
    (h : t.format.toList ++ rest = u.format.toList ++ rest') : t.text = u.text := by
  rw [← ht.word?_format hrest, h, hu.word?_format hrest']

/-- No term begins with the parenthesis that closes a tuple. -/
theorem Worded.format_append_ne (ht : t.Worded) (hrest : Breaks rest) (rest' : List Char) :
    t.format.toList ++ rest ≠ ')' :: rest' := by
  intro h
  have htext : t.text = none := by rw [← ht.word?_format hrest, h, word?_cons rfl]
  obtain ⟨ts, rfl⟩ := exists_eq_tuple htext
  rw [toList_format_tuple] at h
  exact absurd (List.cons.inj h).1 (by decide)

/-! ### One text, one term -/

/-- What is written for the term, with something behind it, is written for no other term with anything else
behind it. -/
def Separates (t : Term) : Prop :=
  ∀ u : Term, u.Worded → ∀ rest rest', Breaks rest → Breaks rest' →
    t.format.toList ++ rest = u.format.toList ++ rest' → t = u ∧ rest = rest'

theorem separates_of_text (ht : t.Worded) (hs : t.text = some s) : t.Separates := by
  intro u hu rest rest' hrest hrest' h
  have htext := ht.text_eq hu hrest hrest' h
  obtain rfl : t = u := (eq_ofText hs).trans (eq_ofText (htext ▸ hs)).symm
  exact ⟨rfl, List.append_cancel_left h⟩

/-- The terms behind the first are told one after the other: a space comes before each of them, and the parenthesis
behind the last. -/
theorem eq_of_following (hts : ∀ t ∈ ts, t.Separates) (hus : ∀ u ∈ us, u.Worded)
    (h : following ts ++ ')' :: rest = following us ++ ')' :: rest') : ts = us ∧ rest = rest' := by
  induction ts generalizing us with
  | nil =>
    cases us with
    | nil => exact ⟨rfl, (List.cons.inj h).2⟩
    | cons u us => exact absurd (List.cons.inj h).1 (by decide)
  | cons t ts ih =>
    cases us with
    | nil => exact absurd (List.cons.inj h).1 (by decide)
    | cons u us =>
      obtain ⟨ht, hts⟩ := List.forall_mem_cons.1 hts
      obtain ⟨hu, hus⟩ := List.forall_mem_cons.1 hus
      rw [following_cons_append, following_cons_append] at h
      obtain ⟨-, h⟩ := List.cons.inj h
      obtain ⟨hfirst, h⟩ := ht u hu _ _ (breaks_following ts rest) (breaks_following us rest') h
      obtain ⟨hothers, hrest⟩ := ih hts hus h
      exact ⟨by rw [hfirst, hothers], hrest⟩

theorem eq_of_formatAll (hts : ∀ t ∈ ts, t.Worded) (hus : ∀ u ∈ us, u.Worded) (hsep : ∀ t ∈ ts, t.Separates)
    (h : (formatAll ts).toList ++ ')' :: rest = (formatAll us).toList ++ ')' :: rest') :
    ts = us ∧ rest = rest' := by
  -- behind the opening parenthesis comes the closing one or the first term, which does not begin with it
  cases ts with
  | nil =>
    cases us with
    | nil => exact ⟨rfl, (List.cons.inj h).2⟩
    | cons u us =>
      rw [toList_formatAll, List.append_assoc] at h
      exact absurd h.symm ((hus u List.mem_cons_self).format_append_ne (breaks_following us rest') rest)
  | cons t ts =>
    rw [toList_formatAll, List.append_assoc] at h
    cases us with
    | nil => exact absurd h ((hts t List.mem_cons_self).format_append_ne (breaks_following ts rest) rest')
    | cons u us =>
      rw [toList_formatAll, List.append_assoc] at h
      refine eq_of_following hsep hus ?_
      rw [following_cons_append, following_cons_append, h]

theorem separates_tuple (ht : (tuple ts).Worded) (hsep : ∀ t ∈ ts, t.Separates) : (tuple ts).Separates := by
  intro u hu rest rest' hrest hrest' h
  have htext := ht.text_eq hu hrest hrest' h
  obtain ⟨us, rfl⟩ := exists_eq_tuple htext.symm
  rw [toList_format_tuple, toList_format_tuple] at h
  obtain ⟨rfl, hrest⟩ := eq_of_formatAll (fun _ => ht.of_mem) (fun _ => hu.of_mem) hsep (List.cons.inj h).2
  exact ⟨rfl, hrest⟩

theorem Worded.separates (ht : t.Worded) : t.Separates := by
  induction t using Term.induction with
  | var v => exact separates_of_text ht rfl
  | sym c => exact separates_of_text ht rfl
  | tuple ts ih => exact separates_tuple ht fun t hmem => ih t hmem (ht.of_mem hmem)

/-- Terms whose variables and symbols are words are the same if they are written alike. -/
theorem format_inj (ht : t.Worded) (hu : u.Worded) : t.format = u.format ↔ t = u := by
  refine ⟨fun h => ?_, fun h => h ▸ rfl⟩
  have happend : t.format.toList ++ [] = u.format.toList ++ [] := by rw [h]
  exact (ht.separates u hu [] [] rfl rfl happend).1

/-- Tuples with the same words in the same order that are nested in different ways. -/
theorem format_inj_nested :
    let t := tuple [ofText "f", tuple [], tuple [ofText "$x"]]
    let u := tuple [ofText "f", tuple [tuple [], ofText "$x"]]
    t.Worded ∧ u.Worded ∧ t ≠ u ∧ (t.format = u.format ↔ t = u) := by
  have ht : (tuple [ofText "f", tuple [], tuple [ofText "$x"]]).Worded := ⟨by decide, by decide⟩
  have hu : (tuple [ofText "f", tuple [tuple [], ofText "$x"]]).Worded := ⟨by decide, by decide⟩
  exact ⟨ht, hu, by decide, format_inj ht hu⟩

/-- Each condition on words is needed: texts that are empty, or that have a space or parentheses, can be written
like tuples. -/
example :
    (tuple [ofText ""]).format = (tuple []).format ∧
    (tuple [ofText "a b"]).format = (tuple [ofText "a", ofText "b"]).format ∧
    (ofText "()").format = (tuple []).format := by
  decide

end Term
end ProofSearch
