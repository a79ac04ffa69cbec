import ProofSearch.Json.Reader
import ProofSearch.Json.Writer

/-!
# Written JSON is read back

For data without numbers in which no dictionary has a key twice (`Datum.Plain`), reading undoes writing, in
either layout (`Json.read_write`). Numbers are left out: a whole number of too many digits is refused by the
reader, and floating point is not reasoned about. What carries the induction is that the reader, given the
text of a value and any text behind it, comes to the value and leaves the text behind (`Reads`); two calls for
each character of the text are enough for that.
-/

namespace ProofSearch

/-- Nothing in it is a number or a tuple, and in every dictionary the keys are distinct. -/
inductive Datum.Plain : Datum → Prop
  | null : Plain .null
  | bool (b : Bool) : Plain (.bool b)
  | text (s : String) : Plain (.text s)
  | list {xs : List Datum} (hxs : ∀ x ∈ xs, x.Plain) : Plain (.list xs)
  | dict {es : List (String × Datum)} (hkeys : (es.map Prod.fst).Nodup) (hes : ∀ e ∈ es, e.2.Plain) :
      Plain (.dict es)

theorem Datum.insert_of_notMem {es : List (String × Datum)} {k : String} (h : k ∉ es.map Prod.fst) (x : Datum) :
    insert es k x = es ++ [(k, x)] := by
  induction es with
  | nil => rfl
  | cons e es ih =>
    rw [List.map_cons, List.mem_cons, not_or] at h
    rw [insert, if_neg (Ne.symm h.1), ih h.2, List.cons_append]

/-- A new key goes to the end. -/
theorem Datum.insert_of_nodup {es ds : List (String × Datum)} {e : String × Datum}
    (h : ((es ++ e :: ds).map Prod.fst).Nodup) : insert es e.1 e.2 = es ++ [e] := by
  refine insert_of_notMem (fun hmem => ?_) e.2
  rw [List.map_append, List.map_cons] at h
  exact (List.nodup_append.1 h).2.2 e.1 hmem e.1 List.mem_cons_self rfl

namespace Json

/-! ### Strings -/

theorem map_hexValue?_hex (n : Nat) (hn : n < 0x20) :
    (Text.hex 4 n).map hexValue? = [some 0, some 0, some (n / 16), some (n % 16)] := by
  revert n
  decide

/-- A character as it is written is read as its code unit. -/
theorem units?_writtenChar (c : Char) (us : List Nat) (cs : List Char) :
    units? us (writtenChar c ++ cs) = units? (c.toNat :: us) cs := by
  unfold writtenChar
  split
  case h_8 h₁ h₂ h₃ h₄ h₅ h₆ h₇ =>
    split
    case isTrue hlt =>
      obtain ⟨x, l, hl, hx, h⟩ := List.map_eq_cons_iff.1 (map_hexValue?_hex c.toNat hlt)
      obtain ⟨y, l, rfl, hy, h⟩ := List.map_eq_cons_iff.1 h
      obtain ⟨z, l, rfl, hz, h⟩ := List.map_eq_cons_iff.1 h
      obtain ⟨v, l, rfl, hv, h⟩ := List.map_eq_cons_iff.1 h
      obtain rfl := List.map_eq_nil_iff.1 h
      have hdigits : ((0 * 16 + 0) * 16 + c.toNat / 16) * 16 + c.toNat % 16 = c.toNat := by omega
      rw [hl, List.cons_append, List.cons_append, List.cons_append, List.cons_append, List.cons_append,
        List.cons_append, List.nil_append, units?, hx, hy, hz, hv]
      simp only [hdigits]
    case isFalse hge =>
      rw [List.singleton_append, units?, if_neg hge]
      · exact h₁
      · exact fun _ _ _ _ _ h _ => h₂ h
      · exact fun _ _ h _ => h₂ h
  all_goals rfl

theorem units?_flatMap (cs : List Char) (us : List Nat) (rest : List Char) :
    units? us (cs.flatMap writtenChar ++ '"' :: rest) = some (us.reverse ++ cs.map Char.toNat, rest) := by
  induction cs generalizing us with
  | nil => simp [units?]
  | cons c cs ih =>
    rw [List.flatMap_cons, List.append_assoc, units?_writtenChar, ih, List.reverse_cons, List.append_assoc]
    rfl

theorem not_surrogate (c : Char) : c.toNat < 0xD800 ∨ 0xE000 ≤ c.toNat := by
  have h : c.toNat < 0xD800 ∨ (0xDFFF < c.toNat ∧ c.toNat < 0x110000) := c.valid
  omega

theorem charOfUnit_toNat (c : Char) : ofUnits.charOfUnit c.toNat = c := by
  have h : (0xD800 ≤ c.toNat && c.toNat < 0xE000) = false := by
    have := not_surrogate c
    simp
    omega
  rw [ofUnits.charOfUnit, h]
  exact Char.ofNat_toNat c

theorem ofUnits_map_toNat (cs : List Char) : ofUnits (cs.map Char.toNat) = cs := by
  induction cs with
  | nil => rfl
  | cons c cs ih =>
    cases cs with
    | nil => simp [ofUnits, charOfUnit_toNat]
    | cons d ds =>
      have h : (0xD800 ≤ c.toNat && c.toNat < 0xDC00 && 0xDC00 ≤ d.toNat && d.toNat < 0xE000) = false := by
        have := not_surrogate c
        simp
        omega
      rw [List.map_cons] at ih
      rw [List.map_cons, List.map_cons, ofUnits, h, charOfUnit_toNat, ih]
      rfl

theorem string?_flatMap (s : String) (rest : List Char) :
    string? (s.toList.flatMap writtenChar ++ '"' :: rest) = some (s, rest) := by
  rw [string?, units?_flatMap, List.reverse_nil, List.nil_append]
  simp [ofUnits_map_toNat]

theorem toList_writtenText (s : String) (rest : List Char) :
    (writtenText s).toList ++ rest = '"' :: (s.toList.flatMap writtenChar ++ '"' :: rest) := by
  simp [writtenText]

/-! ### Blanks -/

def Blank (cs : List Char) : Prop := ∀ c ∈ cs, c = ' ' ∨ c = '\n'

theorem skipBlanks_append {cs : List Char} (h : Blank cs) (rest : List Char) :
    skipBlanks (cs ++ rest) = skipBlanks rest := by
  refine List.dropWhile_append_of_pos fun c hc => ?_
  rcases h c hc with rfl | rfl <;> rfl

theorem blank_newLine (n : Nat) : Blank (newLine n).toList := by
  intro c hc
  simp only [newLine, String.toList_append, String.toList_ofList, List.mem_append, List.mem_replicate] at hc
  rcases hc with hc | hc
  · exact .inr (by simpa using hc)
  · exact .inl hc.2

/-- Parts in brackets, with nothing but blanks around them and behind the commas. -/
theorem exists_bracketed {α : Type} (indent : Option Nat) (left right : String) (f : α → String) {xs : List α}
    (h : xs ≠ []) :
    ∃ a b c, Blank a ∧ Blank b ∧ Blank c ∧ (bracketed indent left right (xs.map f)).toList =
      left.toList ++ (a ++ ((',' :: b).intercalate (xs.map fun x => (f x).toList) ++ (c ++ right.toList))) := by
  have hnil : Blank [] := fun _ h => absurd h List.not_mem_nil
  have hparts : (xs.map f).isEmpty = false := by simpa using h
  have htexts : (xs.map f).map String.toList = xs.map fun x => (f x).toList := List.map_map
  cases indent with
  | none =>
    refine ⟨[], [' '], [], hnil, fun c hc => .inl (List.mem_singleton.1 hc), hnil, ?_⟩
    simp [bracketed, hparts, htexts]
  | some n =>
    refine ⟨(newLine (n + 1)).toList, (newLine (n + 1)).toList, (newLine n).toList, blank_newLine _,
      blank_newLine _, blank_newLine _, ?_⟩
    simp [bracketed, hparts, htexts]

/-! ### Values -/

/-- The text begins as that of a value without numbers does: with no blank and no closing bracket. -/
def Begins (cs : List Char) : Prop := ∃ c rest, cs = c :: rest ∧ c ∈ ['n', 't', 'f', '"', '[', '\x7b']

theorem Begins.append {cs : List Char} (h : Begins cs) (rest : List Char) : Begins (cs ++ rest) := by
  obtain ⟨c, cs, rfl, hc⟩ := h
  exact ⟨c, cs ++ rest, rfl, hc⟩

theorem Begins.skipBlanks {cs : List Char} (h : Begins cs) : skipBlanks cs = cs := by
  obtain ⟨c, cs, rfl, hc⟩ := h
  have hblank : ∀ d ∈ ['n', 't', 'f', '"', '[', '\x7b'],
      ¬ (d = ' ' || d = '\t' || d = '\n' || d = '\r') = true := by simp
  exact List.dropWhile_cons_of_neg (hblank c hc)

/-- Given the text and whatever is behind it, the reader comes to the value and leaves what is behind. -/
structure Reads (cs : List Char) (x : Datum) : Prop where
  begins : Begins cs
  value : ∀ n rest, 2 * cs.length ≤ n → value n (cs ++ rest) = .ok (x, rest)

section
variable {n : Nat} {b c cs rest : List Char}

theorem value_list (hb : Blank b) (h : Begins cs) :
    value (n + 1) ('[' :: (b ++ cs)) = elements n [] cs := by
  rw [value, skipBlanks_append hb, h.skipBlanks]
  obtain ⟨d, ds, rfl, hd⟩ := h
  split
  · simp_all
  · rfl

theorem value_dict (hb : Blank b) (h : Begins cs) :
    value (n + 1) ('\x7b' :: (b ++ cs)) = members n [] cs := by
  rw [value, skipBlanks_append hb, h.skipBlanks]
  obtain ⟨d, ds, rfl, hd⟩ := h
  split
  · simp_all
  · rfl

theorem begins_intercalate {sep : List Char} {css : List (List Char)} (h : Begins cs) :
    Begins (sep.intercalate (cs :: css)) := by
  cases css with
  | nil => simpa using h
  | cons ds css =>
    rw [List.intercalate_cons_cons, List.append_assoc]
    exact h.append _

theorem elements_intercalate {f : Datum → List Char} (hb : Blank b) (hc : Blank c) (xs : List Datum)
    {x : Datum} {acc : List Datum} (h : ∀ y ∈ x :: xs, Reads (f y) y)
    (hn : 2 * ((',' :: b).intercalate ((x :: xs).map f)).length < n) :
    elements n acc ((',' :: b).intercalate ((x :: xs).map f) ++ (c ++ ']' :: rest)) =
      .ok (.list (acc.reverse ++ x :: xs), rest) := by
  induction xs generalizing x acc n with
  | nil =>
    have hx := h x (List.mem_singleton_self x)
    rw [List.map_cons, List.map_nil, List.intercalate_singleton] at hn ⊢
    obtain ⟨m, rfl⟩ : ∃ m, n = m + 1 := ⟨n - 1, by omega⟩
    rw [elements, hx.value m _ (by omega)]
    simp only [skipBlanks_append hc]
    simp [skipBlanks]
  | cons y ys ih =>
    obtain ⟨hx, hys⟩ := List.forall_mem_cons.1 h
    rw [List.map_cons, List.map_cons, List.intercalate_cons_cons, ← List.map_cons] at hn ⊢
    rw [List.length_append, List.length_append, List.length_cons] at hn
    obtain ⟨m, rfl⟩ : ∃ m, n = m + 1 := ⟨n - 1, by omega⟩
    rw [List.append_assoc, List.append_assoc, elements, hx.value m _ (by omega)]
    have hbegins : Begins ((',' :: b).intercalate ((y :: ys).map f)) :=
      begins_intercalate (hys y List.mem_cons_self).begins
    have hcomma : skipBlanks (',' :: b ++ ((',' :: b).intercalate ((y :: ys).map f) ++ (c ++ ']' :: rest))) =
        ',' :: (b ++ ((',' :: b).intercalate ((y :: ys).map f) ++ (c ++ ']' :: rest))) := rfl
    simp only [hcomma, skipBlanks_append hb, (hbegins.append _).skipBlanks]
    rw [ih hys (by omega), List.reverse_cons, List.append_assoc, List.singleton_append]

/-- The text of an entry, with that of its value by `f`. -/
def entryText (f : Datum → List Char) (e : String × Datum) : List Char :=
  (writtenText e.1).toList ++ (':' :: ' ' :: f e.2)

theorem begins_entryText (f : Datum → List Char) (e : String × Datum) : Begins (entryText f e) := by
  rw [entryText, toList_writtenText]
  exact ⟨'"', _, rfl, by simp⟩

/-- The reading of a dictionary behind one of its entries: there are others, or this was the last. -/
def behindEntry (n : Nat) (acc : List (String × Datum)) (cs : List Char) : Taken :=
  match skipBlanks cs with
  | ',' :: cs => members n acc (skipBlanks cs)
  | '\x7d' :: cs => .ok (.dict acc, cs)
  | _ => .error .malformedFile

theorem members_entryText {f : Datum → List Char} {e : String × Datum} {acc : List (String × Datum)}
    (he : Reads (f e.2) e.2) (hn : 2 * (f e.2).length ≤ n) :
    members (n + 1) acc (entryText f e ++ cs) = behindEntry n (Datum.insert acc e.1 e.2) cs := by
  have hblank : Blank [' '] := fun _ h => .inl (List.mem_singleton.1 h)
  have hvalue : skipBlanks (' ' :: (f e.2 ++ cs)) = f e.2 ++ cs := by
    rw [← List.singleton_append, skipBlanks_append hblank, (he.begins.append cs).skipBlanks]
  have hcolon : skipBlanks (':' :: ' ' :: (f e.2 ++ cs)) = ':' :: ' ' :: (f e.2 ++ cs) := rfl
  rw [entryText, List.append_assoc, toList_writtenText, members, List.cons_append, List.cons_append,
    string?_flatMap]
  simp only [hcolon, hvalue, he.value n cs hn]
  rfl

theorem members_intercalate {f : Datum → List Char} (hb : Blank b) (hc : Blank c) (es : List (String × Datum))
    {e : String × Datum} {acc : List (String × Datum)} (h : ∀ d ∈ e :: es, Reads (f d.2) d.2)
    (hkeys : ((acc ++ e :: es).map Prod.fst).Nodup)
    (hn : 2 * ((',' :: b).intercalate ((e :: es).map (entryText f))).length < n) :
    members n acc ((',' :: b).intercalate ((e :: es).map (entryText f)) ++ (c ++ '\x7d' :: rest)) =
      .ok (.dict (acc ++ e :: es), rest) := by
  have hlength : ∀ d, (f d.2).length ≤ (entryText f d).length := fun d => by
    simp only [entryText, List.length_append, List.length_cons]
    omega
  induction es generalizing e acc n with
  | nil =>
    have he := h e (List.mem_singleton_self e)
    rw [List.map_cons, List.map_nil, List.intercalate_singleton] at hn ⊢
    obtain ⟨m, rfl⟩ : ∃ m, n = m + 1 := ⟨n - 1, by omega⟩
    have := hlength e
    rw [members_entryText he (by omega), Datum.insert_of_nodup hkeys, behindEntry, skipBlanks_append hc]
    rfl
  | cons d ds ih =>
    obtain ⟨he, hds⟩ := List.forall_mem_cons.1 h
    rw [List.map_cons, List.map_cons, List.intercalate_cons_cons, ← List.map_cons] at hn ⊢
    rw [List.length_append, List.length_append, List.length_cons] at hn
    obtain ⟨m, rfl⟩ : ∃ m, n = m + 1 := ⟨n - 1, by omega⟩
    have := hlength e
    rw [List.append_assoc, List.append_assoc, members_entryText he (by omega), Datum.insert_of_nodup hkeys,
      behindEntry]
    have hbegins : Begins ((',' :: b).intercalate ((d :: ds).map (entryText f))) :=
      begins_intercalate (begins_entryText f d)
    have hcomma : skipBlanks (',' :: b ++ ((',' :: b).intercalate ((d :: ds).map (entryText f)) ++
        (c ++ '\x7d' :: rest))) = ',' :: (b ++ ((',' :: b).intercalate ((d :: ds).map (entryText f)) ++
        (c ++ '\x7d' :: rest))) := rfl
    rw [List.append_cons] at hkeys
    simp only [hcomma, skipBlanks_append hb, (hbegins.append _).skipBlanks]
    rw [ih hds hkeys (by omega), List.append_assoc, List.singleton_append]

end

theorem writeAll_eq (indent : Option Nat) (xs : List Datum) : writeAll indent xs = xs.map (write indent) := by
  induction xs with
  | nil => rfl
  | cons x xs ih => rw [writeAll, ih, List.map_cons]

theorem writeEntries_eq (indent : Option Nat) (es : List (String × Datum)) :
    writeEntries indent es = es.map fun e => writtenText e.1 ++ ": " ++ write indent e.2 := by
  induction es with
  | nil => rfl
  | cons e es ih => rw [writeEntries, ih, List.map_cons]

theorem word_append (w : String) (x : Datum) (rest : List Char) :
    word w x (w.toList ++ rest) = .ok (x, rest) := by
  have hdrop : (w.toList ++ rest).drop w.length = rest := List.drop_left' String.length_toList
  rw [word, if_pos (List.isPrefixOf_iff_prefix.2 (List.prefix_append _ _)), hdrop]

theorem reads_scalar {c : Char} {cs : List Char} {x : Datum} (hc : c ∈ ['n', 't', 'f', '"'])
    (h : ∀ rest, scalar (c :: cs ++ rest) = .ok (x, rest)) : Reads (c :: cs) x where
  begins := ⟨c, cs, rfl, List.mem_append_left ['[', '\x7b'] hc⟩
  value n rest hn := by
    obtain ⟨m, rfl⟩ : ∃ m, n = m + 1 := ⟨n - 1, by simp at hn; omega⟩
    rw [List.cons_append, value, ← List.cons_append, h rest]
    · rintro _ ⟨⟩
      simp at hc
    · rintro _ ⟨⟩
      simp at hc

theorem reads_list {f : Datum → String} (indent : Option Nat) {xs : List Datum}
    (h : ∀ x ∈ xs, Reads (f x).toList x) : Reads (bracketed indent "[" "]" (xs.map f)).toList (.list xs) := by
  cases xs with
  | nil =>
    have htext : (bracketed indent "[" "]" []).toList = ['[', ']'] := by simp [bracketed]
    rw [List.map_nil, htext]
    refine ⟨⟨'[', [']'], rfl, by decide⟩, fun n rest hn => ?_⟩
    obtain ⟨m, rfl⟩ : ∃ m, n = m + 1 := ⟨n - 1, by simp at hn; omega⟩
    rfl
  | cons x xs =>
    obtain ⟨a, b, c, ha, hb, hc, htext⟩ :=
      exists_bracketed indent "[" "]" f (List.cons_ne_nil x xs)
    have hbegins : Begins ((',' :: b).intercalate ((x :: xs).map fun y => (f y).toList)) :=
      begins_intercalate (h x List.mem_cons_self).begins
    rw [htext]
    refine ⟨⟨'[', _, rfl, by decide⟩, fun n rest hn => ?_⟩
    simp only [List.length_append] at hn
    obtain ⟨m, rfl⟩ : ∃ m, n = m + 1 := ⟨n - 1, by simp at hn; omega⟩
    have hread := value_list (n := m) ha (hbegins.append (c ++ ']' :: rest))
    rw [elements_intercalate hb hc xs h (by simp at hn ⊢; omega)] at hread
    simpa using hread

theorem reads_dict {f : Datum → String} (indent : Option Nat) {es : List (String × Datum)}
    (hkeys : (es.map Prod.fst).Nodup) (h : ∀ e ∈ es, Reads (f e.2).toList e.2) :
    Reads (bracketed indent "\x7b" "\x7d" (es.map fun e => writtenText e.1 ++ ": " ++ f e.2)).toList
      (.dict es) := by
  cases es with
  | nil =>
    have htext : (bracketed indent "\x7b" "\x7d" []).toList = ['\x7b', '\x7d'] := by simp [bracketed]
    rw [List.map_nil, htext]
    refine ⟨⟨'\x7b', ['\x7d'], rfl, by decide⟩, fun n rest hn => ?_⟩
    obtain ⟨m, rfl⟩ : ∃ m, n = m + 1 := ⟨n - 1, by simp at hn; omega⟩
    rfl
  | cons e es =>
    have hentry : (fun e : String × Datum => (writtenText e.1 ++ ": " ++ f e.2).toList) =
        entryText fun x => (f x).toList := funext fun e => by simp [entryText]
    obtain ⟨a, b, c, ha, hb, hc, htext⟩ := exists_bracketed indent "\x7b" "\x7d"
      (fun e : String × Datum => writtenText e.1 ++ ": " ++ f e.2) (List.cons_ne_nil e es)
    rw [hentry] at htext
    have hbegins : Begins ((',' :: b).intercalate ((e :: es).map (entryText fun x => (f x).toList))) :=
      begins_intercalate (begins_entryText _ e)
    rw [htext]
    refine ⟨⟨'\x7b', _, rfl, by decide⟩, fun n rest hn => ?_⟩
    simp only [List.length_append] at hn
    obtain ⟨m, rfl⟩ : ∃ m, n = m + 1 := ⟨n - 1, by simp at hn; omega⟩
    have hread := value_dict (n := m) ha (hbegins.append (c ++ '\x7d' :: rest))
    rw [members_intercalate hb hc es h hkeys (by simp at hn ⊢; omega)] at hread
    simpa using hread

/-- Whatever the layout and its level, the text of plain data is read as the data. -/
theorem reads_write {x : Datum} (h : x.Plain) (indent : Option Nat) : Reads (write indent x).toList x := by
  induction h generalizing indent with
  | null =>
    have htext : (write indent .null).toList = ['n', 'u', 'l', 'l'] := by simp [write]
    exact htext ▸ reads_scalar (by decide) fun rest => by simpa [scalar] using word_append "null" .null rest
  | bool b =>
    cases b with
    | true =>
      have htext : (write indent (.bool true)).toList = ['t', 'r', 'u', 'e'] := by simp [write]
      exact htext ▸ reads_scalar (by decide) fun rest => by
        simpa [scalar] using word_append "true" (.bool true) rest
    | false =>
      have htext : (write indent (.bool false)).toList = ['f', 'a', 'l', 's', 'e'] := by simp [write]
      exact htext ▸ reads_scalar (by decide) fun rest => by
        simpa [scalar] using word_append "false" (.bool false) rest
  | text s =>
    have hs := toList_writtenText s []
    rw [List.append_nil] at hs
    rw [write, hs]
    refine reads_scalar (by decide) fun rest => ?_
    rw [List.cons_append, List.append_assoc, List.singleton_append, scalar, string?_flatMap]
    rfl
  | list _ ih =>
    rw [write, writeAll_eq]
    exact reads_list indent fun x hx => ih x hx (indent.map (· + 1))
  | dict hkeys _ ih =>
    rw [write, writeEntries_eq]
    exact reads_dict indent hkeys fun e he => ih e he (indent.map (· + 1))

/-- Reading undoes writing. -/
theorem read_write {x : Datum} (h : x.Plain) (indent : Option Nat) : read (write indent x) = .ok x := by
  have hreads := reads_write h indent
  have hvalue := hreads.value (2 * (write indent x).toList.length + 2) [] (Nat.le_add_right _ 2)
  rw [List.append_nil] at hvalue
  rw [read]
  simp only [hreads.begins.skipBlanks, hvalue]
  rfl

end Json
end ProofSearch
