import ProofSearch.Datum.Shape
import ProofSearch.Proofs.Json.RoundTrip
import ProofSearch.Proofs.Rounds.Conservative
import ProofSearch.Store.Encoding

/-!
# Encoded terms and stores come back

Decoding undoes the encoding of a term (`Term.decode_encode`), so a store comes back from its encoding as it was,
and from the file that it was saved to. The decoder takes more than the encoder gives: a text or a dictionary
in place of a list, and keys besides `_fn`. What the encoder gives is data of one shape (`Datum.Canonical`),
and of what the decoder takes only this is encoded as it was (`Datum.decode_encode_iff`).
-/

namespace ProofSearch

namespace Datum

/-- A text, or a dictionary with `_fn` alone for its key and for its value a list of such data. -/
inductive Canonical : Datum → Prop
  | text (s : String) : Canonical (.text s)
  | tuple {xs : List Datum} (hxs : ∀ x ∈ xs, x.Canonical) : Canonical (.dict [("_fn", .list xs)])

theorem Canonical.plain {x : Datum} (h : x.Canonical) : x.Plain := by
  induction h with
  | text s => exact .text s
  | tuple _ ih =>
    refine .dict (by simp) fun e he => ?_
    rw [List.mem_singleton.1 he]
    exact .list ih

mutual
/-- The value, and what stands in it where tuples alone are gone into, from left to right. -/
def components : Datum → List Datum
  | tuple xs => tuple xs :: componentsAll xs
  | x => [x]
def componentsAll : List Datum → List Datum
  | [] => []
  | x :: xs => x.components ++ componentsAll xs
end

/-- Neither a text nor a tuple. -/
def isForeign : Datum → Bool
  | text _ | tuple _ => false
  | _ => true

end Datum

/-! ### Terms -/

namespace Term

theorem encodeAll_eq (ts : List Term) : encodeAll ts = ts.map encode := by
  induction ts with
  | nil => rfl
  | cons t ts ih => rw [encodeAll, ih, List.map_cons]

theorem toDatumAll_eq (ts : List Term) : toDatumAll ts = ts.map toDatum := by
  induction ts with
  | nil => rfl
  | cons t ts ih => rw [toDatumAll, ih, List.map_cons]

theorem encode_ofText (s : String) : (ofText s).encode = .text s := by
  unfold ofText
  split <;> rfl

theorem toDatum_ofText (s : String) : (ofText s).toDatum = .text s := by
  unfold ofText
  split <;> rfl

theorem canonical_encode (t : Term) : t.encode.Canonical := by
  induction t using Term.induction with
  | var v => exact .text v.text
  | sym s => exact .text s.text
  | tuple ts ih =>
    rw [encode, encodeAll_eq]
    exact .tuple (List.forall_mem_map.2 ih)

theorem decodeAll_map_encode {ts : List Term} (h : ∀ t ∈ ts, t.encode.decode = .ok t) :
    Datum.decodeAll (ts.map encode) = .ok ts := by
  induction ts with
  | nil => rfl
  | cons t ts ih =>
    obtain ⟨ht, hts⟩ := List.forall_mem_cons.1 h
    rw [List.map_cons, Datum.decodeAll, ht, ih hts]
    rfl

/-- Decoding undoes encoding. -/
theorem decode_encode (t : Term) : t.encode.decode = .ok t := by
  induction t using Term.induction with
  | var v => exact congrArg Except.ok (ofText_var v)
  | sym s => exact congrArg Except.ok (ofText_sym s)
  | tuple ts ih =>
    rw [encode, encodeAll_eq, Datum.decode, Datum.decodeField, if_pos rfl, Datum.decodeMany,
      decodeAll_map_encode ih]
    rfl

end Term

/-! ### Data -/

namespace Datum

theorem decodeAll_of_canonical {xs : List Datum} (h : ∀ x ∈ xs, ∃ t, x.decode = .ok t ∧ t.encode = x) :
    ∃ ts, decodeAll xs = .ok ts ∧ ts.map Term.encode = xs := by
  induction xs with
  | nil => exact ⟨[], rfl, rfl⟩
  | cons x xs ih =>
    obtain ⟨hx, hxs⟩ := List.forall_mem_cons.1 h
    obtain ⟨t, ht, hencode⟩ := hx
    obtain ⟨ts, hts, hmap⟩ := ih hxs
    refine ⟨t :: ts, ?_, by rw [List.map_cons, hencode, hmap]⟩
    rw [decodeAll, ht, hts]
    rfl

/-- What is decoded is encoded as it was just where it is canonical. -/
theorem decode_encode_iff (x : Datum) : (∃ t, x.decode = .ok t ∧ t.encode = x) ↔ x.Canonical := by
  constructor
  · rintro ⟨t, _, rfl⟩
    exact t.canonical_encode
  · intro h
    induction h with
    | text s => exact ⟨.ofText s, rfl, Term.encode_ofText s⟩
    | tuple _ ih =>
      obtain ⟨ts, hts, hmap⟩ := decodeAll_of_canonical ih
      refine ⟨.tuple ts, ?_, by rw [Term.encode, Term.encodeAll_eq, hmap]⟩
      rw [decode, decodeField, if_pos rfl, decodeMany, hts]
      rfl

mutual
/-- The encoding fails on the first component that is neither a text nor a tuple, and on nothing else. -/
theorem encode_eq_error (e : Fault) :
    ∀ x : Datum, x.encode = .error e ↔ (x.components.find? isForeign).map .noEncoding = some e
  | text s => by simp [encode, components, isForeign]
  | tuple xs => by
    have hxs := encodeAll_eq_error e xs
    rw [components, List.find?_cons_of_neg (by simp [isForeign]), ← hxs, encode]
    cases encodeAll xs <;> simp [Except.map]
  | null => by simp [encode, components, isForeign]
  | bool b => by simp [encode, components, isForeign]
  | int i => by simp [encode, components, isForeign]
  | float f => by simp [encode, components, isForeign]
  | list xs => by simp [encode, components, isForeign]
  | dict es => by simp [encode, components, isForeign]
theorem encodeAll_eq_error (e : Fault) :
    ∀ xs : List Datum, encodeAll xs = .error e ↔ ((componentsAll xs).find? isForeign).map .noEncoding = some e
  | [] => by simp [encodeAll, componentsAll]
  | x :: xs => by
    have hx := fun e => encode_eq_error e x
    have hxs := encodeAll_eq_error e xs
    rw [componentsAll, List.find?_append, encodeAll]
    cases h : x.components.find? isForeign with
    | some y =>
      rw [(hx _).2 (congrArg _ h)]
      simp
    | none =>
      cases hencode : x.encode with
      | error e' => rw [hx e', h] at hencode; cases hencode
      | ok y =>
        rw [Option.none_or, ← hxs]
        cases encodeAll xs <;> simp [Except.map]
end

mutual
theorem exists_of_encode : ∀ {x y : Datum}, x.encode = .ok y → ∃ t : Term, t.toDatum = x ∧ t.encode = y
  | text s, y, h => by
    rw [encode, Except.ok.injEq] at h
    exact ⟨.ofText s, Term.toDatum_ofText s, h ▸ Term.encode_ofText s⟩
  | tuple xs, y, h => by
    rw [encode] at h
    cases hxs : encodeAll xs with
    | error e => rw [hxs] at h; cases h
    | ok ys =>
      rw [hxs] at h
      obtain ⟨ts, hts, hmap⟩ := exists_of_encodeAll hxs
      refine ⟨.tuple ts, by rw [Term.toDatum, Term.toDatumAll_eq, hts], ?_⟩
      rw [Term.encode, Term.encodeAll_eq, hmap]
      exact Except.ok.inj h
  | null, _, h => by cases h
  | bool b, _, h => by cases h
  | int i, _, h => by cases h
  | float f, _, h => by cases h
  | list xs, _, h => by cases h
  | dict es, _, h => by cases h
theorem exists_of_encodeAll : ∀ {xs ys : List Datum}, encodeAll xs = .ok ys →
    ∃ ts : List Term, ts.map Term.toDatum = xs ∧ ts.map Term.encode = ys
  | [], ys, h => ⟨[], rfl, Except.ok.inj h⟩
  | x :: xs, ys, h => by
    rw [encodeAll] at h
    cases hx : x.encode with
    | error e => rw [hx] at h; cases h
    | ok y =>
      cases hxs : encodeAll xs with
      | error e => rw [hx, hxs] at h; cases h
      | ok ys' =>
        rw [hx, hxs] at h
        obtain ⟨t, rfl, rfl⟩ := exists_of_encode hx
        obtain ⟨ts, rfl, rfl⟩ := exists_of_encodeAll hxs
        exact ⟨t :: ts, rfl, Except.ok.inj h⟩
end

theorem encodeAll_map_toDatum {ts : List Term} (h : ∀ t ∈ ts, t.toDatum.encode = .ok t.encode) :
    encodeAll (ts.map Term.toDatum) = .ok (ts.map Term.encode) := by
  induction ts with
  | nil => rfl
  | cons t ts ih =>
    obtain ⟨ht, hts⟩ := List.forall_mem_cons.1 h
    rw [List.map_cons, encodeAll, ht, ih hts]
    rfl

theorem encode_toDatum (t : Term) : t.toDatum.encode = .ok t.encode := by
  induction t using Term.induction with
  | var v => rfl
  | sym s => rfl
  | tuple ts ih =>
    rw [Term.toDatum, Term.toDatumAll_eq, encode, encodeAll_map_toDatum ih, Term.encode, Term.encodeAll_eq]
    rfl

/-- What has an encoding are the terms, and it is theirs. -/
theorem encode_eq_ok (x y : Datum) : x.encode = .ok y ↔ ∃ t : Term, t.toDatum = x ∧ t.encode = y := by
  refine ⟨exists_of_encode, ?_⟩
  rintro ⟨t, rfl, rfl⟩
  exact encode_toDatum t

end Datum

/-! ### Stores -/

namespace Store

theorem mapM_check_terms (js : List Judgment) : (js.map Judgment.term).mapM Judgment.check = .ok js := by
  induction js with
  | nil => rfl
  | cons j js ih =>
    rw [List.map_cons, List.mapM_cons, Judgment.check_term, ih]
    rfl

theorem ofTerms_terms (s : Store) : ofTerms s.name s.terms = .ok s := by
  rw [ofTerms, terms, mapM_check_terms]
  rfl

theorem ofDatum_toDatum (s : Store) : ofDatum s.toDatum = .ok s := by
  have hterms := Term.decodeAll_map_encode fun t (_ : t ∈ s.terms) => t.decode_encode
  have hjudgments : Datum.get? [("name", s.name), ("judgments", .list (s.terms.map Term.encode))] "judgments" =
      some (.list (s.terms.map Term.encode)) := rfl
  rw [toDatum, ofDatum]
  simp only [hjudgments, Datum.decodeMany, hterms]
  exact s.ofTerms_terms

theorem plain_toDatum {s : Store} (h : s.name.Plain) : s.toDatum.Plain := by
  have hjudgments : (Datum.list (s.terms.map Term.encode)).Plain :=
    .list (List.forall_mem_map.2 fun t _ => t.canonical_encode.plain)
  refine .dict (by simp) ?_
  exact List.forall_mem_cons.2 ⟨h, List.forall_mem_singleton.2 hjudgments⟩

theorem ofText_toText {s : Store} (h : s.name.Plain) : ofText s.toText = .ok s := by
  rw [ofText, toText, Json.read_write (plain_toDatum h)]
  exact ofDatum_toDatum s

/-- If the store can be saved at all, what is loaded by the same path is the store. -/
theorem load_of_write {s : Store} (h : s.name.Plain) (d : Directory) (path : String) :
    ((d.write path s.toText).bind fun files => load files path) = (d.write path s.toText).map fun _ => s := by
  cases hd : d.write path s.toText with
  | error e => rfl
  | ok files =>
    show load files path = .ok s
    rw [load, Directory.read_of_write hd, Except.bind]
    exact ofText_toText h

/-- By the name of a file every such store is saved, and loaded again. -/
theorem exists_load_of_isFileName {s : Store} (h : s.name.Plain) {path : String}
    (hpath : Directory.IsFileName path) (d : Directory) :
    ∃ files, d.write path s.toText = .ok files ∧ load files path = .ok s := by
  have hwrite := Directory.write_of_isFileName hpath d s.toText
  have hload := load_of_write h d path
  rw [hwrite] at hload
  exact ⟨_, hwrite, hload⟩

/-- A store comes back from its encoding, and from a file, into which it goes under any name that a file can
have; a value has an encoding unless some component of it is neither a text nor a tuple, and the first such is
what is reported; a term comes back from its encoding; and data is encoded as it was just where it is
canonical. -/
theorem encoding_roundTrip :
    (∀ s : Store, ofDatum s.toDatum = .ok s) ∧
    (∀ (x : Datum) (e : Fault), x.encode = .error e ↔
      ∃ y, x.components.find? Datum.isForeign = some y ∧ .noEncoding y = e) ∧
    (∀ x y : Datum, x.encode = .ok y ↔ ∃ t : Term, t.toDatum = x ∧ t.encode = y) ∧
    (∀ t : Term, t.encode.decode = .ok t) ∧
    (∀ x : Datum, (∃ t, x.decode = .ok t ∧ t.encode = x) ↔ x.Canonical) ∧
    (∀ (name : String) (js : List Judgment) (d : Directory) (path : String),
      let s : Store := ⟨.text name, js⟩
      ((d.write path s.toText).bind fun files => load files path) = (d.write path s.toText).map fun _ => s) ∧
    (∀ (name : String) (js : List Judgment) (d : Directory) (path : String), Directory.IsFileName path →
      let s : Store := ⟨.text name, js⟩
      ∃ files, d.write path s.toText = .ok files ∧ load files path = .ok s) := by
  refine ⟨ofDatum_toDatum, fun x e => ?_, Datum.encode_eq_ok, Term.decode_encode, Datum.decode_encode_iff,
    fun name js d path => load_of_write (.text name) d path,
    fun name js d path hpath => exists_load_of_isFileName (.text name) hpath d⟩
  rw [Datum.encode_eq_error, Option.map_eq_some_iff]

/-- The store with the empty tuple for its one theorem, put into `kb.json`. -/
theorem encoding_roundTrip_kb :
    let s : Store := ⟨.text "kb", [⟨.ofText "a", .tuple []⟩]⟩
    Directory.IsFileName "kb.json" ∧
    ∃ files, Directory.write [] "kb.json" s.toText = .ok files ∧ load files "kb.json" = .ok s := by
  have hpath : Directory.IsFileName "kb.json" := by decide +kernel
  obtain ⟨-, -, -, -, -, -, hsave⟩ := encoding_roundTrip
  exact ⟨hpath, hsave "kb" _ [] "kb.json" hpath⟩

end Store
end ProofSearch
