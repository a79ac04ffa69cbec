import ProofSearch.Proofs.Search.Returns

/-!
# Moments of a search

Consuming a search is a row of its acts, with whatever the takers of its alternatives draw between them. A
moment is where that row may be broken off: `ComesTo` says which alternatives were given on the way, which
judgments were put into the store and in which order, and what is left to be consumed. What is ensured of the
search is ensured of what is left (`Ensures.comesTo`), so a failure that is met there is one of those allowed.
-/

namespace ProofSearch.Search
variable {ν α : Type} {F : Fault → Prop} {I : List Judgment → Prop} {P : World → α → Prop} {w w' : World}
variable {t u : Search ν α} {as : List α} {js : List Judgment}

/-- Consuming `t` from `w` gives the alternatives `as` and puts the judgments `js` into the store, one after
the other, until `u` is left in the world `w'`. While an alternative is with whoever took it, numbers may be
drawn. -/
inductive ComesTo : Search ν α → World → List α → List Judgment → Search ν α → World → Prop
  | here {t : Search ν α} {w : World} : ComesTo t w [] [] t w
  | give {a : α} {k : Unit → Search ν α} {w w' : World} {as : List α} {js : List Judgment}
      {u : Search ν α} {m : Nat} (hm : w.drawn ≤ m) :
      ComesTo (k ()) { w with drawn := m } as js u w' → ComesTo (give a k) w (a :: as) js u w'
  | draw {k : Nat → Search ν α} {w w' : World} {as : List α} {js : List Judgment} {u : Search ν α} :
      ComesTo (k w.drawn) { w with drawn := w.drawn + 1 } as js u w' → ComesTo (draw k) w as js u w'
  | look {k : List Judgment → Search ν α} {w w' : World} {as : List α} {js : List Judgment}
      {u : Search ν α} : ComesTo (k w.judgments) w as js u w' → ComesTo (look k) w as js u w'
  | add {j : Judgment} {k : Unit → Search ν α} {w w' : World} {as : List α} {js : List Judgment}
      {u : Search ν α} : ComesTo (k ()) { w with judgments := w.judgments ++ [j] } as js u w' →
      ComesTo (add j k) w as (j :: js) u w'
  | note {x : ν} {k : Unit → Search ν α} {w w' : World} {as : List α} {js : List Judgment}
      {u : Search ν α} : ComesTo (k ()) w as js u w' → ComesTo (note x k) w as js u w'

theorem Consumed.exists_comesTo (h : t.Consumed w as w') : ∃ js u, t.ComesTo w as js u w' := by
  induction h with
  | here => exact ⟨[], _, .here⟩
  | give hm _ ih =>
    obtain ⟨js, u, h⟩ := ih
    exact ⟨js, u, .give hm h⟩
  | draw _ ih =>
    obtain ⟨js, u, h⟩ := ih
    exact ⟨js, u, .draw h⟩
  | look _ ih =>
    obtain ⟨js, u, h⟩ := ih
    exact ⟨js, u, .look h⟩
  | @add j _ _ _ _ _ ih =>
    obtain ⟨js, u, h⟩ := ih
    exact ⟨j :: js, u, .add h⟩
  | note _ ih =>
    obtain ⟨js, u, h⟩ := ih
    exact ⟨js, u, .note h⟩

namespace ComesTo

/-- The store is the one there was, with what was put in behind it. -/
theorem judgments_eq (h : t.ComesTo w as js u w') : w'.judgments = w.judgments ++ js := by
  induction h with
  | here => exact (List.append_nil _).symm
  | give _ _ ih => exact ih
  | draw _ ih => exact ih
  | look _ ih => exact ih
  | add _ ih => rw [ih, List.append_assoc, List.singleton_append]
  | note _ ih => exact ih

theorem growsTo (h : t.ComesTo w as js u w') : w.GrowsTo w' := by
  refine ⟨?_, h.judgments_eq ▸ List.prefix_append _ _⟩
  induction h with
  | here => exact Nat.le_refl _
  | give hm _ ih => exact hm.trans ih
  | draw _ ih => exact (Nat.le_succ _).trans ih
  | look _ ih => exact ih
  | add _ ih => exact ih
  | note _ ih => exact ih

end ComesTo

/-- At every moment the store is as the invariant says, what was ensured of the search is ensured of what is
left of it, and each alternative that was given was as `P` says in the world it was given in. -/
theorem Ensures.comesTo (h : t.Ensures F I P w) (hI : I w.judgments) (ht : t.ComesTo w as js u w') :
    u.Ensures F I P w' ∧ I w'.judgments ∧ ∀ a ∈ as, ∃ w₁ : World, w₁.GrowsTo w' ∧ P w₁ a := by
  induction ht with
  | here => exact ⟨h, hI, fun a ha => absurd ha List.not_mem_nil⟩
  | @give a k w w' as js u m hm hk ih =>
    obtain ⟨hu, hstore, has⟩ := ih (h.2 _ ⟨hm, List.prefix_rfl⟩ hI) hI
    have hgrows : w.GrowsTo w' := (World.GrowsTo.raise w hm).trans hk.growsTo
    exact ⟨hu, hstore, List.forall_mem_cons.2 ⟨⟨w, hgrows, h.1⟩, has⟩⟩
  | draw _ ih => exact ih h hI
  | look _ ih => exact ih h hI
  | add _ ih => exact ih h.2 h.1
  | note _ ih => exact ih h hI

theorem Ensures.of_fail {e : Fault} (h : t.Ensures F I P w) (hI : I w.judgments)
    (ht : t.ComesTo w as js (fail e) w') : F e := (h.comesTo hI ht).1

/-- Behind the one alternative nothing is put into the store, so it is as `P` says with the store there is. -/
theorem Returns.of_given (h : t.Returns F I P w) (ht : t.ComesTo w as js u w') {a : α} (ha : a ∈ as) :
    ∃ m ≤ w'.drawn, P ⟨w'.judgments, m⟩ a := by
  induction ht with
  | here => exact absurd ha List.not_mem_nil
  | @give a k w w' as js u m hm hk _ =>
    obtain ⟨ha', hdone⟩ := h
    rw [hdone] at hk
    cases hk
    rw [List.mem_singleton.1 ha]
    exact ⟨w.drawn, hm, ha'⟩
  | draw _ ih => exact ih h ha
  | look _ ih => exact ih h ha
  | add _ ih => exact ih h.2 ha
  | note _ ih => exact ih h ha

/-- A search that only looks puts nothing into the store. -/
theorem Always.comesTo {p : Nat → α → Prop} (h : t.Always w.judgments F p w.drawn)
    (ht : t.ComesTo w as js u w') : js = [] ∧ u.Always w'.judgments F p w'.drawn := by
  induction ht with
  | here => exact ⟨rfl, h⟩
  | give hm _ ih => exact ih (h.2 _ hm)
  | draw _ ih => exact ih h
  | look _ ih => exact ih h
  | add _ _ => exact h.elim
  | note _ ih => exact ih h

end ProofSearch.Search
