import Mathlib.Data.List.Nodup
import Mathlib.Data.Set.Insert
import ProofSearch.Proofs.Redraw

/-!
# Scopes of bound symbols

In a proof a triple `(λ x body)` binds `x` in `body`, wherever it stands. Where the abstractions of a proof
bind symbols, each another one, a symbol that one of them binds and that is not free stands in the body of
that abstraction and nowhere else (`count_syms_eq`). What a search puts together are proofs that have no
variable, take their free symbols from those in scope, and bind symbols of draws that are their own
(`Scoped`); so applications and abstractions are made of parts without a clash.
-/

namespace ProofSearch.Term
variable {c : Sym} {t u x body : Term} {ts : List Term}

mutual
/-- The symbols that stand free, from left to right. -/
def freeSyms : Term → List Sym
  | var _ => []
  | sym c => [c]
  | tuple [sym s, x, body] =>
    if s = .lambda then body.freeSyms.filter (sym · ≠ x) else s :: (x.freeSyms ++ body.freeSyms)
  | tuple ts => freeSymsAll ts
def freeSymsAll : List Term → List Sym
  | [] => []
  | t :: ts => t.freeSyms ++ freeSymsAll ts
end

mutual
/-- What the abstractions in the term bind, once for each of them. -/
def binders : Term → List Term
  | var _ | sym _ => []
  | tuple ts => ((tuple ts).abstraction?.map Prod.fst).toList ++ bindersAll ts
def bindersAll : List Term → List Term
  | [] => []
  | t :: ts => t.binders ++ bindersAll ts
end

theorem freeSymsAll_eq (ts : List Term) : freeSymsAll ts = ts.flatMap freeSyms := by
  induction ts with
  | nil => rfl
  | cons t ts ih => simp [freeSymsAll, ih]

theorem bindersAll_eq (ts : List Term) : bindersAll ts = ts.flatMap binders := by
  induction ts with
  | nil => rfl
  | cons t ts ih => simp [bindersAll, ih]

@[simp] theorem freeSyms_abstraction (x body : Term) :
    (abstraction x body).freeSyms = body.freeSyms.filter (sym · ≠ x) := by
  simp [abstraction, freeSyms]

theorem freeSyms_tuple (h : (tuple ts).abstraction? = none) : (tuple ts).freeSyms = ts.flatMap freeSyms := by
  rw [← freeSymsAll_eq]
  unfold freeSyms
  split
  · contradiction
  · contradiction
  · next s x body he =>
    cases he
    have hs : s ≠ .lambda := by
      intro hs
      simp [abstraction?, hs] at h
    simp [hs, freeSymsAll, freeSyms]
  · next he =>
    cases he
    rfl

@[simp] theorem binders_sym (c : Sym) : (sym c).binders = [] := rfl

@[simp] theorem binders_abstraction (x body : Term) :
    (abstraction x body).binders = x :: (x.binders ++ body.binders) := by
  rw [abstraction, binders, ← abstraction, abstraction?_abstraction]
  simp [bindersAll]

theorem binders_tuple (h : (tuple ts).abstraction? = none) : (tuple ts).binders = ts.flatMap binders := by
  rw [binders, h, ← bindersAll_eq]
  rfl

@[simp] theorem syms_sym (c : Sym) : (sym c).syms = [c] := rfl

@[simp] theorem syms_tuple (ts : List Term) : (tuple ts).syms = ts.flatMap syms := symsAll_eq ts

@[simp] theorem syms_abstraction (x body : Term) :
    (abstraction x body).syms = .lambda :: (x.syms ++ body.syms) := by
  simp [abstraction]

/-- Induction in which an abstraction is no tuple like the others. -/
theorem induction_scope {P : Term → Prop} (var : ∀ v, P (.var v)) (sym : ∀ s, P (.sym s))
    (tuple : ∀ ts, (tuple ts).abstraction? = none → (∀ t ∈ ts, P t) → P (.tuple ts))
    (abstraction : ∀ x body, P x → P body → P (abstraction x body)) (t : Term) : P t := by
  induction t using Term.induction with
  | var v => exact var v
  | sym s => exact sym s
  | tuple ts ih =>
    cases ha : (Term.tuple ts).abstraction? with
    | none => exact tuple ts ha ih
    | some p =>
      obtain ⟨x, body⟩ := p
      have ht := eq_abstraction_of_abstraction? ha
      obtain rfl : ts = [.sym .lambda, x, body] := Term.tuple.inj ht
      exact abstraction x body (ih x (by simp)) (ih body (by simp))

theorem mem_syms_of_mem_freeSyms (h : c ∈ t.freeSyms) : c ∈ t.syms := by
  induction t using induction_scope with
  | var v => cases h
  | sym s => exact h
  | tuple ts ha ih =>
    rw [freeSyms_tuple ha] at h
    obtain ⟨t, ht, hc⟩ := List.mem_flatMap.1 h
    exact mem_syms_tuple.2 ⟨t, ht, ih t ht hc⟩
  | abstraction x body _ ih =>
    rw [freeSyms_abstraction] at h
    have hc := ih (List.mem_filter.1 h).1
    simp [hc]

theorem binders_eq_nil (h : Sym.lambda ∉ t.syms) : t.binders = [] := by
  induction t using induction_scope with
  | var v => rfl
  | sym s => rfl
  | tuple ts ha ih =>
    rw [binders_tuple ha, List.flatMap_eq_nil_iff]
    exact fun t ht => ih t ht fun hl => h (mem_syms_tuple.2 ⟨t, ht, hl⟩)
  | abstraction x body => simp at h

/-! ### Where a bound symbol stands -/

/-- Every abstraction in the term binds a symbol. -/
def BindsSyms (t : Term) : Prop := ∀ b ∈ t.binders, ∃ d, b = sym d

theorem bindsSyms_tuple (ha : (tuple ts).abstraction? = none) :
    (tuple ts).BindsSyms ↔ ∀ t ∈ ts, t.BindsSyms := by
  unfold BindsSyms
  rw [binders_tuple ha]
  constructor
  · exact fun h t ht b hb => h b (List.mem_flatMap.2 ⟨t, ht, hb⟩)
  · intro h b hb
    obtain ⟨t, ht, hb⟩ := List.mem_flatMap.1 hb
    exact h t ht b hb

theorem BindsSyms.abstraction (h : (abstraction x body).BindsSyms) : (∃ d, x = sym d) ∧ body.BindsSyms := by
  unfold BindsSyms at h ⊢
  rw [binders_abstraction] at h
  obtain ⟨hx, hrest⟩ := List.forall_mem_cons.1 h
  exact ⟨hx, (List.forall_mem_append.1 hrest).2⟩

theorem mem_freeSyms_or_mem_binders (hb : t.BindsSyms) (hl : c ≠ .lambda) (h : c ∈ t.syms) :
    c ∈ t.freeSyms ∨ sym c ∈ t.binders := by
  induction t using induction_scope with
  | var v => cases h
  | sym s => exact .inl h
  | tuple ts ha ih =>
    rw [freeSyms_tuple ha, binders_tuple ha, List.mem_flatMap, List.mem_flatMap]
    obtain ⟨t, ht, hc⟩ := mem_syms_tuple.1 h
    rcases ih t ht ((bindsSyms_tuple ha).1 hb t ht) hc with hfree | hbound
    · exact .inl ⟨t, ht, hfree⟩
    · exact .inr ⟨t, ht, hbound⟩
  | abstraction x body _ ih =>
    obtain ⟨⟨d, rfl⟩, hbody⟩ := hb.abstraction
    by_cases hcd : c = d
    · right
      simp [hcd]
    · have hc : c ∈ body.syms := by simpa [hl, hcd] using h
      rcases ih hbody hc with hfree | hbound
      · left
        simp [hfree, hcd]
      · right
        simp [hbound]

theorem contains_tuple : (tuple ts).contains u = true ↔ tuple ts = u ∨ ∃ t ∈ ts, t.contains u = true := by
  simp [contains, containsAll_eq]

theorem contains_abstraction {y b : Term} : (abstraction y b).contains (abstraction x body) = true ↔
    (y = x ∧ b = body) ∨ y.contains (abstraction x body) = true ∨ b.contains (abstraction x body) = true := by
  rw [abstraction, contains_tuple]
  simp [abstraction, contains]

theorem mem_binders_of_contains (h : t.contains (abstraction x body) = true) : x ∈ t.binders := by
  induction t using induction_scope with
  | var v => simp [contains, abstraction] at h
  | sym s => simp [contains, abstraction] at h
  | tuple ts ha ih =>
    rw [binders_tuple ha, List.mem_flatMap]
    rcases contains_tuple.1 h with he | ⟨t, ht, hin⟩
    · rw [he, abstraction?_abstraction] at ha
      cases ha
    · exact ⟨t, ht, ih t ht hin⟩
  | abstraction y b ihy ihb =>
    rw [binders_abstraction]
    rcases contains_abstraction.1 h with ⟨rfl, rfl⟩ | hin | hin
    · exact List.mem_cons_self
    · exact List.mem_cons_of_mem _ (List.mem_append_left _ (ihy hin))
    · exact List.mem_cons_of_mem _ (List.mem_append_right _ (ihb hin))

theorem count_flatMap_syms_eq_zero (hb : ∀ t ∈ ts, t.BindsSyms) (hl : c ≠ .lambda)
    (hfree : ∀ t ∈ ts, c ∉ t.freeSyms) (hbound : sym c ∉ ts.flatMap binders) : (ts.flatMap syms).count c = 0 := by
  refine List.count_eq_zero_of_not_mem fun h => ?_
  obtain ⟨t, ht, hc⟩ := List.mem_flatMap.1 h
  rcases mem_freeSyms_or_mem_binders (hb t ht) hl hc with h | h
  · exact hfree t ht h
  · exact hbound (List.mem_flatMap.2 ⟨t, ht, h⟩)

/-- A symbol that one abstraction binds, and that is free nowhere, stands in its body and nowhere else. -/
theorem count_syms_eq (hb : t.BindsSyms) (hnodup : t.binders.Nodup) (hl : c ≠ .lambda)
    (hfree : c ∉ t.freeSyms) (h : t.contains (abstraction (sym c) body) = true) :
    t.syms.count c = body.syms.count c + 1 := by
  induction t using induction_scope with
  | var v => simp [contains, abstraction] at h
  | sym s => simp [contains, abstraction] at h
  | tuple ts ha ih =>
    rcases contains_tuple.1 h with he | ⟨t, ht, hin⟩
    · rw [he, abstraction?_abstraction] at ha
      cases ha
    rw [bindsSyms_tuple ha] at hb
    have hfree : ∀ t ∈ ts, c ∉ t.freeSyms := fun t ht hc =>
      hfree (by rw [freeSyms_tuple ha]; exact List.mem_flatMap.2 ⟨t, ht, hc⟩)
    rw [binders_tuple ha] at hnodup
    obtain ⟨before, after, rfl⟩ := List.append_of_mem ht
    -- what this term of the tuple binds is bound in none of the others
    have hbound := mem_binders_of_contains hin
    rw [List.flatMap_append, List.flatMap_cons] at hnodup
    obtain ⟨-, hnodup, hapart⟩ := List.nodup_append.1 hnodup
    obtain ⟨htnodup, -, htapart⟩ := List.nodup_append.1 hnodup
    have hbefore : (before.flatMap syms).count c = 0 := by
      refine count_flatMap_syms_eq_zero (fun t ht => hb t (by simp [ht])) hl
        (fun t ht => hfree t (by simp [ht])) fun hc => ?_
      exact hapart _ hc _ (List.mem_append_left _ hbound) rfl
    have hafter : (after.flatMap syms).count c = 0 := by
      refine count_flatMap_syms_eq_zero (fun t ht => hb t (by simp [ht])) hl
        (fun t ht => hfree t (by simp [ht])) fun hc => ?_
      exact htapart _ hbound _ hc rfl
    have hcount := ih t ht (hb t ht) htnodup (hfree t ht) hin
    rw [syms_tuple, List.flatMap_append, List.flatMap_cons, List.count_append, List.count_append, hbefore,
      hafter, hcount]
    omega
  | abstraction y b ihy ihb =>
    obtain ⟨⟨d, rfl⟩, hbody⟩ := hb.abstraction
    rw [binders_abstraction, binders_sym, List.nil_append, List.nodup_cons] at hnodup
    rcases contains_abstraction.1 h with ⟨hcd, rfl⟩ | hin | hin
    · simp [hcd, Ne.symm hl]
    · simp [contains, abstraction] at hin
    · have hcd : c ≠ d := by
        rintro rfl
        exact hnodup.1 (mem_binders_of_contains hin)
      have hcfree : c ∉ b.freeSyms := fun hc => hfree (by simp [hc, hcd])
      have hcount := ihb hbody hnodup.2 hcfree hin
      simp [Ne.symm hl, Ne.symm hcd, hcount]

/-! ### Proofs put together -/

/-- The terms have no variable, what stands free in them is in `C`, and they bind symbols of draws from `n`
on and below `m`, each once. -/
structure Scoped (C : Set Sym) (n m : Nat) (ts : List Term) : Prop where
  vars : ∀ t ∈ ts, t.vars = []
  ne_lambda : ∀ t ∈ ts, t ≠ sym .lambda
  free : ∀ t ∈ ts, ∀ c ∈ t.freeSyms, c ∈ C
  nodup : (ts.flatMap binders).Nodup
  drawn : ∀ b ∈ ts.flatMap binders, ∃ k, n ≤ k ∧ k < m ∧ b = sym (.drawn k)

namespace Scoped
variable {C : Set Sym} {n i m : Nat}

theorem nil (C : Set Sym) (n m : Nat) : Scoped C n m [] := by
  constructor <;> simp

/-- A proof without abstractions whose symbols are all in scope. -/
theorem of_plain (hvars : t.vars = []) (hl : Sym.lambda ∉ t.syms) (hC : ∀ c ∈ t.syms, c ∈ C) (n m : Nat) :
    Scoped C n m [t] := by
  have hbinders : [t].flatMap binders = [] := by simp [binders_eq_nil hl]
  constructor
  · simpa using hvars
  · intro u hu
    rw [List.mem_singleton.1 hu]
    rintro rfl
    simp at hl
  · intro u hu c hc
    rw [List.mem_singleton.1 hu] at hc
    exact hC c (mem_syms_of_mem_freeSyms hc)
  · rw [hbinders]
    exact List.nodup_nil
  · rw [hbinders]
    exact fun b hb => absurd hb List.not_mem_nil

theorem mono {n' m' : Nat} (h : Scoped C n m ts) (hn : n' ≤ n) (hm : m ≤ m') : Scoped C n' m' ts where
  vars := h.vars
  ne_lambda := h.ne_lambda
  free := h.free
  nodup := h.nodup
  drawn := by
    intro b hb
    obtain ⟨k, hk, hkm, rfl⟩ := h.drawn b hb
    exact ⟨k, hn.trans hk, Nat.lt_of_lt_of_le hkm hm, rfl⟩

/-- Proofs that bind symbols of earlier draws go before others. -/
theorem append {us : List Term} (h : Scoped C n i ts) (h' : Scoped C i m us) (hn : n ≤ i) (hm : i ≤ m) :
    Scoped C n m (ts ++ us) where
  vars := List.forall_mem_append.2 ⟨h.vars, h'.vars⟩
  ne_lambda := List.forall_mem_append.2 ⟨h.ne_lambda, h'.ne_lambda⟩
  free := List.forall_mem_append.2 ⟨h.free, h'.free⟩
  nodup := by
    rw [List.flatMap_append, List.nodup_append]
    refine ⟨h.nodup, h'.nodup, fun b hb b' hb' he => ?_⟩
    obtain ⟨k, _, hk, rfl⟩ := h.drawn b hb
    obtain ⟨k', hk', _, rfl⟩ := h'.drawn b' hb'
    have := Sym.drawn_injective (sym.inj he)
    omega
  drawn := by
    rw [List.flatMap_append, List.forall_mem_append]
    exact ⟨(h.mono (Nat.le_refl n) hm).drawn, (h'.mono hn (Nat.le_refl m)).drawn⟩

theorem application (h : Scoped C n m (t :: ts)) : Scoped C n m [tuple (t :: ts)] := by
  have ht := h.ne_lambda t List.mem_cons_self
  have ha : (tuple (t :: ts)).abstraction? = none := by
    unfold abstraction?
    split
    · next s x body he =>
      rw [if_neg]
      rintro rfl
      exact ht (List.cons.inj (tuple.inj he)).1
    · rfl
  constructor
  · intro u hu
    rw [List.mem_singleton.1 hu, vars_tuple, List.flatMap_eq_nil_iff]
    exact h.vars
  · simp
  · intro u hu c hc
    rw [List.mem_singleton.1 hu, freeSyms_tuple ha] at hc
    obtain ⟨u, hu, hc⟩ := List.mem_flatMap.1 hc
    exact h.free u hu c hc
  · rw [List.flatMap_singleton, binders_tuple ha]
    exact h.nodup
  · rw [List.flatMap_singleton, binders_tuple ha]
    exact h.drawn

/-- The symbol of an earlier draw may be free in the body; the abstraction binds it. -/
theorem abstraction {k : Nat} (h : Scoped (insert (.drawn k) C) i m [body]) (hn : n ≤ k) (hk : k < i)
    (hm : i ≤ m) : Scoped C n m [abstraction (sym (.drawn k)) body] := by
  have hvars := h.vars body (List.mem_singleton_self body)
  have hnodup := h.nodup
  have hdrawn := h.drawn
  rw [List.flatMap_singleton] at hnodup hdrawn
  constructor
  · simp [Term.abstraction, hvars]
  · simp [Term.abstraction]
  · intro u hu c hc
    rw [List.mem_singleton.1 hu, freeSyms_abstraction, List.mem_filter] at hc
    obtain ⟨hc, hne⟩ := hc
    have hfree := h.free body (List.mem_singleton_self body) c hc
    rcases Set.mem_insert_iff.1 hfree with rfl | hC
    · simp at hne
    · exact hC
  · rw [List.flatMap_singleton, binders_abstraction, binders_sym, List.nil_append, List.nodup_cons]
    refine ⟨fun hb => ?_, hnodup⟩
    obtain ⟨k', hk', _, he⟩ := hdrawn _ hb
    have := Sym.drawn_injective (sym.inj he)
    omega
  · rw [List.flatMap_singleton, binders_abstraction, binders_sym, List.nil_append, List.forall_mem_cons]
    refine ⟨⟨k, hn, by omega, rfl⟩, fun b hb => ?_⟩
    obtain ⟨k', hk', hkm, rfl⟩ := hdrawn b hb
    exact ⟨k', by omega, hkm, rfl⟩

end Scoped
end ProofSearch.Term
