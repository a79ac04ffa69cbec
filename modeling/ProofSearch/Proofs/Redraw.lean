import Mathlib.GroupTheory.Perm.ViaEmbedding
import ProofSearch.Proofs.Fresh
import ProofSearch.Proofs.Term.Rename

/-!
# Names drawn with other numbers

A permutation of the numbers takes each drawn name to the one that is drawn with the other number in its
place, and leaves every other name (`Renaming.redraw`). Symbols are drawn for bound variables only; where
there are none, all symbols are left. Names settled at `n` are left by a permutation that leaves the
numbers below `n`, so the terms made of them are (`Term.rename_redraw_eq_self`).
-/

namespace ProofSearch
open Equiv (Perm)
variable {m n k : Nat} {t : Term} {π : Perm Nat}

namespace Sym

theorem unmarked_drawn (k : Nat) : marked ("x" ++ toString k) = false := by
  unfold marked
  rw [String.toList_append, show ("x" : String).toList = ['x'] from rfl]
  split
  · next h => exact absurd (List.cons.inj h).1 (by decide)
  · rfl

/-- The symbol of draw `k`. -/
def drawn (k : Nat) : Sym := ⟨"x" ++ toString k, unmarked_drawn k⟩

theorem drawn_injective : Function.Injective drawn := fun k m h => by
  have htext : toString k = toString m := (String.append_right_inj "x").1 (congrArg Sym.text h)
  exact eq_of_ending_suffix (by rw [ending, ending, htext])

theorem drawn_ne_lambda (k : Nat) : drawn k ≠ lambda := fun h => by
  have htext : (drawn k).text.toList.head? = lambda.text.toList.head? := by rw [h]
  rw [drawn, String.toList_append] at htext
  cases htext

theorem eq_drawn_of_text {c : Sym} (h : c.text = "x" ++ toString k) : c = drawn k := by
  cases c
  cases h
  rfl

/-- The symbol is that of no draw from `n` on. -/
def Settled (n : Nat) (c : Sym) : Prop := ∀ k, n ≤ k → c.text ≠ "x" ++ toString k

theorem Settled.mono {c : Sym} (h : c.Settled n) (hm : n ≤ m) : c.Settled m := fun k hk => h k (hm.trans hk)

theorem settled_of_head_ne {c : Sym} (h : c.text.toList.head? ≠ some 'x') (n : Nat) : c.Settled n :=
  fun k _ hk => h (by
    rw [hk, String.toList_append]
    rfl)

/-- The symbol of each draw goes to that of the number in its place. -/
noncomputable def redraw (π : Perm Nat) : Perm Sym := π.viaEmbedding ⟨drawn, drawn_injective⟩

theorem redraw_drawn (π : Perm Nat) (k : Nat) : redraw π (drawn k) = drawn (π k) :=
  π.viaEmbedding_apply ⟨drawn, drawn_injective⟩ k

theorem redraw_of_ne (π : Perm Nat) {c : Sym} (h : ∀ k, c ≠ drawn k) : redraw π c = c :=
  π.viaEmbedding_apply_of_notMem _ c fun ⟨k, hk⟩ => h k hk.symm

theorem redraw_of_settled {c : Sym} (h : c.Settled n) (hπ : ∀ i, i < n → π i = i) : redraw π c = c := by
  by_cases hc : ∃ k, c = drawn k
  · obtain ⟨k, rfl⟩ := hc
    have hk : k < n := Nat.lt_of_not_le fun hk => h k hk rfl
    rw [redraw_drawn, hπ k hk]
  · exact redraw_of_ne π fun k hk => hc ⟨k, hk⟩

end Sym

namespace Var

/-- A variable and the number of the draw that has tagged it. -/
def tagging : Var × Nat ↪ Var where
  toFun p := p.1.tag (ending p.2)
  inj' := by
    rintro ⟨v, i⟩ ⟨w, j⟩ (h : v.tag (ending i) = w.tag (ending j))
    obtain rfl := eq_of_endings (ending_suffix_tag i v) (h ▸ ending_suffix_tag j w)
    rw [tag_inj h]

/-- What has been tagged with a number is tagged with the number in its place. -/
noncomputable def redraw (π : Perm Nat) : Perm Var :=
  Perm.viaEmbedding ((Equiv.refl Var).prodCongr π) tagging

theorem redraw_tag (π : Perm Nat) (v : Var) (k : Nat) :
    redraw π (v.tag (ending k)) = v.tag (ending (π k)) :=
  Perm.viaEmbedding_apply ((Equiv.refl Var).prodCongr π) tagging (v, k)

theorem redraw_drawn (π : Perm Nat) {stem : String} (h : stem.toList ≠ []) (k : Nat) :
    redraw π (drawn stem k) = drawn stem (π k) := by
  have htag : ∀ i, drawn stem i = tag (ending i) ⟨"$" ++ stem, marked_sigil h⟩ := fun i => by
    simp [drawn, tag, String.append_assoc]
  rw [htag, htag, redraw_tag]

theorem redraw_of_settled {v : Var} (h : v.Settled n) (hπ : ∀ i, i < n → π i = i) : redraw π v = v := by
  by_cases hv : v ∈ Set.range tagging
  · obtain ⟨⟨u, k⟩, rfl⟩ := hv
    have hk : k < n := Nat.lt_of_not_le fun hk => h k hk (ending_suffix_tag k u)
    exact (redraw_tag π u k).trans (by rw [hπ k hk]; rfl)
  · exact Perm.viaEmbedding_apply_of_notMem _ tagging v hv

end Var

/-- Names drawn get the numbers that `π` puts in the place of theirs; the symbols among them only where
symbols are drawn. -/
noncomputable def Renaming.redraw (symbols : Bool) (π : Perm Nat) : Renaming where
  var := Var.redraw π
  sym := if symbols then Sym.redraw π else id
  var_injective := (Var.redraw π).injective
  sym_injective := by
    cases symbols with
    | false => exact Function.injective_id
    | true => exact (Sym.redraw π).injective

/-- Only names drawn from `n` on are renamed, and symbols only where symbols are drawn. -/
structure Renaming.Spares (symbols : Bool) (n : Nat) (ρ : Renaming) : Prop where
  var : ∀ v : Var, v.Settled n → ρ.var v = v
  sym : ∀ c : Sym, (symbols = true → c.Settled n) → ρ.sym c = c

theorem Renaming.spares_redraw {symbols : Bool} (hπ : ∀ i, i < n → π i = i) :
    (redraw symbols π).Spares symbols n where
  var _ hv := Var.redraw_of_settled hv hπ
  sym c hc := by
    cases symbols with
    | false => rfl
    | true => exact Sym.redraw_of_settled (hc rfl) hπ

namespace Term

theorem drawnAtom_x (k : Nat) : drawnAtom "x" k = sym (Sym.drawn k) := by
  rw [drawnAtom, ofText, dif_neg (by rw [Sym.unmarked_drawn]; exact Bool.false_ne_true)]
  rfl

/-- No symbol in the term is one still to be drawn, where symbols are drawn at all. -/
def SymsSettled (symbols : Bool) (n : Nat) (t : Term) : Prop :=
  ∀ c ∈ t.syms, symbols = true → c.Settled n

theorem SymsSettled.mono {symbols : Bool} (h : t.SymsSettled symbols n) (hm : n ≤ m) : t.SymsSettled symbols m :=
  fun c hc hs => (h c hc hs).mono hm

theorem rename_redraw_eq_self {symbols : Bool} (hvars : t.Settled n) (hsyms : t.SymsSettled symbols n)
    (hπ : ∀ i, i < n → π i = i) : t.rename (.redraw symbols π) = t :=
  have spares : (Renaming.redraw symbols π).Spares symbols n := Renaming.spares_redraw hπ
  rename_eq_self (fun c hc => spares.sym c (hsyms c hc)) fun v hv => spares.var v (hvars v hv)

theorem symsSettled_of_head_ne {symbols : Bool} (h : ∀ c ∈ t.syms, c.text.toList.head? ≠ some 'x')
    (n : Nat) : t.SymsSettled symbols n := fun c hc _ => Sym.settled_of_head_ne (h c hc) n

end Term
end ProofSearch
