import ProofSearch.Term.Basic

/-! # Judgments

A judgment `proof : statement` is kept as its two halves; as a term it is the triple headed by `:`.
Rules are judgments whose statement is an arrow `(-> p₁ … pₙ c)`; a proof by a rule is the tuple of the
rule's proof and the proofs of its premises; a proof by abstraction is the triple `(λ x body)`. -/

namespace ProofSearch

namespace Sym

def colon : Sym := ⟨":", rfl⟩
def arrow : Sym := ⟨"->", rfl⟩
def lambda : Sym := ⟨"λ", rfl⟩

end Sym

structure Judgment where
  proof : Term
  statement : Term
deriving DecidableEq

namespace Judgment

def term (j : Judgment) : Term := .tuple [.sym .colon, j.proof, j.statement]

def ofTerm? : Term → Option Judgment
  | .tuple [.sym s, p, c] => if s = .colon then some ⟨p, c⟩ else none
  | _ => none

@[simp] theorem ofTerm?_term (j : Judgment) : ofTerm? j.term = some j := by
  simp [ofTerm?, term]

theorem ofTerm?_eq_some_iff {t : Term} {j : Judgment} : ofTerm? t = some j ↔ t = j.term := by
  refine ⟨fun h => ?_, fun h => h ▸ ofTerm?_term j⟩
  unfold ofTerm? at h
  split at h
  · split at h
    · next hs => cases h; subst hs; rfl
    · cases h
  · cases h

theorem term_injective {i j : Judgment} (h : i.term = j.term) : i = j :=
  Option.some.inj ((ofTerm?_term i).symm.trans (h ▸ ofTerm?_term j))

def subst (f : Var → Term) (j : Judgment) : Judgment := ⟨j.proof.subst f, j.statement.subst f⟩

@[simp] theorem term_subst (f : Var → Term) (j : Judgment) : (j.subst f).term = j.term.subst f := rfl

end Judgment

namespace Term

/-- The arrow with all its premises at one level. -/
def arrow (premises : List Term) (conclusion : Term) : Term :=
  tuple (sym .arrow :: premises ++ [conclusion])

/-- The arrow that takes its premises one after the other. -/
def arrows (premises : List Term) (conclusion : Term) : Term :=
  premises.foldr (fun p c => arrow [p] c) conclusion

/-- The head applied to its arguments one after the other. -/
def applied (head : Term) (args : List Term) : Term :=
  args.foldl (fun f a => tuple [f, a]) head

def abstraction (x body : Term) : Term := tuple [sym .lambda, x, body]

/-- The bound term and the body of an abstraction. -/
def abstraction? : Term → Option (Term × Term)
  | tuple [sym s, x, body] => if s = .lambda then some (x, body) else none
  | _ => none

@[simp] theorem abstraction?_abstraction (x body : Term) :
    (abstraction x body).abstraction? = some (x, body) := by simp [abstraction?, abstraction]

theorem eq_abstraction_of_abstraction? {t x body : Term} (h : t.abstraction? = some (x, body)) :
    t = abstraction x body := by
  unfold abstraction? at h
  split at h
  · next s y b =>
    split at h
    · next hs =>
      cases h
      rw [hs]
      rfl
    · cases h
  · cases h

end Term
end ProofSearch
