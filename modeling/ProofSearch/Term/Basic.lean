/-! # Terms

A term is a variable, a symbol or a tuple of terms. Variables and symbols are texts; a text is a
variable's when it starts with the sigil `$` and goes on after it. Tuples nest to any depth and may be
empty. Functions on terms come in pairs, one for a term and one for the terms of a tuple; the second
is restated over `List` at once. -/

namespace ProofSearch

/-- The text starts with the sigil and has more after it. -/
def marked (s : String) : Bool :=
  match s.toList with
  | '$' :: _ :: _ => true
  | _ => false

theorem marked_append {s : String} (h : marked s = true) (t : String) : marked (s ++ t) = true := by
  unfold marked at h ⊢
  rw [String.toList_append]
  split at h
  · next hs => simp [hs]
  · cases h

theorem marked_sigil {s : String} (h : s.toList ≠ []) : marked ("$" ++ s) = true := by
  unfold marked
  rw [String.toList_append, show ("$" : String).toList = ['$'] from rfl]
  cases hs : s.toList with
  | nil => exact absurd hs h
  | cons c cs => rfl

structure Var where
  text : String
  marked_text : marked text = true
deriving DecidableEq

structure Sym where
  text : String
  unmarked_text : marked text = false := by decide
deriving DecidableEq

inductive Term
  | var (v : Var)
  | sym (s : Sym)
  | tuple (ts : List Term)

namespace Term

/-- The variable or symbol of that text. -/
def ofText (s : String) : Term :=
  if h : marked s = true then var ⟨s, h⟩ else sym ⟨s, by simpa using h⟩

theorem ofText_var (v : Var) : ofText v.text = .var v := dif_pos v.marked_text

theorem ofText_sym (s : Sym) : ofText s.text = .sym s := dif_neg (by simp [s.unmarked_text])

/-- Induction in which every term of a tuple is known. -/
theorem induction {P : Term → Prop} (var : ∀ v, P (.var v)) (sym : ∀ s, P (.sym s))
    (tuple : ∀ ts, (∀ t ∈ ts, P t) → P (.tuple ts)) (t : Term) : P t := by
  refine Term.rec (motive_1 := P) (motive_2 := fun ts => ∀ t ∈ ts, P t) var sym tuple ?_ ?_ t
  · intro t h; cases h
  · intro t ts ht hts u hu
    rcases List.mem_cons.mp hu with rfl | hu
    · exact ht
    · exact hts u hu

mutual
def decEq : (t u : Term) → Decidable (t = u)
  | var v, var w => decidable_of_iff (v = w) (by simp)
  | sym s, sym r => decidable_of_iff (s = r) (by simp)
  | tuple ts, tuple us =>
    match decEqAll ts us with
    | .isTrue h => .isTrue (by rw [h])
    | .isFalse h => .isFalse (by simpa using h)
  | var _, sym _ | var _, tuple _ | sym _, var _ | sym _, tuple _ | tuple _, var _
  | tuple _, sym _ => .isFalse (by simp)
def decEqAll : (ts us : List Term) → Decidable (ts = us)
  | [], [] => .isTrue rfl
  | [], _ :: _ | _ :: _, [] => .isFalse (by simp)
  | t :: ts, u :: us =>
    match decEq t u with
    | .isFalse h => .isFalse (by simp [h])
    | .isTrue h =>
      match decEqAll ts us with
      | .isTrue hs => .isTrue (by rw [h, hs])
      | .isFalse hs => .isFalse (by simp [hs])
end

instance : DecidableEq Term := decEq

instance : Inhabited Term := ⟨tuple []⟩

mutual
/-- Number of variables, symbols and tuples in the term. -/
def size : Term → Nat
  | var _ | sym _ => 1
  | tuple ts => sizeAll ts + 1
def sizeAll : List Term → Nat
  | [] => 0
  | t :: ts => t.size + sizeAll ts
end

mutual
/-- Every occurrence of a variable, from left to right. -/
def vars : Term → List Var
  | var v => [v]
  | sym _ => []
  | tuple ts => varsAll ts
def varsAll : List Term → List Var
  | [] => []
  | t :: ts => t.vars ++ varsAll ts
end

mutual
/-- Puts `f v` in place of each variable `v`, all at once. -/
def subst (f : Var → Term) : Term → Term
  | var v => f v
  | sym s => sym s
  | tuple ts => tuple (substAll f ts)
def substAll (f : Var → Term) : List Term → List Term
  | [] => []
  | t :: ts => t.subst f :: substAll f ts
end

mutual
/-- As `subst`, where a variable may have no value. -/
def subst? (f : Var → Option Term) : Term → Option Term
  | var v => f v
  | sym s => some (sym s)
  | tuple ts => (substAll? f ts).map tuple
def substAll? (f : Var → Option Term) : List Term → Option (List Term)
  | [] => some []
  | t :: ts =>
    match t.subst? f with
    | none => none
    | some u => (substAll? f ts).map (u :: ·)
end

mutual
/-- `u` is the term or stands somewhere inside it. -/
def contains : Term → (u : Term) → Bool
  | var v, u => var v = u
  | sym s, u => sym s = u
  | tuple ts, u => tuple ts = u || containsAll ts u
def containsAll : List Term → (u : Term) → Bool
  | [], _ => false
  | t :: ts, u => t.contains u || containsAll ts u
end

theorem sizeAll_eq (ts : List Term) : sizeAll ts = ts.foldr (fun t n => t.size + n) 0 := by
  induction ts with
  | nil => rfl
  | cons t ts ih => simp [sizeAll, ih]

theorem varsAll_eq (ts : List Term) : varsAll ts = ts.flatMap vars := by
  induction ts with
  | nil => rfl
  | cons t ts ih => simp [varsAll, ih]

theorem substAll_eq (f : Var → Term) (ts : List Term) : substAll f ts = ts.map (subst f) := by
  induction ts with
  | nil => rfl
  | cons t ts ih => simp [substAll, ih]

theorem substAll?_eq (f : Var → Option Term) (ts : List Term) : substAll? f ts = ts.mapM (subst? f) := by
  induction ts with
  | nil => rfl
  | cons t ts ih =>
    rw [substAll?, List.mapM_cons, ih]
    cases subst? f t with
    | none => rfl
    | some u => cases ts.mapM (subst? f) <;> rfl

theorem containsAll_eq (ts : List Term) (u : Term) : containsAll ts u = ts.any (·.contains u) := by
  induction ts with
  | nil => rfl
  | cons t ts ih => simp [containsAll, ih]

/-- The variables in order of first appearance, each once. -/
def distinctVars (t : Term) : List Var := t.vars.eraseDups

end Term
end ProofSearch
