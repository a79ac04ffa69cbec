import ProofSearch.Domain.Basic
import ProofSearch.Proofs.Derivable

/-!
# Chains of implications

A chain is a row of distinct statements; its store has the implications between neighbours, a proof of the
first statement and modus ponens. What follows from that within a height is little (`Chain.Follows`): the
judgments stored, modus ponens in each instance, modus ponens applied to a link (`Chain.half`), and every
statement by one proof (`Chain.step`), the `k`-th from height `k + 1` on. That nothing else does, by whatever
instance of modus ponens, is `Chain.Follows.of_derivable`.
-/

namespace ProofSearch

theorem marked_eq_false {s : String} (h : s.toList.head? ≠ some '$') : marked s = false := by
  unfold marked
  split
  · next hs => exact absurd (by rw [hs]; rfl) h
  · rfl

/-- Distinct symbols in a row, from the one that `base` proves to the one that is `length` links on. No text
starts with the sigil, so no name of a link does. -/
structure Chain where
  length : Nat
  statement : Nat → Sym
  base : Sym
  distinct : ∀ i ≤ length, ∀ j ≤ length, statement i = statement j → i = j
  unmarked : ∀ i ≤ length, (statement i).text.toList.head? ≠ some '$'

namespace Chain
open Domain

def statements (c : Chain) : List Term := (List.range (c.length + 1)).map fun k => .sym (c.statement k)

/-- The name under which the implication of the statement behind `k` is stored. -/
def name (c : Chain) (k : Nat) : Term :=
  atom (Text.lowerCase (c.statement k).text ++ Text.lowerCase (c.statement (k + 1)).text)

/-- The implication from statement `k` to the one behind it. -/
def link (c : Chain) (k : Nat) : Judgment :=
  implication (c.name k) (.sym (c.statement k)) (.sym (c.statement (k + 1)))

theorem proof_link (c : Chain) (k : Nat) : (c.link k).proof = c.name k := by rw [link, implication]

/-- The proof of statement `k`: modus ponens by each of the links before it, on top of the base. -/
def proof (c : Chain) : Nat → Term
  | 0 => .sym c.base
  | k + 1 => detach (c.name k) (c.proof k)

def step (c : Chain) (k : Nat) : Judgment := ⟨c.proof k, .sym (c.statement k)⟩

/-- Modus ponens applied to the link alone. -/
def half (c : Chain) (k : Nat) : Judgment :=
  ⟨.applied (atom "ModusPonens") [c.name k], .arrow [.sym (c.statement k)] (.sym (c.statement (k + 1)))⟩

/-- What is stored for the chain. -/
def judgments (c : Chain) : List Judgment :=
  (List.range c.length).map c.link ++ [c.step 0, modusPonens]

variable {c : Chain} {h k : Nat} {j : Judgment}

/-! ### The store -/

theorem links_range' (c : Chain) (m k : Nat) :
    links ((List.range' k (m + 1)).map fun k => .sym (c.statement k)) = .ok ((List.range' k m).map c.link) := by
  induction m generalizing k with
  | zero => rfl
  | succ m ih =>
    have hnext := ih (k + 1)
    rw [List.range'_succ, List.map_cons] at hnext
    rw [List.range'_succ, List.range'_succ, List.map_cons, List.map_cons, List.range'_succ, List.map_cons, links,
      linkName, hnext]
    rfl

/-- The store that is made of the statements and the base. -/
theorem chain_statements (c : Chain) :
    chain c.statements (.sym c.base) = .ok { name := .text "modus_ponens", judgments := c.judgments } := by
  have hlinks := c.links_range' c.length 0
  rw [← List.range_eq_range', ← List.range_eq_range'] at hlinks
  have hhead : c.statements.head? = some (.sym (c.statement 0)) := by
    simp [statements, List.range_succ_eq_map]
  rw [chain, statements, hlinks, ← statements, hhead, judgments]
  simp [Except.map, step, proof]

/-! ### What is ground -/

theorem exists_atom_eq {s : String} (hs : marked s = false) : ∃ x : Sym, atom s = .sym x :=
  ⟨⟨s, hs⟩, dif_neg (by simp [hs])⟩

theorem subst_atom {s : String} (hs : marked s = false) (f : Var → Term) : (atom s).subst f = atom s := by
  obtain ⟨x, hx⟩ := exists_atom_eq hs
  rw [hx, Term.subst]

theorem marked_name (hk : k < c.length) :
    marked (Text.lowerCase (c.statement k).text ++ Text.lowerCase (c.statement (k + 1)).text) = false := by
  have hleft := Text.head?_lowerCase (c.unmarked k (Nat.le_of_lt hk))
  have hright := Text.head?_lowerCase (c.unmarked (k + 1) hk)
  refine marked_eq_false ?_
  rw [String.toList_append, List.head?_append]
  cases hhead : (Text.lowerCase (c.statement k).text).toList.head? with
  | none => simpa using hright
  | some a =>
    rw [Option.some_or, ← hhead]
    exact hleft

theorem subst_name (hk : k < c.length) (f : Var → Term) : (c.name k).subst f = c.name k :=
  subst_atom (marked_name hk) f

theorem subst_link (hk : k < c.length) (f : Var → Term) : (c.link k).subst f = c.link k := by
  have himplies := subst_atom (s := "==>") (by decide) f
  simp [link, implication, implies, Judgment.subst, Term.subst, subst_name hk, himplies]

theorem subst_proof (hk : k ≤ c.length) (f : Var → Term) : (c.proof k).subst f = c.proof k := by
  have hrule := subst_atom (s := "ModusPonens") (by decide) f
  induction k with
  | zero => rw [proof, Term.subst]
  | succ k ih =>
    simp [proof, detach, Term.applied, Term.subst, Term.substAll, subst_name hk, hrule, ih (Nat.le_of_lt hk)]

theorem subst_step (hk : k ≤ c.length) (f : Var → Term) : (c.step k).subst f = c.step k := by
  simp [step, Judgment.subst, subst_proof hk]

theorem subst_half (hk : k < c.length) (f : Var → Term) : (c.half k).subst f = c.half k := by
  have hrule := subst_atom (s := "ModusPonens") (by decide) f
  simp [half, Judgment.subst, Term.subst_arrow, Term.applied, Term.subst, subst_name hk, hrule]

/-! ### What follows -/

/-- Modus ponens for that premise and that conclusion. -/
def rule (p q : Term) : Judgment := ⟨atom "ModusPonens", .arrow [implies p q] (.arrow [p] q)⟩

theorem modusPonens_eq : modusPonens = rule (atom "$p") (atom "$q") := rfl

theorem subst_rule (p q : Term) (f : Var → Term) : (rule p q).subst f = rule (p.subst f) (q.subst f) := by
  have hrule := subst_atom (s := "ModusPonens") (by decide) f
  have himplies := subst_atom (s := "==>") (by decide) f
  simp [rule, implies, Judgment.subst, Term.subst_arrow, hrule, himplies]

/-- The judgments that follow from what is stored for the chain within the height. -/
inductive Follows (c : Chain) : Nat → Judgment → Prop
  | rule {h : Nat} (p q : Term) : Follows c h (rule p q)
  | link {h k : Nat} (hk : k < c.length) : Follows c h (c.link k)
  | half {h k : Nat} (hk : k < c.length) : Follows c (h + 1) (c.half k)
  | step {h k : Nat} (hk : k ≤ c.length) (hh : k = 0 ∨ k + 1 ≤ h) : Follows c h (c.step k)

theorem mem_judgments : j ∈ c.judgments ↔ (∃ k < c.length, c.link k = j) ∨ j = c.step 0 ∨ j = modusPonens := by
  simp [judgments]

namespace Follows

theorem of_mem (hj : j ∈ c.judgments) : c.Follows h j := by
  rcases mem_judgments.1 hj with ⟨k, hk, rfl⟩ | rfl | rfl
  · exact link hk
  · exact step (Nat.zero_le _) (.inl rfl)
  · exact rule _ _

theorem mono {n : Nat} (hj : c.Follows h j) (hn : h ≤ n) : c.Follows n j := by
  cases hj with
  | rule p q => exact rule p q
  | link hk => exact link hk
  | half hk =>
    obtain ⟨m, rfl⟩ := Nat.exists_eq_add_one.2 (Nat.lt_of_lt_of_le (Nat.succ_pos _) hn)
    exact half hk
  | step hk hh => exact step hk (hh.imp_right hn.trans')

theorem subst (hj : c.Follows h j) (f : Var → Term) : c.Follows h (j.subst f) := by
  cases hj with
  | rule p q =>
    rw [subst_rule]
    exact rule _ _
  | link hk =>
    rw [subst_link hk]
    exact link hk
  | half hk =>
    rw [subst_half hk]
    exact half hk
  | step hk hh =>
    rw [subst_step hk]
    exact step hk hh

theorem implies_ne_arrow (p q x y : Term) : implies p q ≠ .arrow [x] y := by
  have hne : atom "==>" ≠ .sym .arrow := by decide
  intro he
  simp only [implies, Term.arrow, List.cons_append, List.nil_append, Term.tuple.injEq, List.cons.injEq] at he
  exact hne he.1

theorem arrow_inj {x y x' y' : Term} (he : Term.arrow [x] y = .arrow [x'] y') : x = x' ∧ y = y' := by
  simpa [Term.arrow] using he

theorem implies_inj {x y x' y' : Term} (he : implies x y = implies x' y') : x = x' ∧ y = y' := by
  simpa [implies] using he

/-- An arrow follows by an instance of modus ponens, or by modus ponens applied to a link. -/
theorem of_arrow {x y : Term} (hj : c.Follows h j) (hs : j.statement = .arrow [x] y) :
    (∃ p q, j = Chain.rule p q ∧ x = implies p q ∧ y = .arrow [p] q) ∨
    ∃ k < c.length, j = c.half k ∧ 0 < h ∧ x = .sym (c.statement k) ∧ y = .sym (c.statement (k + 1)) := by
  cases hj with
  | rule p q =>
    obtain ⟨hx, hy⟩ := arrow_inj hs.symm
    exact .inl ⟨p, q, rfl, hx, hy⟩
  | link hk => exact absurd hs (implies_ne_arrow _ _ x y)
  | @half h k hk =>
    obtain ⟨hx, hy⟩ := arrow_inj hs.symm
    exact .inr ⟨k, hk, rfl, Nat.succ_pos h, hx, hy⟩
  | step hk hh => cases hs

/-- An implication follows by the link that it is. -/
theorem of_implies {x y : Term} (hj : c.Follows h j) (hs : j.statement = implies x y) :
    ∃ k < c.length, j = c.link k ∧ x = .sym (c.statement k) ∧ y = .sym (c.statement (k + 1)) := by
  cases hj with
  | rule p q => exact absurd hs.symm (implies_ne_arrow x y _ _)
  | @link h k hk =>
    obtain ⟨hx, hy⟩ := implies_inj hs.symm
    exact ⟨k, hk, rfl, hx, hy⟩
  | half hk => exact absurd hs.symm (implies_ne_arrow x y _ _)
  | step hk hh => cases hs

/-- A statement of the chain follows by its one proof, above the height of the base when there is modus ponens
in it. -/
theorem of_statement (hk : k ≤ c.length) (hj : c.Follows h j) (hs : j.statement = .sym (c.statement k)) :
    j = c.step k ∧ (k = 0 ∨ k + 1 ≤ h) := by
  cases hj with
  | rule p q => cases hs
  | link hk => cases hs
  | half hk => cases hs
  | @step h i hi hh =>
    obtain rfl := c.distinct i hi k hk (Term.sym.inj hs)
    exact ⟨rfl, hh⟩

/-- An application that follows is modus ponens applied to a link, or that applied to the proof of a statement. -/
theorem application {head statement : Term} {g : Judgment}
    (hhead : c.Follows h ⟨head, .arrow [g.statement] statement⟩) (hg : c.Follows h g) :
    c.Follows (h + 1) ⟨.tuple [head, g.proof], statement⟩ := by
  rcases hhead.of_arrow rfl with ⟨p, q, hj, hx, rfl⟩ | ⟨k, hk, hj, hh, hx, rfl⟩
  · obtain rfl : head = atom "ModusPonens" := congrArg Judgment.proof hj
    obtain ⟨k, hk, rfl, rfl, rfl⟩ := hg.of_implies hx
    rw [proof_link]
    exact half hk
  · obtain rfl : head = (c.half k).proof := congrArg Judgment.proof hj
    obtain ⟨rfl, hk'⟩ := hg.of_statement (Nat.le_of_lt hk) hx
    exact step hk (.inr (by omega))

/-- Nothing else is derivable from judgments that follow, and the heights add up. -/
theorem of_derivable {js : List Judgment} {n : Nat} {env : Environment} (hjs : ∀ i ∈ js, c.Follows h i)
    (henv : env.entries = []) (d : Derivable {} js n env j) : c.Follows (h + n) j := by
  induction d with
  | stored f hj => exact ((hjs _ hj).subst f).mono (Nat.le_add_right h _)
  | assumed hj => exact absurd (henv ▸ hj) List.not_mem_nil
  | @application n env head statement goals hn _ _ ihhead ihgoals =>
    obtain ⟨g, rfl⟩ : ∃ g, goals = [g] := List.length_eq_one_iff.1 (List.mem_singleton.1 hn)
    exact (ihhead henv).application (ihgoals g (List.mem_singleton_self g) henv)
  | abstraction ho _ _ => cases ho

end Follows

/-! ### What is derivable from a store -/

theorem exists_subst_modusPonens (p q : Term) : ∃ f, modusPonens.subst f = rule p q :=
  ⟨fun v => if v.text = "$p" then p else q, rfl⟩

/-- The store has what is given for the chain and, of what follows from that, all within the height. -/
structure Reached (c : Chain) (h : Nat) (js : List Judgment) : Prop where
  given : c.judgments ⊆ js
  halves : ∀ k < c.length, 0 < h → c.half k ∈ js
  steps : ∀ k ≤ c.length, k + 1 ≤ h → c.step k ∈ js

namespace Reached
variable {js : List Judgment} {n : Nat}

theorem zero (hjs : c.judgments ⊆ js) : c.Reached 0 js where
  given := hjs
  halves _ _ hh := absurd hh (Nat.lt_irrefl 0)
  steps k _ hh := absurd hh (Nat.not_succ_le_zero k)

theorem derivable_half (hjs : c.Reached h js) (hk : k < c.length) (hn : 0 < h + n) :
    Derivable {} js n {} (c.half k) := by
  rcases Nat.eq_zero_or_pos h with rfl | hh
  · obtain ⟨m, rfl⟩ : ∃ m, n = m + 1 := ⟨n - 1, by omega⟩
    obtain ⟨f, hf⟩ := exists_subst_modusPonens (.sym (c.statement k)) (.sym (c.statement (k + 1)))
    have hrule : Derivable {} js m {} (rule (.sym (c.statement k)) (.sym (c.statement (k + 1)))) :=
      hf ▸ .stored f (hjs.given (mem_judgments.2 (.inr (.inr rfl))))
    have hlink : ∀ g ∈ [c.link k], Derivable {} js m {} g :=
      List.forall_mem_singleton.2 (.of_mem (hjs.given (mem_judgments.2 (.inl ⟨k, hk, rfl⟩))))
    have happ := Derivable.application List.mem_cons_self hrule hlink
    rw [List.map_singleton, proof_link] at happ
    exact happ
  · exact .of_mem (hjs.halves k hk hh)

theorem derivable_step (hjs : c.Reached h js) (hk : k ≤ c.length) (hn : k + 1 ≤ h + n) :
    Derivable {} js n {} (c.step k) := by
  induction k generalizing n with
  | zero => exact .of_mem (hjs.given (mem_judgments.2 (.inr (.inl rfl))))
  | succ k ih =>
    rcases Nat.lt_or_ge h (k + 2) with hh | hh
    · obtain ⟨m, rfl⟩ : ∃ m, n = m + 1 := ⟨n - 1, by omega⟩
      have hhalf : Derivable {} js m {} (c.half k) := hjs.derivable_half hk (by omega)
      have hstep : ∀ g ∈ [c.step k], Derivable {} js m {} g :=
        List.forall_mem_singleton.2 (ih (Nat.le_of_lt hk) (by omega))
      exact .application List.mem_cons_self hhalf hstep
    · exact .of_mem (hjs.steps (k + 1) hk hh)

end Reached
end Chain
end ProofSearch
