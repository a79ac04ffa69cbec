import ProofSearch.Search.Draws
import ProofSearch.Proofs.Fresh
import ProofSearch.Proofs.Term.Variant

/-!
# Names of different draws

Each call that makes names draws one number, and every name it makes ends in that number. A text ends in the number
of one draw at most, whatever stands before it, so what one call makes is never made by another (`names_apart`):
not for a stem that ends like a drawn name, and not by renaming the same term twice.
-/

namespace ProofSearch

/-- A call that makes names: an ending for them, a variable with that stem, or the term with its variables renamed
apart from all others. -/
inductive Naming
  | ending
  | drawn (stem : String)
  | apart (t : Term)

/-- What such a call returns. -/
inductive Named
  | ending (e : String)
  | term (t : Term)
deriving DecidableEq

/-- The ending, or the texts of the variables. -/
def Named.names : Named → List String
  | ending e => [e]
  | term t => t.vars.map Var.text

namespace Naming

/-- What the call returns when the number `k` is drawn. -/
def made (k : Nat) : Naming → Named
  | ending => .ending (ProofSearch.ending k)
  | drawn stem => .term (.var (Var.drawn stem k))
  | apart t => .term (t.tag (ProofSearch.ending k))

/-- Makes the calls one after the other. -/
def perform : List Naming → Draws (List Named)
  | [] => .ret []
  | c :: cs => .draw fun k => (perform cs).bind fun ms => .ret (c.made k :: ms)

/-- The ending is one of those drawn, the variable is `$stem_k` for some `k`, and the term is the one that was given
with its variables renamed one to one. -/
def Makes : Naming → Named → Prop
  | ending, m => ∃ k, m = .ending (ProofSearch.ending k)
  | drawn stem, m => ∃ k, m = .term (.var (Var.drawn stem k))
  | apart t, m => ∃ u : Term, m = .term u ∧ u.VariantOf t

theorem makes_made (k : Nat) (c : Naming) : c.Makes (c.made k) := by
  cases c with
  | ending => exact ⟨k, rfl⟩
  | drawn stem => exact ⟨k, rfl⟩
  | apart t => exact ⟨_, rfl, _, fun v _ w _ h => Var.tag_inj h, rfl⟩

/-- Every name made ends in the number drawn. -/
theorem ending_suffix_made (k : Nat) (c : Naming) :
    ∀ s ∈ (c.made k).names, (ProofSearch.ending k).toList <:+ s.toList := by
  cases c with
  | ending => exact List.forall_mem_singleton.2 List.suffix_rfl
  | drawn stem => exact List.forall_mem_singleton.2 (Var.ending_suffix_drawn stem k)
  | apart t =>
    intro s hs
    obtain ⟨w, hw, rfl⟩ := List.mem_map.1 hs
    obtain ⟨v, -, hv⟩ := Term.mem_vars_subst.1 hw
    exact List.mem_singleton.1 hv ▸ Var.ending_suffix_tag k v

theorem disjoint_made {j k : Nat} (h : j ≠ k) (c d : Naming) :
    (c.made j).names.Disjoint (d.made k).names := fun s hs hs' =>
  h (eq_of_endings (ending_suffix_made j c s hs) (ending_suffix_made k d s hs'))

/-- The calls draw the numbers from `n` on, one for each. -/
theorem run_perform (cs : List Naming) (n : Nat) :
    (perform cs).run n = (.ok ((cs.zipIdx n).map fun (c, k) => c.made k), n + cs.length) := by
  induction cs generalizing n with
  | nil => rfl
  | cons c cs ih =>
    refine (Draws.run_bind (ih (n + 1))).trans ?_
    rw [List.length_cons, Nat.add_right_comm]
    rfl

theorem forall₂_makes (cs : List Naming) (n : Nat) :
    List.Forall₂ Makes cs ((cs.zipIdx n).map fun (c, k) => c.made k) := by
  induction cs generalizing n with
  | nil => exact .nil
  | cons c cs ih => exact .cons (makes_made n c) (ih (n + 1))

/-- No two calls make the same name, so renamings of one term share no variable either. All of the calls return; a
term renamed apart is the term that was given with its variables renamed one to one. -/
theorem names_apart (cs : List Naming) (n : Nat) :
    ∃ ms, (perform cs).run n = (.ok ms, n + cs.length) ∧ List.Forall₂ Makes cs ms ∧
      ms.Pairwise fun m m' => m.names.Disjoint m'.names := by
  refine ⟨_, run_perform cs n, forall₂_makes cs n, List.pairwise_map.2 ?_⟩
  have hnumbers : ((cs.zipIdx n).map Prod.snd).Pairwise (· ≠ ·) := by
    rw [List.zipIdx_map_snd]
    exact List.nodup_range'
  exact (List.pairwise_map.1 hnumbers).imp fun h => disjoint_made h _ _

/-- A stem that ends like a name of the next draw. -/
example : (perform [.drawn "v_1", .drawn "v", .apart (.ofText "$v")]).run 0 =
    (.ok [.term (.ofText "$v_1_0"), .term (.ofText "$v_1"), .term (.ofText "$v_2")], 3) := by
  rfl

end Naming
end ProofSearch
