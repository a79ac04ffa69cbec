import ProofSearch.Proofs.Backward.Recheck
import ProofSearch.Proofs.Forward.Soundness

/-!
# Forward and backward search

What a forward search makes of a stored judgment is derivable, within three times its depth, so a backward
search proves it. What the backward search finds of such a judgment is an instance of it that it is an
instance of, the judgment renamed (`chain_proved_backward`). The environment is ground, or its entries would
be bound anew by each step.
-/

namespace ProofSearch
variable {o : SearchOptions} {js : List Judgment} {k n : Nat} {env : Environment} {j : Judgment}

theorem Environment.Ground.settled (h : env.Ground) (n : Nat) : env.Settled n := fun j hj v hv => by
  rw [h j hj] at hv
  cases hv

namespace Forward
open Search Backward

/-- The judgment is derivable within the height, and has no name from the counter on. -/
structure Derived (o : SearchOptions) (js : List Judgment) (env : Environment) (k n : Nat)
    (j : Judgment) : Prop where
  derivable : Derivable o js k env j
  settled : j.term.Settled n

/-- From a derived judgment a forward search in a ground environment makes derived ones. -/
theorem always_chain (hone : 1 ∈ o.arities.counts) (hbroken : o.arities.broken = false) (henv : env.Ground)
    {bound : Nat} (d : Nat) (hj : Derived o js env k n j) (hk : k + 2 * d ≤ bound) (hd : 3 * d ≤ bound) :
    (chain o env d j).Always js (fun _ => False) (Derived o js env bound) n := by
  have hF : o.arities.broken = true → False := fun h => by
    rw [hbroken] at h
    cases h
  have hmade := always_chain_made (F := fun _ => False) (n := n) hF (.of_ground henv) henv hone d
    hj.derivable hk (by omega)
  refine hmade.mono fun m a hm ha => ⟨ha.derivable, ?_⟩
  exact ha.settled m (Nat.le_refl m) (henv.settled m) (hj.settled.mono hm)

/-- Whatever a forward search makes of a stored judgment in a ground environment, the backward search
for it within three times the depth finds up to the names of its variables, when it starts where the
forward search has come to. -/
theorem chain_proved_backward (traced : Bool) (d : Nat) (henv : env.Ground) (w : World)
    (hj : j ∈ w.judgments) (hset : j.term.Settled w.drawn) (limit : Option Nat) :
    let reading := (chain { traced } env d j).read limit w
    ∀ r ∈ reading.results, ∃ t ∈ ((results { traced } (3 * d) env r.term).read none reading.world).results,
      t.VariantOf r.term := by
  intro reading r hr
  have hall : (chain { traced } env d j).Always w.judgments _ _ w.drawn :=
    always_chain (k := 0) List.mem_cons_self rfl henv d ⟨.of_mem hj, hset⟩ (by omega) (Nat.le_refl (3 * d))
  have hread := hall.read limit
  obtain ⟨m, hm, hd⟩ := hread.of_mem hr
  have hderivable : Derivable { traced } reading.world.judgments (3 * d) env r := by
    rw [hread.judgments]
    exact hd.derivable
  exact exists_variant_of_derivable rfl rfl r reading.world (hd.settled.mono hm) (henv.settled _) hderivable

/-- The environment of `b : B`. -/
def withB : Environment := ⟨[⟨.ofText "b", .ofText "B"⟩]⟩

/-- `f : (-> $t (L $t))` as a rule for itself and for `b`; the first of the two leaves a variable. -/
theorem chain_proved_backward_listing :
    withB.Ground ∧ listing ∈ [listing] ∧ listing.term.Settled 0 ∧
      let reading := (chain { traced := false } withB 1 listing).read none ⟨[listing], 0⟩
      ∃ r ∈ reading.results, r.proof = .tuple [.ofText "f", .ofText "f"] ∧ r.term.vars ≠ [] ∧
        ∃ t ∈ ((results { traced := false } 3 withB r.term).read none reading.world).results,
          t.VariantOf r.term := by
  have hground : withB.Ground := List.forall_mem_singleton.2 (by decide)
  have hset : listing.term.Settled 0 := Term.settled_of_underscore_notMem (by decide) 0
  have found : ∃ r ∈ ((chain { traced := false } withB 1 listing).read none ⟨[listing], 0⟩).results,
      r.proof = .tuple [.ofText "f", .ofText "f"] ∧ r.term.vars ≠ [] := by decide +kernel
  obtain ⟨r, hr, hproof, hvars⟩ := found
  exact ⟨hground, List.mem_cons_self, hset, r, hr, hproof, hvars,
    chain_proved_backward false 1 hground ⟨[listing], 0⟩ List.mem_cons_self hset none r hr⟩

end Forward
end ProofSearch
