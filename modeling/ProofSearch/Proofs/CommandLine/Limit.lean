import ProofSearch.CommandLine.Run
import ProofSearch.Proofs.Search.Partial

/-!
# The limit of a run

A run asks about its limit only when it has a result, so what it collects is what a reader takes who takes one
result at least (`collectOn_eq_readOn`). From a limit of one on it does what a reader does who takes that many
results and leaves the rest: it collects the same, and draws, notes, stores, prints and writes the same. With a
limit below one such a reader does not begin, and the run still reads up to the first result (`search_takes_iff`).
-/

namespace ProofSearch

/-- The two readings have the same results, notes and world, and the same fault has stopped them, if any. -/
structure Search.Reading.Alike {ν α : Type} (r r' : Reading ν α) : Prop where
  results : r.results = r'.results
  notes : r.notes = r'.notes
  world : r.world = r'.world
  fault : ∀ e, r.status = .failed e ↔ r'.status = .failed e

theorem Search.Reading.Alike.refl {ν α : Type} (r : Reading ν α) : r.Alike r :=
  ⟨rfl, rfl, rfl, fun _ => Iff.rfl⟩

namespace Request
open Search

/-- A request that does nothing up to its first result has no result, and does nothing to its end. -/
theorem alike_read_zero_iff (r : Request) (o : Settings) (w : World) :
    (r.read o (some 1) w).Alike (r.read o (some 0) w) ↔ (r.read o none w).Alike (r.read o (some 0) w) := by
  rcases r.read_some o 1 w with ⟨heq, -⟩ | ⟨hsize, hresumes⟩
  · rw [heq]
  · -- the first result tells both readings from the one that takes none
    have hzero : (r.read o (some 0) w).results.toList.length = 0 :=
      congrArg List.length (r.results_read_some o 0 w)
    have hone : (r.read o (some 1) w).results.toList.length = 1 := hsize
    have hfull := hresumes.partOf.results.length_le
    refine iff_of_false (fun h => ?_) fun h => ?_
    · rw [h.results] at hone
      omega
    · rw [h.results] at hfull
      omega

end Request

namespace CommandLine
open Search

/-- What the run prints and writes after that reading of its search. -/
def afterReading (o : Options) (store : Store) (r : Outcome) (reading : Reading Note Answer) : Outcome :=
  let r :=
    if o.verbose then
      r.print (["Domain: " ++ o.domain.name ++ " -- " ++ o.domain.description] ++ Report.store store)
    else r
  let r := r.print (reading.notes.toList.map Note.line)
  match reading.status with
  | .failed e => r.fail e
  | _ => conclude o (terms reading.results.toList) { store with judgments := reading.world.judgments } r

theorem runOn_eq (o : Options) (store : Store) (r : Outcome) :
    runOn o store r = afterReading o store r (search o { judgments := store.judgments }) := rfl

/-- Behind results collected before, the loop goes on for as many as the limit leaves, and for one if it leaves
none. -/
theorem collectOn_eq_readOn {o : Options} {n : Int} (h : o.limit = some n) (t : Search Note Answer)
    (as : Array Answer) (ns : Array Note) (w : World) :
    collectOn o as ns w t = t.readOn (some (n.toNat - (as.size + 1))) as ns w := by
  induction t generalizing as ns w with
  | done => rfl
  | fail e => rfl
  | give a k ih =>
    have hnext := ih () (as.push a) ns w
    have henough : o.enough (as.push a).size = .ok (decide (n ≤ (as.size + 1 : Nat))) := by
      rw [Options.enough, h, Array.size_push]
    rw [Array.size_push] at hnext
    cases hleft : n.toNat - (as.size + 1) with
    | zero =>
      have hreached : n ≤ (as.size + 1 : Nat) := by omega
      rw [decide_eq_true hreached] at henough
      simp only [collectOn, henough, readOn]
    | succ m =>
      have hfewer : ¬ n ≤ (as.size + 1 : Nat) := by omega
      rw [decide_eq_false hfewer] at henough
      rw [show n.toNat - (as.size + 1 + 1) = m by omega] at hnext
      simp only [collectOn, henough, readOn, hnext]
  | draw k ih => exact ih w.drawn as ns { w with drawn := w.drawn + 1 }
  | look k ih => exact ih w.judgments as ns w
  | add j k ih => exact ih () as ns { w with judgments := w.judgments ++ [j] }
  | note x k ih => exact ih () as (ns.push x) w

theorem search_limit (o : Options) {n : Int} (h : o.limit = some n) (w : World) :
    search o w = o.request.read o.settings (some (max 1 n.toNat)) w := by
  have hcollect : (fun (t : Search Note Answer) w => collectOn o #[] #[] w t) =
      fun t => t.read (some (max 1 n.toNat)) := by
    funext t w
    have hmax : max 1 n.toNat = n.toNat - (0 + 1) + 1 := by omega
    rw [collectOn_eq_readOn h, hmax]
    rfl
  rw [search, hcollect]
  rfl

/-- With a limit of `n` the run does just what taking the first `n` results of its request does, if `n` is one or
more, or if the request, read to its end, has no result and does nothing at all. Otherwise it goes on to the
first result. What is taken is what a full reading begins with, and nothing behind it has been run. -/
theorem search_takes_iff (o : Options) (n : Int) (w : World) :
    let o := { o with limit := some n }
    let reading := fun limit => o.request.read o.settings limit w
    let taken := reading (some n.toNat)
    taken.results.toList = (reading none).results.toList.take n.toNat ∧
    (taken = reading none ∨ taken.ResumesTo (reading none)) ∧
    (search o w).results.toList = (reading none).results.toList.take (max 1 n.toNat) ∧
    ((search o w).Alike taken ↔ 1 ≤ n ∨ (reading none).Alike (reading (some 0))) ∧
    (1 ≤ n → ∀ store r, w = { judgments := store.judgments } →
      runOn o store r = afterReading o store r taken) := by
  intro o reading taken
  have hsearch : search o w = reading (some (max 1 n.toNat)) := search_limit o rfl w
  have hpositive : 1 ≤ n → search o w = taken := fun hn => by
    rw [hsearch, max_eq_right (by omega)]
  refine ⟨o.request.results_read_some o.settings _ w, ?_, ?_, ?_, ?_⟩
  · exact (o.request.read_some o.settings n.toNat w).imp And.left And.right
  · rw [hsearch]
    exact o.request.results_read_some o.settings _ w
  · by_cases hn : 1 ≤ n
    · rw [hpositive hn]
      exact iff_of_true (.refl taken) (.inl hn)
    · have hzero : n.toNat = 0 := by omega
      rw [hsearch, show taken = reading (some 0) by rw [← hzero], hzero, or_iff_right hn]
      exact o.request.alike_read_zero_iff o.settings w
  · rintro hn store r rfl
    rw [runOn_eq, hpositive hn]

/-- `--mode forward --limit 0` collects the source `a : A`, where nothing is to be taken. -/
theorem search_limit_zero :
    ∃ o, Options.ofWords ["--mode", "forward", "--limit", "0", "--quiet", "--trace", "--depth", "2"] = .ok o ∧
    let w : World := { judgments := o.domain.store.judgments }
    o.limit = some 0 ∧ terms (search o w).results.toList = [(Judgment.mk (.ofText "a") (.ofText "A")).term] ∧
    (o.request.read o.settings (some 0) w).results = #[] := by
  refine ⟨_, rfl, ?_⟩
  decide

end CommandLine
end ProofSearch
