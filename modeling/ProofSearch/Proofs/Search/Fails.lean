import ProofSearch.Proofs.Search.Returns
import ProofSearch.Proofs.Search.Runs

/-!
# Searches that fail

A search that has no run to its end meets a failure, wherever it stands; collapsed, it gives nothing before that
(`Always.fails_collapse`). Nothing that was to follow it is reached (`Fails.bind`).
-/

namespace ProofSearch.Search
variable {ν α β : Type} {F : Fault → Prop} {P : Nat → α → Prop} {js : List Judgment} {n : Nat}

/-- Over the judgments `js` the search meets a failure that `F` allows, and gives nothing before it. -/
def Fails (F : Fault → Prop) (js : List Judgment) : Search ν α → Nat → Prop
  | done, _ => False
  | fail e, _ => F e
  | give _ _, _ => False
  | draw k, n => (k n).Fails F js (n + 1)
  | look k, n => (k js).Fails F js n
  | add _ _, _ => False
  | note _ k, n => (k ()).Fails F js n

namespace Fails

theorem bind {t : Search ν α} (h : t.Fails F js n) (f : α → Search ν β) : (t.bind f).Fails F js n := by
  induction t generalizing n with
  | done => exact h.elim
  | fail e => exact h
  | give a k _ => exact h.elim
  | draw k ih => exact ih n h
  | look k ih => exact ih js h
  | add j k _ => exact h.elim
  | note x k ih => exact ih () h

theorem exists_read {t : Search ν α} {w : World} (h : t.Fails F w.judgments w.drawn) :
    (t.read none w).results = #[] ∧ (∃ e, F e ∧ (t.read none w).status = .failed e) ∧
      (t.read none w).world.judgments = w.judgments := by
  have on : ∀ ns, (t.readOn none #[] ns w).results = #[] ∧
      (∃ e, F e ∧ (t.readOn none #[] ns w).status = .failed e) ∧
      (t.readOn none #[] ns w).world.judgments = w.judgments := by
    induction t generalizing w with
    | done => exact h.elim
    | fail e => exact fun _ => ⟨rfl, ⟨e, h, rfl⟩, rfl⟩
    | give a k _ => exact h.elim
    | draw k ih => exact ih w.drawn (w := { w with drawn := w.drawn + 1 }) h
    | look k ih => exact ih w.judgments h
    | add j k _ => exact h.elim
    | note x k ih => exact fun ns => ih () h (ns.push x)
  exact on #[]

/-- Two searches that fail in the same way read the same. -/
theorem agrees {t u : Search ν α} {w : World} {e : Fault} (ht : t.Fails (· = e) w.judgments w.drawn)
    (hu : u.Fails (· = e) w.judgments w.drawn) : (t.read none w).Agrees (u.read none w) := by
  obtain ⟨hresults, ⟨_, rfl, hstatus⟩, hstore⟩ := ht.exists_read
  obtain ⟨hresults', ⟨_, rfl, hstatus'⟩, hstore'⟩ := hu.exists_read
  exact ⟨hresults.trans hresults'.symm, hstatus.trans hstatus'.symm, hstore.trans hstore'.symm⟩

end Fails

theorem Always.fails_collapseInto {t : Search ν α} (h : t.Always js F P n)
    (hruns : ∀ as m, ¬ t.Yields js n as m) (as : Array α) : (t.collapseInto as).Fails F js n := by
  induction t generalizing n as with
  | done => exact absurd ⟨rfl, rfl⟩ (hruns [] n)
  | fail e => exact h
  | give a k ih =>
    refine ih () (h.2 n (Nat.le_refl n)) (fun bs m hbs => ?_) (as.push a)
    exact hruns _ m ⟨n, Nat.le_refl n, bs, hbs, rfl⟩
  | draw k ih => exact ih n h hruns as
  | look k ih => exact ih js h hruns as
  | add j k _ => exact h.elim
  | note x k ih => exact ih () h hruns as

/-- A search without a run to its end fails when it is run to its end. -/
theorem Always.fails_collapse {t : Search ν α} (h : t.Always js F P n) (hruns : ∀ as m, ¬ t.Yields js n as m) :
    t.collapse.Fails F js n :=
  h.fails_collapseInto hruns #[]

end ProofSearch.Search
