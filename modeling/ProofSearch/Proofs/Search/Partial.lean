import ProofSearch.Proofs.Search.Returns
import ProofSearch.Request

/-!
# Readings that stop early

A search does nothing before its reader gets there, so a reading that stops after some alternatives has done
what a full reading does up to that point, and nothing else: to read on from where it stopped is to read
everything (`ResumesTo`). What a reading starts from it keeps (`partOf_readOn`), hence the one that stopped is a
part of the full one (`PartOf`): in its alternatives, its notes, the numbers drawn and the judgments stored.
-/

namespace ProofSearch
namespace Search
variable {ν α : Type}

namespace Reading
variable {r r' r'' : Reading ν α}

/-- The second reading has all that the first one has, and what it has besides came later. -/
structure PartOf (r r' : Reading ν α) : Prop where
  results : r.results.toList <+: r'.results.toList
  notes : r.notes.toList <+: r'.notes.toList
  world : r.world.GrowsTo r'.world

/-- The reading has stopped before the end, and to read on from there is `whole`. -/
def ResumesTo (r whole : Reading ν α) : Prop :=
  ∃ k, r.status = .paused k ∧ (k ()).readOn none r.results r.notes r.world = whole

namespace PartOf

theorem refl (r : Reading ν α) : r.PartOf r := ⟨List.prefix_rfl, List.prefix_rfl, .refl _⟩

theorem trans (h : r.PartOf r') (h' : r'.PartOf r'') : r.PartOf r'' :=
  ⟨h.results.trans h'.results, h.notes.trans h'.notes, h.world.trans h'.world⟩

end PartOf
end Reading

open Reading

/-! ### Reading on -/

/-- Whatever a reading starts from it keeps. -/
theorem partOf_readOn (t : Search ν α) (more : Option Nat) (as : Array α) (ns : Array ν) (w : World)
    (s : Status ν α) : Reading.PartOf ⟨as, ns, w, s⟩ (t.readOn more as ns w) := by
  induction t generalizing more as ns w with
  | done => exact ⟨List.prefix_rfl, List.prefix_rfl, .refl w⟩
  | fail e => exact ⟨List.prefix_rfl, List.prefix_rfl, .refl w⟩
  | give a k ih =>
    have pushed : as.toList <+: (as.push a).toList := Array.toList_push ▸ List.prefix_append _ _
    have on : ∀ more, Reading.PartOf ⟨as, ns, w, s⟩ ((k ()).readOn more (as.push a) ns w) := fun more =>
      have next : Reading.PartOf ⟨as, ns, w, s⟩ ⟨as.push a, ns, w, s⟩ := ⟨pushed, List.prefix_rfl, .refl w⟩
      next.trans (ih () more (as.push a) ns w)
    match more with
    | none => exact on none
    | some 0 => exact ⟨pushed, List.prefix_rfl, .refl w⟩
    | some (n + 1) => exact on (some n)
  | draw k ih =>
    have h := ih w.drawn more as ns { w with drawn := w.drawn + 1 }
    exact ⟨h.results, h.notes, (World.GrowsTo.draw w).trans h.world⟩
  | look k ih => exact ih w.judgments more as ns w
  | add j k ih =>
    have h := ih () more as ns { w with judgments := w.judgments ++ [j] }
    exact ⟨h.results, h.notes, (World.GrowsTo.add w j).trans h.world⟩
  | note x k ih =>
    have h := ih () more as (ns.push x) w
    exact ⟨h.results, (Array.toList_push ▸ List.prefix_append _ _ : ns.toList <+: _).trans h.notes, h.world⟩

theorem Reading.ResumesTo.partOf {r whole : Reading ν α} (h : r.ResumesTo whole) : r.PartOf whole := by
  obtain ⟨k, _, rfl⟩ := h
  exact partOf_readOn (k ()) none r.results r.notes r.world r.status

/-- Notes left before a reading change nothing else in it. -/
theorem readOn_append_notes (t : Search ν α) (more : Option Nat) (as : Array α) (ms ns : Array ν) (w : World) :
    t.readOn more as (ms ++ ns) w = (t.readOn more as ns w).after ms := by
  induction t generalizing more as ns w with
  | done => rfl
  | fail e => rfl
  | give a k ih =>
    match more with
    | none => exact ih () none (as.push a) ns w
    | some 0 => rfl
    | some (n + 1) => exact ih () (some n) (as.push a) ns w
  | draw k ih => exact ih w.drawn more as ns { w with drawn := w.drawn + 1 }
  | look k ih => exact ih w.judgments more as ns w
  | add j k ih => exact ih () more as ns { w with judgments := w.judgments ++ [j] }
  | note x k ih =>
    rw [readOn, Array.push_append]
    exact ih () more as (ns.push x) w

theorem Reading.ResumesTo.after {r whole : Reading ν α} (h : r.ResumesTo whole) (ms : Array ν) :
    (r.after ms).ResumesTo (whole.after ms) := by
  obtain ⟨k, hk, rfl⟩ := h
  exact ⟨k, hk, readOn_append_notes (k ()) none r.results ms r.notes r.world⟩

/-- With a limit the reading comes to the end before it has as many alternatives, or stops when it has. -/
theorem readOn_some (t : Search ν α) (m : Nat) (as : Array α) (ns : Array ν) (w : World) :
    (t.readOn (some m) as ns w = t.readOn none as ns w ∧ (t.readOn none as ns w).results.size ≤ as.size + m) ∨
    ((t.readOn (some m) as ns w).results.size = as.size + (m + 1) ∧
      (t.readOn (some m) as ns w).ResumesTo (t.readOn none as ns w)) := by
  induction t generalizing m as ns w with
  | done => exact .inl ⟨rfl, Nat.le_add_right as.size m⟩
  | fail e => exact .inl ⟨rfl, Nat.le_add_right as.size m⟩
  | give a k ih =>
    match m with
    | 0 => exact .inr ⟨Array.size_push a, k, rfl, rfl⟩
    | m + 1 =>
      have h := ih () m (as.push a) ns w
      rw [Array.size_push, Nat.add_assoc, Nat.add_comm 1, Nat.add_assoc, Nat.add_comm 1] at h
      exact h
  | draw k ih => exact ih w.drawn m as ns { w with drawn := w.drawn + 1 }
  | look k ih => exact ih w.judgments m as ns w
  | add j k ih => exact ih () m as ns { w with judgments := w.judgments ++ [j] }
  | note x k ih => exact ih () m as (ns.push x) w

theorem read_some (t : Search ν α) (n : Nat) (w : World) :
    (t.read (some n) w = t.read none w ∧ (t.read none w).results.size ≤ n) ∨
    ((t.read (some n) w).results.size = n ∧ (t.read (some n) w).ResumesTo (t.read none w)) := by
  cases n with
  | zero => exact .inr ⟨rfl, fun _ => t, rfl, rfl⟩
  | succ m =>
    rcases t.readOn_some m #[] #[] w with ⟨heq, hle⟩ | ⟨hsize, h⟩
    · exact .inl ⟨heq, hle.trans (by simp)⟩
    · exact .inr ⟨hsize.trans (by simp), h⟩

end Search

/-! ### Requests that are read in part -/

namespace Request
open Search Search.Reading

/-- What comes of the opening: there is nothing to be read, or there is a search. -/
theorem read_cases (r : Request) (o : Settings) (w : World) :
    (∃ whole : Reading Note Answer, whole.results = #[] ∧ ∀ limit, r.read o limit w = whole) ∨
    (∃ (t : Search Note Answer) (ns : Array Note) (w' : World),
      ∀ limit, r.read o limit w = (t.read limit w').after ns) := by
  unfold read readWith
  generalize (r.open o).read (some 1) w = opened
  obtain ⟨⟨ts⟩, ns, w', status⟩ := opened
  cases status with
  | failed e => exact .inl ⟨_, rfl, fun _ => rfl⟩
  | paused k =>
    cases ts with
    | nil => exact .inl ⟨_, rfl, fun _ => rfl⟩
    | cons t ts => exact .inr ⟨t, ns, w', fun _ => rfl⟩
  | ended =>
    cases ts with
    | nil => exact .inl ⟨_, rfl, fun _ => rfl⟩
    | cons t ts => exact .inr ⟨t, ns, w', fun _ => rfl⟩

/-- What comes of an opening that meets no failure. -/
theorem exists_read_of_returns {r : Request} {o : Settings} {I : List Judgment → Prop}
    {P : World → Search Note Answer → Prop} {w : World} (h : (r.open o).Returns (fun _ => False) I P w) :
    ∃ (t : Search Note Answer) (ns : Array Note) (w' : World), P w' t ∧
      ∀ limit, r.read o limit w = (t.read limit w').after ns := by
  obtain ⟨t, ns, w', k, hopened, ht⟩ := h.exists_read_one
  exact ⟨t, ns, w', ht, fun limit => by rw [read, readWith, hopened]⟩

theorem read_some (r : Request) (o : Settings) (n : Nat) (w : World) :
    (r.read o (some n) w = r.read o none w ∧ (r.read o none w).results.size ≤ n) ∨
    ((r.read o (some n) w).results.size = n ∧ (r.read o (some n) w).ResumesTo (r.read o none w)) := by
  rcases r.read_cases o w with ⟨whole, hnone, hread⟩ | ⟨t, ns, w', hread⟩
  · rw [hread, hread, hnone]
    exact .inl ⟨rfl, Nat.zero_le n⟩
  · rw [hread, hread]
    exact (t.read_some n w').imp (And.imp_left (congrArg _)) (And.imp_right (·.after ns))

theorem results_read_some (r : Request) (o : Settings) (n : Nat) (w : World) :
    (r.read o (some n) w).results.toList = (r.read o none w).results.toList.take n := by
  rcases r.read_some o n w with ⟨heq, hle⟩ | ⟨hsize, hresumes⟩
  · rw [heq]
    exact (List.take_of_length_le hle).symm
  · have hlength : (r.read o (some n) w).results.toList.length = n := hsize
    rw [List.prefix_iff_eq_take.1 hresumes.partOf.results, hlength]

/-- Stopped after `n` alternatives, the reading of a request has those that the full reading begins with, and is
a part of it: nothing that comes after the last of them has been run. Unless the full reading has come to its
end by then, to read on is to read everything. -/
theorem read_limit (r : Request) (o : Settings) (n : Nat) (w : World) :
    let full := r.read o none w
    let part := r.read o (some n) w
    part.results.toList = full.results.toList.take n ∧ part.PartOf full ∧
    (part = full ∨ part.ResumesTo full) := by
  intro full part
  refine ⟨r.results_read_some o n w, ?_⟩
  rcases r.read_some o n w with ⟨(heq : part = full), -⟩ | ⟨-, hresumes⟩
  · rw [heq]
    exact ⟨.refl full, .inl rfl⟩
  · exact ⟨hresumes.partOf, .inr hresumes⟩

/-- Two rounds forward from `a : A`, stopped after none, one, two and three results: the rounds of the later ones
have not yet put anything into the store. -/
example :
    let a : Judgment := ⟨.ofText "a", .ofText "A"⟩
    let f : Judgment := ⟨.ofText "f", .arrow [.ofText "$t"] (.tuple [.ofText "L", .ofText "$t"])⟩
    let r := Request.iterateForward (.int 1) (.int 2) a.term
    [0, 1, 2, 3].map (fun n => (r.read {} (some n) ⟨[f, a], 0⟩).world.judgments.length) = [2, 3, 3, 4] := by
  decide +kernel

end Request
end ProofSearch
