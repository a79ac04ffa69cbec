import ProofSearch.Environment
import ProofSearch.Search.Draws
import ProofSearch.Search.Reading

/-!
# Searches with fewer notes

Notes are left on the way and change nothing else. Without the notes that fail a test (`filterNotes`) a search
gives the same alternatives and leaves the same world, whatever part of it is read (`read_filterNotes`), so a
program may leave notes besides those of another one and still be that program. A search of which only the first
alternative over some judgments is wanted can be run with its notes as well (`firstNoted`).
-/

namespace ProofSearch.Search
variable {ν α β γ : Type} {p : ν → Bool}

/-- The search, in which only the notes that `p` holds of are left. -/
def filterNotes (p : ν → Bool) : Search ν α → Search ν α
  | done => done
  | fail e => fail e
  | give a k => give a fun _ => (k ()).filterNotes p
  | draw k => draw fun n => (k n).filterNotes p
  | look k => look fun js => (k js).filterNotes p
  | add j k => add j fun _ => (k ()).filterNotes p
  | note x k => noteIf (p x) x fun _ => (k ()).filterNotes p

@[simp] theorem filterNotes_done : (done : Search ν α).filterNotes p = done := rfl

@[simp] theorem filterNotes_fail (e : Fault) : (fail e : Search ν α).filterNotes p = fail e := rfl

@[simp] theorem filterNotes_give (a : α) (k : Unit → Search ν α) :
    (give a k).filterNotes p = give a fun _ => (k ()).filterNotes p := rfl

@[simp] theorem filterNotes_draw (k : Nat → Search ν α) :
    (draw k).filterNotes p = draw fun n => (k n).filterNotes p := rfl

@[simp] theorem filterNotes_look (k : List Judgment → Search ν α) :
    (look k).filterNotes p = look fun js => (k js).filterNotes p := rfl

@[simp] theorem filterNotes_one (a : α) : (one a : Search ν α).filterNotes p = one a := rfl

@[simp] theorem filterNotes_noteIf (b : Bool) (x : ν) (k : Unit → Search ν α) :
    (noteIf b x k).filterNotes p = noteIf (b && p x) x fun _ => (k ()).filterNotes p := by cases b <;> rfl

theorem noteIf_append (b : Bool) (x : ν) (k u : Unit → Search ν α) :
    (noteIf b x k).append u = noteIf b x fun _ => (k ()).append u := by cases b <;> rfl

theorem noteIf_bind (b : Bool) (x : ν) (k : Unit → Search ν α) (f : α → Search ν β) :
    (noteIf b x k).bind f = noteIf b x fun _ => (k ()).bind f := by cases b <;> rfl

@[simp] theorem filterNotes_append (t : Search ν α) (u : Unit → Search ν α) :
    (t.append u).filterNotes p = (t.filterNotes p).append fun _ => (u ()).filterNotes p := by
  induction t with
  | done => rfl
  | fail e => rfl
  | give a k ih => exact congrArg (give a) (funext fun u => ih u)
  | draw k ih => exact congrArg draw (funext fun n => ih n)
  | look k ih => exact congrArg look (funext fun js => ih js)
  | add j k ih => exact congrArg (add j) (funext fun u => ih u)
  | note x k ih =>
    show noteIf (p x) x _ = (noteIf (p x) x _).append _
    rw [noteIf_append]
    exact congrArg (noteIf (p x) x) (funext fun u => ih u)

@[simp] theorem filterNotes_bind (t : Search ν α) (f : α → Search ν β) :
    (t.bind f).filterNotes p = (t.filterNotes p).bind fun a => (f a).filterNotes p := by
  induction t with
  | done => rfl
  | fail e => rfl
  | give a k ih =>
    show ((f a).append _).filterNotes p = _
    rw [filterNotes_append]
    exact congrArg _ (funext fun u => ih u)
  | draw k ih => exact congrArg draw (funext fun n => ih n)
  | look k ih => exact congrArg look (funext fun js => ih js)
  | add j k ih => exact congrArg (add j) (funext fun u => ih u)
  | note x k ih =>
    show noteIf (p x) x _ = (noteIf (p x) x _).bind _
    rw [noteIf_bind]
    exact congrArg (noteIf (p x) x) (funext fun u => ih u)

@[simp] theorem filterNotes_ofList (as : List α) : (ofList as : Search ν α).filterNotes p = ofList as := by
  induction as with
  | nil => rfl
  | cons a as ih => exact congrArg (give a) (funext fun _ => ih)

@[simp] theorem filterNotes_ofExcept (x : Except Fault β) (k : β → Search ν α) :
    (ofExcept x k).filterNotes p = ofExcept x fun b => (k b).filterNotes p := by cases x <;> rfl

@[simp] theorem filterNotes_ofOption (x : Option β) (k : β → Search ν α) :
    (ofOption x k).filterNotes p = ofOption x fun b => (k b).filterNotes p := by cases x <;> rfl

@[simp] theorem filterNotes_ofUnify (x : Except Refusal Subst) (k : Subst → Search ν α) :
    (ofUnify x k).filterNotes p = ofUnify x fun r => (k r).filterNotes p := by
  match x with
  | .ok r => rfl
  | .error .clash => rfl
  | .error .endless => rfl

@[simp] theorem filterNotes_drawVar (stem : String) (k : Var → Search ν α) :
    (drawVar stem k).filterNotes p = drawVar stem fun v => (k v).filterNotes p := rfl

@[simp] theorem filterNotes_drawVars (stem : String) (n : Nat) (k : List Var → Search ν α) :
    (drawVars stem n k).filterNotes p = drawVars stem n fun vs => (k vs).filterNotes p := by
  induction n generalizing k with
  | zero => rfl
  | succ n ih => exact congrArg draw (funext fun i => ih _)

@[simp] theorem filterNotes_ofDraws (d : Draws β) (k : β → Search ν α) :
    (ofDraws d k).filterNotes p = ofDraws d fun b => (k b).filterNotes p := by
  induction d with
  | ret b => rfl
  | raise e => rfl
  | draw d ih => exact congrArg draw (funext fun n => ih n)

@[simp] theorem filterNotes_matchAll (q : Term) (s : Subst) (js : List Judgment) :
    (matchAll q s js : Search ν Subst).filterNotes p = matchAll q s js := by
  induction js with
  | nil => rfl
  | cons j js ih => simp [matchAll, ih]

theorem filterNotes_matchApart (q : Term) (s : Subst) (js : List Judgment) :
    (matchApart q s js : Search ν Subst).filterNotes p = matchApart q s js := by
  induction js with
  | nil => rfl
  | cons j js ih => simp [matchApart, ih]

@[simp] theorem filterNotes_stored (q : Term) (s : Subst) :
    (stored q s : Search ν Subst).filterNotes p = stored q s :=
  congrArg look (funext fun js => filterNotes_matchApart q s js)

@[simp] theorem filterNotes_known (env : Environment) (q : Term) (s : Subst) :
    (known env q s : Search ν Subst).filterNotes p = known env q s := by
  simp [known]

/-! ### Readings -/

/-- The second reading is the first one without the notes that fail the test. -/
structure Reading.Filters (p : ν → Bool) (r r' : Reading ν α) : Prop where
  results : r'.results = r.results
  notes : r'.notes.toList = r.notes.toList.filter p
  world : r'.world = r.world

theorem readOn_filterNotes (t : Search ν α) (more : Option Nat) (as : Array α) {ms ns : Array ν} (w : World)
    (h : ms.toList = ns.toList.filter p) :
    (t.readOn more as ns w).Filters p ((t.filterNotes p).readOn more as ms w) := by
  induction t generalizing more as ms ns w with
  | done => exact ⟨rfl, h, rfl⟩
  | fail e => exact ⟨rfl, h, rfl⟩
  | give a k ih =>
    match more with
    | none => exact ih () none (as.push a) w h
    | some 0 => exact ⟨rfl, h, rfl⟩
    | some (n + 1) => exact ih () (some n) (as.push a) w h
  | draw k ih => exact ih w.drawn more as { w with drawn := w.drawn + 1 } h
  | look k ih => exact ih w.judgments more as w h
  | add j k ih => exact ih () more as { w with judgments := w.judgments ++ [j] } h
  | note x k ih =>
    show Reading.Filters p _ ((noteIf (p x) x _).readOn more as ms w)
    cases hx : p x with
    | true => exact ih () more as w (by simp [h, hx])
    | false => exact ih () more as w (by simp [h, hx])

theorem read_filterNotes (p : ν → Bool) (t : Search ν α) (limit : Option Nat) (w : World) :
    (t.read limit w).Filters p ((t.filterNotes p).read limit w) :=
  match limit with
  | none => t.readOn_filterNotes none #[] w rfl
  | some 0 => ⟨rfl, rfl, rfl⟩
  | some (n + 1) => t.readOn_filterNotes (some n) #[] w rfl

/-! ### The first alternative -/

/-- The first alternative over the judgments `js`, with the notes left on the way to it. -/
def firstNoted (js : List Judgment) : Search ν α → Search ν (Option α)
  | done => one none
  | fail e => fail e
  | give a _ => one (some a)
  | draw k => draw fun n => (k n).firstNoted js
  | look k => (k js).firstNoted js
  | add j k => (k ()).firstNoted (js ++ [j])
  | note x k => note x fun _ => (k ()).firstNoted js

theorem filterNotes_firstNoted (js : List Judgment) (t : Search ν α) :
    (t.firstNoted js).filterNotes p = (t.filterNotes p).firstNoted js := by
  induction t generalizing js with
  | done => rfl
  | fail e => rfl
  | give a k _ => rfl
  | draw k ih => exact congrArg draw (funext fun n => ih n js)
  | look k ih => exact ih js js
  | add j k ih => exact ih () (js ++ [j])
  | note x k ih =>
    show noteIf (p x) x _ = (noteIf (p x) x _).firstNoted js
    cases p x with
    | true => exact congrArg (note x) (funext fun u => ih u js)
    | false => exact ih () js

/-- Without notes the first alternative is that of a computation which only draws. -/
theorem firstNoted_filterNotes_false (js : List Judgment) (t : Search ν α) :
    (t.filterNotes fun _ => false).firstNoted js = ofDraws (t.firstOver js) one := by
  induction t generalizing js with
  | done => rfl
  | fail e => rfl
  | give a k _ => rfl
  | draw k ih => exact congrArg draw (funext fun n => ih n js)
  | look k ih => exact ih js js
  | add j k ih => exact ih () (js ++ [j])
  | note x k ih => exact ih () js

theorem ofDraws_one_bind (d : Draws α) (f : α → Search ν β) : (ofDraws d one).bind f = ofDraws d f := by
  induction d with
  | ret a => exact one_bind a f
  | raise e => rfl
  | draw d ih => exact congrArg draw (funext fun n => ih n)

theorem ofDraws_bind (d : Draws α) (f : α → Draws β) (k : β → Search ν γ) :
    ofDraws (d.bind f) k = ofDraws d fun a => ofDraws (f a) k := by
  induction d with
  | ret a => rfl
  | raise e => rfl
  | draw d ih => exact congrArg draw (funext fun n => ih n)

end ProofSearch.Search
