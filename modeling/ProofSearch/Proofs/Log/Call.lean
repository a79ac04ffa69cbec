import ProofSearch.Proofs.Search.Throughout
import ProofSearch.Proofs.Subst.Settled

/-!
# Calls

A call is a goal to be proved in an environment, under a substitution. A search that keeps a log leaves a
note where it comes to a call, where terms have been made equal and the bindings are others than before, and
where the goal is to be made equal to a stored judgment, of which the note shows the names it has been given
(`Entry`). Where the call is settled no name of the judgment stands in it, whatever names the judgment is stored
with (`Call.Settled.apart`): all of them end in the number just drawn. Nothing is missing from the log that the
search shows of itself: before each of its events there are entries that tell of it (`Told`).
-/

namespace ProofSearch

structure Call where
  env : Environment
  goal : Term
  sub : Subst

namespace Call
variable {m n : Nat} {c : Call}

/-- No variable of the goal, of the environment or of the substitution, bound or in what it is bound to, ends
in a number from `n` on. -/
structure Settled (n : Nat) (c : Call) : Prop where
  env : c.env.Settled n
  goal : c.goal.Settled n
  sub : c.sub.Settled n

/-- The call with other bindings. -/
def under (c : Call) (r : Subst) : Call := ⟨c.env, c.goal, r⟩

/-- `t` is what the bindings make of the goal. -/
def Shows (c : Call) (t : Term) : Prop := c.sub.instantiate? c.goal = some t

theorem Settled.mono (h : c.Settled n) (hm : n ≤ m) : c.Settled m :=
  ⟨h.env.mono hm, h.goal.mono hm, h.sub.mono hm⟩

/-- The variable stands nowhere in the call. -/
structure Lacks (c : Call) (v : Var) : Prop where
  env : ∀ i ∈ c.env.entries, v ∉ i.term.vars
  goal : v ∉ c.goal.vars
  sub : ∀ w t, c.sub.get? w = some t → v ≠ w ∧ v ∉ t.vars

/-- The judgment and the call have no variable in common. -/
def Apart (c : Call) (j : Judgment) : Prop := ∀ v ∈ j.term.vars, c.Lacks v

theorem Settled.lacks {v : Var} (h : c.Settled n) (hv : ¬ v.Settled n) : c.Lacks v where
  env i hi hmem := hv (h.env i hi v hmem)
  goal hmem := hv (h.goal v hmem)
  sub w t hw := by
    obtain ⟨hwset, ht⟩ := h.sub w t hw
    refine ⟨?_, fun hmem => hv (ht v hmem)⟩
    rintro rfl
    exact hv (Term.settled_var.1 hwset)

theorem Settled.apart (h : c.Settled n) (j : Judgment) (hm : n ≤ m) : c.Apart (j.tag (ending m)) := by
  intro v hv
  obtain ⟨w, _, hw⟩ := Term.mem_vars_subst.1 (show v ∈ (j.term.tag (ending m)).vars from hv)
  rw [Term.vars_var, List.mem_singleton] at hw
  exact h.lacks fun hset => hset m hm (hw ▸ Var.ending_suffix_tag m w)

/-- The call in one term, as a note can hold it. -/
def term (c : Call) : Term :=
  .tuple [c.goal, .tuple (c.env.entries.map Judgment.term),
    .tuple (c.sub.bindings.map fun b => .tuple [.var b.1, b.2])]

theorem term_injective : Function.Injective term := by
  rintro ⟨⟨is⟩, q, ⟨bs⟩⟩ ⟨⟨js⟩, p, ⟨ds⟩⟩ h
  simp only [term, Term.tuple.injEq, List.cons.injEq, and_true] at h
  obtain ⟨rfl, henv, hsub⟩ := h
  obtain rfl := List.map_injective_iff.2 (fun _ _ => Judgment.term_injective) henv
  have hpair : Function.Injective fun b : Var × Term => Term.tuple [.var b.1, b.2] := by
    rintro ⟨v, t⟩ ⟨w, u⟩ h
    simpa using h
  obtain rfl := List.map_injective_iff.2 hpair hsub
  rfl

end Call

/-! ### Entries -/

/-- What a log says. -/
inductive Entry
  /-- The goal of the call is to be proved next. -/
  | asked (c : Call)
  /-- Terms have been made equal, and these are the bindings now. -/
  | bound (c : Call)
  /-- The goal is made equal to the judgment next, which is stored with other names. -/
  | tried (c : Call) (j : Judgment)

namespace Entry

/-- The entry as a note of something added, of which a search without rounds leaves none of its own. -/
def note : Entry → Note
  | asked c => .added c.term
  | bound c => .added (.tuple [c.term])
  | tried c j => .added (.tuple [c.term, j.term])

theorem note_injective : Function.Injective note := by
  intro a b h
  cases a with
  | asked c =>
    cases b with
    | asked d => exact congrArg asked (Call.term_injective (Note.added.inj h))
    | bound d => simp [note, Call.term] at h
    | tried d i => simp [note, Call.term] at h
  | bound c =>
    cases b with
    | asked d => simp [note, Call.term] at h
    | bound d =>
      simp only [note, Note.added.injEq, Term.tuple.injEq, List.cons.injEq, and_true] at h
      exact congrArg bound (Call.term_injective h)
    | tried d i => simp [note] at h
  | tried c j =>
    cases b with
    | asked d => simp [note, Call.term] at h
    | bound d => simp [note] at h
    | tried d i =>
      simp only [note, Note.added.injEq, Term.tuple.injEq, List.cons.injEq, and_true] at h
      rw [Call.term_injective h.1, Judgment.term_injective h.2]

/-- The call is settled at the counter, and what is tried has no variable in common with it. -/
def Fresh (n : Nat) : Entry → Prop
  | asked c => c.Settled n
  | bound c => c.Settled n
  | tried c j => c.Settled n ∧ c.Apart j

end Entry

/-- The note is the search's own. One of something added, of which a search without rounds leaves none, is of its
log. -/
def Note.isOwn : Note → Bool
  | added _ => false
  | event _ _ _ | round _ _ _ | lemmaRound _ _ => true

@[simp] theorem Note.isOwn_event (ev : Event) (level : Datum) (t : Term) : (event ev level t).isOwn = true := rfl

@[simp] theorem Entry.isOwn_note (e : Entry) : e.note.isOwn = false := by cases e <;> rfl

/-! ### What the log tells -/

/-- Behind `past` there are only entries. -/
def Entries (past past' : List Note) : Prop := ∃ xs, past' = past ++ xs ∧ ∀ x ∈ xs, x.isOwn = false

theorem Entries.refl (past : List Note) : Entries past past :=
  ⟨[], (List.append_nil past).symm, fun _ h => absurd h List.not_mem_nil⟩

/-- The entry has been left, and no event has been noted since. -/
def Entry.Stands (past : List Note) (e : Entry) : Prop := ∃ before, Entries (before ++ [e.note]) past

namespace Entry
variable {past past' : List Note} {e : Entry}

theorem stands_concat (past : List Note) (e : Entry) : e.Stands (past ++ [e.note]) :=
  ⟨past, .refl _⟩

theorem Stands.mono (h : e.Stands past) (hp : Entries past past') : e.Stands past' := by
  obtain ⟨before, xs, rfl, hxs⟩ := h
  obtain ⟨ys, rfl, hys⟩ := hp
  exact ⟨before, xs ++ ys, List.append_assoc _ xs ys, List.forall_mem_append.2 ⟨hxs, hys⟩⟩

theorem Stands.concat (h : e.Stands past) (e' : Entry) : e.Stands (past ++ [e'.note]) :=
  h.mono ⟨[e'.note], rfl, List.forall_mem_singleton.2 e'.isOwn_note⟩

end Entry

/-- `r` makes the goal of the call equal to a judgment that is known. The log tells so, and has the judgment too
where it is from the store. -/
structure Call.Matched (past : List Note) (c : Call) (r : Subst) : Prop where
  bound : (Entry.bound (c.under r)).Stands past
  known : ∃ j, c.sub.unify c.goal j.term = .ok r ∧ (j ∈ c.env.entries ∨ (Entry.tried c j).Stands past)

theorem Call.Matched.mono {past past' : List Note} {c : Call} {r : Subst} (h : c.Matched past r)
    (hp : Entries past past') : c.Matched past' r where
  bound := h.bound.mono hp
  known := h.known.imp fun _ hj => ⟨hj.1, hj.2.imp_right (·.mono hp)⟩

/-- Entries left since the last event tell what the next one shows: for a goal, the call that was come to; for a match,
the judgment and the bindings that make the goal equal to it; for what is expanded, a call as it was come to, or with
the bindings that take its proof apart; for what is pruned, the bindings there are. -/
def Told (past : List Note) (t : Term) : Event → Prop
  | .goal => ∃ c, (Entry.asked c).Stands past ∧ c.Shows t
  | .hit => ∃ (c : Call) (r : Subst), c.Matched past r ∧ (c.under r).Shows t
  | .expand => ∃ c, ((Entry.asked c).Stands past ∨ (Entry.bound c).Stands past) ∧ c.Shows t
  | .prune => ∃ c, (Entry.bound c).Stands past ∧ c.Shows t

/-- A log has entries that are fresh and, if the search notes its events, those too, each told by the entries. -/
inductive Logs (traced : Bool) (n : Nat) (past : List Note) : Note → Prop
  | entry {e : Entry} (h : e.Fresh n) : Logs traced n past e.note
  | event {ev : Event} {t : Term} (level : Datum) (ht : traced = true) (h : Told past t ev) :
      Logs traced n past (.event ev level t)

namespace Logs
variable {traced : Bool} {n : Nat} {past : List Note} {x : Note} {e : Entry}

theorem fresh (h : Logs traced n past e.note) : e.Fresh n := by
  generalize hx : e.note = x at h
  cases h with
  | entry h => exact Entry.note_injective hx ▸ h
  | event level ht h => cases e <;> cases hx

theorem told {ev : Event} {level : Datum} {t : Term} (h : Logs traced n past (.event ev level t)) :
    Told past t ev := by
  generalize hx : Note.event ev level t = x at h
  cases h with
  | @entry e h => cases e <;> cases hx
  | event level ht h =>
    cases hx
    exact h

theorem isOwn_eq_false (h : Logs false n past x) : x.isOwn = false := by
  cases h with
  | @entry e h => exact e.isOwn_note
  | event level ht h => cases ht

theorem mono (h : Logs false n past x) : Logs traced n past x := by
  cases h with
  | entry h => exact .entry h
  | event level ht h => cases ht

end Logs

namespace Search
variable {α : Type} {n : Nat} {past : List Note} {c : Call} {traced : Bool}

/-- The search `t` is `u` with a log: without the entries they are the same. Consumed from the world on, it comes to
entries that are fresh, and to alternatives as `P` says, at whatever moment. However much of the two is read, the
events of `u` are those of `t`, and there each of them comes behind entries that tell of it. -/
structure FreshLog (P : Nat → α → Prop) (w : World) (u t : Search Note α) : Prop where
  same : t.filterNotes Note.isOwn = u
  logged : ∀ as js (e : Entry) k w', t.ComesTo w as js (note e.note k) w' → e.Fresh w'.drawn
  given : ∀ as js a k w', t.ComesTo w as js (give a k) w' → P w'.drawn a
  events : ∀ limit, (u.read limit w).notes.toList = (t.read limit w).notes.toList.filter Note.isOwn
  told : ∀ limit before ev level q after,
    (t.read limit w).notes.toList = before ++ .event ev level q :: after → Told before q ev

theorem Throughout.freshLog {P : Nat → α → Prop} {w : World} {u t : Search Note α}
    (h : t.Throughout (Logs traced) (fun m _ a => P m a) w.drawn [])
    (hsame : t.filterNotes Note.isOwn = u) : FreshLog P w u t where
  same := hsame
  logged _ _ _ _ _ ht := (h.comesTo ht).elim fun _ h => h.1.fresh
  given _ _ _ _ _ ht := (h.comesTo ht).elim fun _ h => h.1
  events limit := hsame ▸ (t.read_filterNotes Note.isOwn limit w).notes
  told limit _ _ _ _ _ hsplit := (h.noted_read limit _ _ _ hsplit).elim fun _ h => h.told

/-- Whatever has been noted before, the log is as it should be, and what the search gives is settled from the counter
on. -/
def Keeps (traced : Bool) (t : Search Note Subst) (n : Nat) : Prop :=
  ∀ past, t.Throughout (Logs traced) (fun m _ r => r.Settled m) n past

theorem Throughout.event {P : Nat → List Note → α → Prop} {ev : Event} {level : Datum} {s : Subst} {q : Term}
    {rest : Unit → Search Note α} (htold : ∀ t, s.instantiate? q = some t → Told past t ev)
    (h : ∀ past', (rest ()).Throughout (Logs traced) P n past') :
    (Search.event traced ev level s q rest).Throughout (Logs traced) P n past :=
  .ofOption fun t ht => .noteIf (fun htraced => .event level htraced (htold t ht)) h

/-! ### Unifying with a log -/

/-- The entry is left, and the search goes on. -/
def log (e : Entry) (rest : Unit → Search Note α) : Search Note α := note e.note rest

@[simp] theorem filterNotes_log (e : Entry) (rest : Unit → Search Note α) :
    (log e rest).filterNotes Note.isOwn = (rest ()).filterNotes Note.isOwn := by
  rw [log, filterNotes, e.isOwn_note]
  rfl

/-- Makes the terms equal under the bindings of the call. -/
def unifyLogged (c : Call) (t u : Term) (k : Subst → Search Note α) : Search Note α :=
  ofUnify (c.sub.unify t u) fun r => log (.bound ⟨c.env, c.goal, r⟩) fun _ => k r

@[simp] theorem filterNotes_unifyLogged (c : Call) (t u : Term) (k : Subst → Search Note α) :
    (unifyLogged c t u k).filterNotes Note.isOwn =
      ofUnify (c.sub.unify t u) fun r => (k r).filterNotes Note.isOwn := by
  simp [unifyLogged]

theorem throughout_unifyLogged {P : Nat → List Note → α → Prop} {t u : Term} {k : Subst → Search Note α}
    (hc : c.Settled n) (ht : t.Settled n) (hu : u.Settled n)
    (h : ∀ r : Subst, c.sub.unify t u = .ok r → r.Settled n →
      (k r).Throughout (Logs traced) P n (past ++ [(Entry.bound (c.under r)).note])) :
    (unifyLogged c t u k).Throughout (Logs traced) P n past := by
  refine .ofUnify fun r hr => ?_
  have hset := hc.sub.unify ht hu hr
  exact ⟨.entry (e := .bound _) ⟨hc.env, hc.goal, hset⟩, h r hr hset⟩

/-! ### What is known, with a log -/

def matchApartLogged (c : Call) : List Judgment → Search Note Subst
  | [] => done
  | j :: js => draw fun n => log (.tried c (j.tag (ending n))) fun _ =>
    (unifyLogged c c.goal (j.tag (ending n)).term one).append fun _ => matchApartLogged c js

def matchAllLogged (c : Call) : List Judgment → Search Note Subst
  | [] => done
  | j :: js => (unifyLogged c c.goal j.term one).append fun _ => matchAllLogged c js

def storedLogged (c : Call) : Search Note Subst := look (matchApartLogged c)

def knownLogged (c : Call) : Search Note Subst :=
  (storedLogged c).append fun _ => matchAllLogged c c.env.entries

theorem filterNotes_matchApartLogged (c : Call) (js : List Judgment) :
    (matchApartLogged c js).filterNotes Note.isOwn = matchApart c.goal c.sub js := by
  induction js with
  | nil => rfl
  | cons j js ih => simp [matchApartLogged, matchApart, ih]

@[simp] theorem filterNotes_matchAllLogged (c : Call) (js : List Judgment) :
    (matchAllLogged c js).filterNotes Note.isOwn = matchAll c.goal c.sub js := by
  induction js with
  | nil => rfl
  | cons j js ih => simp [matchAllLogged, matchAll, ih]

@[simp] theorem filterNotes_storedLogged (c : Call) :
    (storedLogged c).filterNotes Note.isOwn = stored c.goal c.sub :=
  congrArg look (funext fun js => filterNotes_matchApartLogged c js)

@[simp] theorem filterNotes_knownLogged (c : Call) :
    (knownLogged c).filterNotes Note.isOwn = known c.env c.goal c.sub := by
  simp [knownLogged, known]

/-- What is given is settled, and the log tells which judgment it comes of. -/
def KeepsMatched (traced : Bool) (c : Call) (t : Search Note Subst) (n : Nat) : Prop :=
  ∀ past, t.Throughout (Logs traced) (fun m past' r => r.Settled m ∧ c.Matched past' r) n past

theorem keeps_matchApartLogged (h : c.Settled n) (js : List Judgment) :
    KeepsMatched traced c (matchApartLogged c js) n := by
  induction js generalizing n with
  | nil => exact fun _ => trivial
  | cons j js ih =>
    intro past
    have hnext := h.mono (Nat.le_succ n)
    have hj : (j.tag (ending n)).term.Settled (n + 1) := j.term.settled_tag (Nat.lt_succ_self n)
    refine ⟨.entry (e := .tried _ _) ⟨hnext, h.apart j (Nat.le_refl n)⟩, Throughout.append (n := n + 1) ?_ ?_⟩
    · refine throughout_unifyLogged hnext hnext.goal hj fun r hr hset => .one ⟨hset, ?_⟩
      have htried := (Entry.stands_concat past (.tried c (j.tag (ending n)))).concat (.bound (c.under r))
      exact ⟨Entry.stands_concat _ _, j.tag (ending n), hr, .inr htried⟩
    · exact fun m past' hm => ih (hnext.mono hm) past'

theorem keeps_storedLogged (h : c.Settled n) : KeepsMatched traced c (storedLogged c) n := fun past js =>
  keeps_matchApartLogged h js past

theorem keeps_matchAllLogged (h : c.Settled n) {js : List Judgment} (hjs : ∀ j ∈ js, j ∈ c.env.entries) :
    KeepsMatched traced c (matchAllLogged c js) n := by
  induction js generalizing n with
  | nil => exact fun _ => trivial
  | cons j js ih =>
    intro past
    obtain ⟨hj, hjs⟩ := List.forall_mem_cons.1 hjs
    refine Throughout.append (throughout_unifyLogged h h.goal (h.env j hj) fun r hr hset => .one ⟨hset, ?_⟩) ?_
    · exact ⟨Entry.stands_concat _ _, j, hr, .inl hj⟩
    · exact fun m past' hm => ih (h.mono hm) hjs past'

theorem keeps_knownLogged (h : c.Settled n) : KeepsMatched traced c (knownLogged c) n := fun past =>
  Throughout.append (keeps_storedLogged h past) fun _ past' hm =>
    keeps_matchAllLogged (h.mono hm) (fun _ hj => hj) past'

end Search
end ProofSearch
