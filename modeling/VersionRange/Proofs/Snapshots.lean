import VersionRange.Proofs.VersionSets

/-!
# Reading a set that changes

Passes over a set and over its views go on while versions are added, in any order and any number of
them at once. A pass over the set starts when it is opened, and one over a view with its first step;
from then on it shows what was there when it started and nothing else. No reading changes the set.
-/

namespace VersionRange

namespace VersionSet

open Version

/-! ### Sessions -/

/-- What is read: the set, or one of the views that were made of it. -/
inductive Source
  | members
  | view (index : Nat)
  deriving DecidableEq

/-- What is done with a set and with what reads it. -/
inductive Event
  /-- An operation that adds to the set. -/
  | change (operation : Operation)
  /-- A view of the set is made. -/
  | view (condition : Expression)
  /-- A pass is opened. -/
  | start (source : Source)
  /-- A pass goes one step on. -/
  | next (pass : Nat)
  deriving DecidableEq

/-- The operation that an event is, if it adds to the set. -/
def Event.operation? : Event → Option Operation
  | change operation => some operation
  | _ => none

/-- The condition of the view that an event makes. -/
def Event.condition? : Event → Option Expression
  | view condition => some condition
  | _ => none

/-- The set that some events leave of an empty one: what is added counts, and no reading does. -/
def setAfter (events : List Event) : VersionSet :=
  (events.filterMap Event.operation?).foldl apply {}

/-- A pass: it has not begun yet to read a view, or it has some versions left to show. -/
inductive Pass
  | waiting (view : View)
  | reading (left : List Version)

/-- The versions that a pass has left to show; one that has not begun takes those that its view
shows now. -/
def Pass.left (s : VersionSet) : Pass → List Version
  | waiting view => view.read s
  | reading left => left

/-- A set, the views that were made of it, and the passes that were opened. -/
structure Session where
  set : VersionSet := {}
  views : List View := []
  passes : List Pass := []

namespace Session

/-- The session behind an event. -/
def after (σ : Session) : Event → Session
  | .change operation => { σ with set := σ.set.apply operation }
  | .view condition => { σ with views := σ.views ++ [⟨condition⟩] }
  | .start .members => { σ with passes := σ.passes ++ [.reading σ.set.members] }
  | .start (.view index) =>
    match σ.views[index]? with
    | some view => { σ with passes := σ.passes ++ [.waiting view] }
    | none => σ
  | .next pass => { σ with passes := σ.passes.modify pass fun p ↦ .reading (p.left σ.set).tail }

/-- What a step of a pass shows, unless the pass has ended. -/
def shows (σ : Session) (pass : Nat) : Option Version :=
  σ.passes[pass]?.bind fun p ↦ (p.left σ.set).head?

/-- What the steps of a pass show in the course of some events. -/
def shown (pass : Nat) (σ : Session) : List Event → List (Option Version)
  | [] => []
  | event :: events =>
    let rest := shown pass (σ.after event) events
    if event = .next pass then σ.shows pass :: rest else rest

end Session

/-- What `count` steps of a pass show that has some versions to show: these, and then nothing. -/
def snapshot (versions : List Version) (count : Nat) : List (Option Version) :=
  (List.range count).map (versions[·]?)

private theorem snapshot_succ (versions : List Version) (count : Nat) :
    snapshot versions (count + 1) = versions.head? :: snapshot versions.tail count := by
  rw [snapshot, List.range_succ_eq_map, List.map_cons, List.map_map, snapshot]
  cases versions <;> rfl

namespace Session

variable {σ : Session} {pass index : Nat} {left : List Version} {view : View}

/-! ### Steps -/

/-- An event that is no step of a pass leaves the pass as it is. -/
theorem passes_after (p : Pass) (h : σ.passes[pass]? = some p) (event : Event)
    (hevent : event ≠ .next pass) : (σ.after event).passes[pass]? = some p := by
  have happend (q : Pass) : (σ.passes ++ [q])[pass]? = some p := by
    rw [List.getElem?_append_left (List.getElem?_eq_some_iff.mp h).1, h]
  cases event with
  | change => exact h
  | view => exact h
  | next other =>
    have hne : other ≠ pass := fun heq ↦ hevent (by rw [heq])
    show (σ.passes.modify other _)[pass]? = _
    rw [List.getElem?_modify, h]
    exact congrArg some (if_neg hne)
  | start source =>
    cases source with
    | members => exact happend _
    | view index =>
      rw [after]
      split
      · exact happend _
      · exact h

/-- A step of a pass leaves it what it has left behind the version that it shows. -/
theorem passes_after_next (p : Pass) (h : σ.passes[pass]? = some p) :
    (σ.after (.next pass)).passes[pass]? = some (.reading (p.left σ.set).tail) := by
  rw [after, List.getElem?_modify_eq, h]
  rfl

/-- Only an operation that adds to the set changes the set. -/
theorem set_after (σ : Session) (event : Event) :
    (σ.after event).set = ([event].filterMap Event.operation?).foldl apply σ.set := by
  cases event with
  | start source =>
    cases source with
    | members => rfl
    | view index =>
      rw [after]
      split <;> rfl
  | _ => rfl

/-- Views are kept in the order in which they are made. -/
theorem views_after (σ : Session) (event : Event) :
    (σ.after event).views = σ.views ++ ([event].filterMap Event.condition?).map View.mk := by
  cases event with
  | view => rfl
  | start source =>
    cases source with
    | members => exact (List.append_nil _).symm
    | view index =>
      rw [after]
      split <;> exact (List.append_nil _).symm
  | _ => exact (List.append_nil _).symm

/-! ### Runs -/

private theorem set_foldl_after (events : List Event) (σ : Session) :
    (events.foldl after σ).set = (events.filterMap Event.operation?).foldl apply σ.set := by
  induction events generalizing σ with
  | nil => rfl
  | cons event events ih =>
    rw [List.foldl_cons, ih, set_after, ← List.foldl_append, ← List.filterMap_append,
      List.singleton_append]

private theorem views_foldl_after (events : List Event) (σ : Session) :
    (events.foldl after σ).views =
      σ.views ++ (events.filterMap Event.condition?).map View.mk := by
  induction events generalizing σ with
  | nil => exact (List.append_nil _).symm
  | cons event events ih =>
    rw [List.foldl_cons, ih, views_after, List.append_assoc, ← List.map_append,
      ← List.filterMap_append, List.singleton_append]

/-- A pass that has begun shows what it has left, step by step, whatever happens in between. -/
theorem shown_of_reading (h : σ.passes[pass]? = some (.reading left)) (events : List Event) :
    shown pass σ events = snapshot left (events.count (.next pass)) := by
  induction events generalizing σ left with
  | nil => rfl
  | cons event events ih =>
    rw [shown]
    by_cases hevent : event = .next pass
    · have hshows : σ.shows pass = left.head? := by
        rw [shows, h]
        rfl
      subst hevent
      rw [if_pos rfl, List.count_cons_self, snapshot_succ, hshows, ih (passes_after_next _ h)]
      rfl
    · rw [if_neg hevent, List.count_cons_of_ne hevent, ih (passes_after _ h event hevent)]

/-- A pass over a view shows what the view showed at the first step of the pass. -/
theorem shown_of_waiting (h : σ.passes[pass]? = some (.waiting view)) {before : List Event}
    (hbefore : .next pass ∉ before) (later : List Event) :
    shown pass σ (before ++ .next pass :: later) =
      snapshot (view.read (before.foldl after σ).set) (later.count (.next pass) + 1) := by
  induction before generalizing σ with
  | nil =>
    have hshows : σ.shows pass = (view.read σ.set).head? := by
      rw [shows, h]
      rfl
    rw [List.nil_append, shown, if_pos rfl, hshows, shown_of_reading (passes_after_next _ h),
      snapshot_succ]
    rfl
  | cons event before ih =>
    obtain ⟨hevent, hbefore⟩ := List.ne_and_not_mem_of_not_mem_cons hbefore
    have hevent : event ≠ .next pass := Ne.symm hevent
    rw [List.cons_append, shown, if_neg hevent, ih (passes_after _ h event hevent) hbefore]
    rfl

/-! ### Passes that are opened -/

/-- A pass over the set shows the members that there were when it was opened. -/
theorem shown_start_members (σ : Session) (later : List Event) :
    shown σ.passes.length σ (.start .members :: later) =
      snapshot σ.set.members (later.count (.next σ.passes.length)) := by
  have hopened : (σ.after (.start .members)).passes[σ.passes.length]? =
      some (.reading σ.set.members) :=
    List.getElem?_concat_length
  rw [shown, if_neg nofun]
  exact shown_of_reading hopened later

/-- A pass over a view shows the members that satisfied its condition at the first step of it. -/
theorem shown_start_view (hview : σ.views[index]? = some view) {before : List Event}
    (hbefore : .next σ.passes.length ∉ before) (later : List Event) :
    shown σ.passes.length σ (.start (.view index) :: (before ++ .next σ.passes.length :: later)) =
      snapshot (view.read (before.foldl after σ).set)
        (later.count (.next σ.passes.length) + 1) := by
  have hafter : σ.after (.start (.view index)) =
      { σ with passes := σ.passes ++ [.waiting view] } := by
    rw [after, hview]
  have hopened : (σ.after (.start (.view index))).passes[σ.passes.length]? =
      some (.waiting view) := by
    rw [hafter]
    exact List.getElem?_concat_length
  have hset : (σ.after (.start (.view index))).set = σ.set := set_after σ _
  rw [shown, if_neg nofun, shown_of_waiting hopened hbefore, set_foldl_after, hset,
    ← set_foldl_after]

end Session

/-! ### The ends of a set -/

variable {s : VersionSet}

/-- To search from the end is to take the last of those that are shown. -/
theorem latest?_some (s : VersionSet) (e : Expression) :
    s.latest? (some e) = (s.filter e).getLast? := by
  rw [latest?, filter, ← List.head?_filter, List.filter_reverse, List.head?_reverse]

/-! ### Loops -/

/-- A loop whose body does not fail goes over all that it was given, whatever the body adds. -/
theorem visit_of_ok {body : Version → VersionSet → Except Failure Unit × VersionSet}
    (hbody : ∀ v t, (body v t).1 = .ok ()) (s : VersionSet) (vs : List Version) :
    visit body s vs = (.ok vs, vs.foldl (fun t v ↦ (body v t).2) s) := by
  induction vs generalizing s with
  | nil => rfl
  | cons v vs ih =>
    have hfirst : body v s = (.ok (), (body v s).2) := Prod.ext (hbody v s) rfl
    rw [visit, hfirst, List.foldl_cons]
    dsimp only
    rw [ih]

/-! ### Any course of events -/

private theorem pairwise_members_setAfter (events : List Event) :
    (setAfter events).members.Pairwise Precedes :=
  (collects_empty.foldl_apply _).ascending

/-- Reading is consistent. After any events, in whatever order additions, views and steps of passes
came, the set is what the additions alone leave, it ascends, and so does what satisfies an
expression. A pass that is opened then over the set shows these members one by one, and then nothing;
a pass over a view shows those that satisfy its condition when it takes its first step, with all that
has been added by then, and then nothing; neither depends on what happens in the course of it. The
latest and the earliest member are the ends of such a pass. A loop ends, whatever its body adds, goes
over the same, and leaves what its body has added. -/
theorem passes_show_snapshots (history : List Event) :
    let σ := history.foldl Session.after {}
    let s := setAfter history
    let opened := σ.passes.length
    σ.set = s ∧
    s.members.Pairwise Precedes ∧
    (∀ e, (s.filter e).Pairwise Precedes ∧
      ∀ v, v ∈ s.filter e ↔ v ∈ s.members ∧ Expression.admits e v = true) ∧
    (∀ later, Session.shown opened σ (.start .members :: later) =
      snapshot s.members (later.count (.next opened))) ∧
    (∀ index condition, (history.filterMap Event.condition?)[index]? = some condition →
      ∀ before later, .next opened ∉ before →
        Session.shown opened σ (.start (.view index) :: (before ++ .next opened :: later)) =
          snapshot ((setAfter (history ++ before)).filter condition)
            (later.count (.next opened) + 1)) ∧
    s.latest? none = s.members.getLast? ∧
    s.earliest? none = s.members.head? ∧
    (∀ e, s.latest? (some e) = (s.filter e).getLast? ∧
      s.earliest? (some e) = (s.filter e).head?) ∧
    ∀ body : Version → VersionSet → Except Failure Unit × VersionSet,
      (∀ v t, (body v t).1 = .ok ()) →
        let leaves := fun vs : List Version ↦ vs.foldl (fun t v ↦ (body v t).2) s
        s.passAll body = (.ok s.members, leaves s.members) ∧
        ∀ e, s.pass e body = (.ok (s.filter e), leaves (s.filter e)) := by
  intro σ s opened
  have hset : σ.set = s := Session.set_foldl_after history {}
  have hascending : s.members.Pairwise Precedes := pairwise_members_setAfter history
  refine ⟨hset, hascending, fun e ↦ ⟨hascending.filter _, fun v ↦ List.mem_filter⟩, ?_, ?_,
    rfl, rfl, fun e ↦ ⟨latest?_some s e, rfl⟩, ?_⟩
  · intro later
    rw [← hset]
    exact Session.shown_start_members σ later
  · intro index condition hcondition before later hbefore
    have hview : σ.views[index]? = some ⟨condition⟩ := by
      rw [Session.views_foldl_after, List.nil_append, List.getElem?_map, hcondition]
      rfl
    rw [Session.shown_start_view hview hbefore, ← List.foldl_append, Session.set_foldl_after]
    rfl
  · intro body hbody leaves
    exact ⟨visit_of_ok hbody s _, fun e ↦ visit_of_ok hbody s _⟩

/-- A pass over the set does not show what is added after it was opened; one over a view shows what
is added before its first step. -/
example :
    let release (major : Nat) : Version := ⟨major, 0, 0, [], []⟩
    let add (major : Nat) : Event := .change (.add (.version (release major)))
    let events := [add 1, .view Expression.any, .start .members, .start (.view 0), add 0, .next 0,
      .next 1, add 2, .next 0, .next 1, .next 1]
    Session.shown 0 {} events = [some (release 1), none] ∧
      Session.shown 1 {} events = [some (release 0), some (release 1), none] := by
  decide +kernel

end VersionSet

end VersionRange
