import Mathlib.Data.List.Forall2
import Mathlib.Data.List.Nodup
import VersionRange.Proofs.Evaluation
import VersionRange.Proofs.Snapshots

/-!
# What queries depend on

Precedence does not see build metadata, so neither does an expression: versions that tie satisfy
the same expressions, and bounds may be replaced by versions that tie with them. Of versions that
tie, a set keeps the one that came first, hence the order in which versions are added decides which
build metadata its members have, and nothing else.
-/

namespace VersionRange

/-! ### Formulas of the same shape -/

/-- Two formulas have the same connectives, and their leaves correspond one by one. -/
inductive Formula.Alike {α β : Type} (r : α → β → Prop) : Formula α → Formula β → Prop
  | leaf {a : α} {b : β} (h : r a b) : Alike r (.leaf a) (.leaf b)
  | and {f f' : Formula α} {g g' : Formula β} (hleft : Alike r f g) (hright : Alike r f' g') :
      Alike r (.and f f') (.and g g')
  | or {f f' : Formula α} {g g' : Formula β} (hleft : Alike r f g) (hright : Alike r f' g') :
      Alike r (.or f f') (.or g g')
  | not {f : Formula α} {g : Formula β} (h : Alike r f g) : Alike r (.not f) (.not g)

namespace Formula.Alike

variable {α β ε : Type} {r : α → β → Prop} {f : Formula α} {g : Formula β}

theorem refl {r : α → α → Prop} (hr : ∀ a, r a a) (f : Formula α) : Alike r f f := by
  induction f with
  | leaf a => exact .leaf (hr a)
  | and _ _ ihl ihr => exact .and ihl ihr
  | or _ _ ihl ihr => exact .or ihl ihr
  | not _ ih => exact .not ih

/-- Formulas whose leaves pass the same tests are true together. -/
theorem holds_eq {test : α → Bool} {test' : β → Bool} (h : Alike r f g)
    (htest : ∀ a b, r a b → test a = test' b) : f.holds test = g.holds test' := by
  induction h with
  | leaf h => exact htest _ _ h
  | and _ _ ihl ihr => rw [holds, holds, ihl, ihr]
  | or _ _ ihl ihr => rw [holds, holds, ihl, ihr]
  | not _ ih => rw [holds, holds, ih]

/-- Formulas whose leaves have the same outcomes have the same outcome. -/
theorem evaluate_eq {test : α → Except ε Bool} {test' : β → Except ε Bool} (h : Alike r f g)
    (htest : ∀ a b, r a b → test a = test' b) : f.evaluate test = g.evaluate test' := by
  rw [evaluate_eq_evaluateNodewise, evaluate_eq_evaluateNodewise]
  induction h with
  | leaf h => exact htest _ _ h
  | and _ _ ihl ihr => rw [evaluateNodewise, evaluateNodewise, ihl, ihr]
  | or _ _ ihl ihr => rw [evaluateNodewise, evaluateNodewise, ihl, ihr]
  | not _ ih => rw [evaluateNodewise, evaluateNodewise, ih]

end Formula.Alike

/-! ### Bounds that tie -/

open Version

theorem Version.Ties.refl (v : Version) : Ties v v := ⟨rfl, rfl, rfl, rfl⟩

theorem Version.Ties.symm {v w : Version} (h : Ties v w) : Ties w v :=
  ⟨h.1.symm, h.2.1.symm, h.2.2.1.symm, h.2.2.2.symm⟩

/-- A comparison does not tell versions that tie from each other. -/
theorem Version.compare_eq_of_ties {v v' w w' : Version} (hv : Ties v v') (hw : Ties w w') :
    compare v w = compare v' w' := by
  obtain ⟨hmajor, hminor, hpatch, hprerelease⟩ := hv
  obtain ⟨hmajor', hminor', hpatch', hprerelease'⟩ := hw
  change Version.compare v w = Version.compare v' w'
  rw [Version.compare, Version.compare, hmajor, hminor, hpatch, hprerelease, hmajor', hminor',
    hpatch', hprerelease']

/-- Two constraints differ at most in the build metadata of their bounds. -/
def Constraint.Ties : Constraint → Constraint → Prop
  | bound comparator v, bound comparator' w => comparator = comparator' ∧ Version.Ties v w
  | interval lower upper lowerInclusive upperInclusive,
      interval lower' upper' lowerInclusive' upperInclusive' =>
    Version.Ties lower lower' ∧ Version.Ties upper upper' ∧
      lowerInclusive = lowerInclusive' ∧ upperInclusive = upperInclusive'
  | _, _ => False

namespace Constraint

theorem Ties.refl (c : Constraint) : c.Ties c := by
  cases c with
  | bound comparator v => exact ⟨rfl, .refl v⟩
  | interval lower upper => exact ⟨.refl lower, .refl upper, rfl, rfl⟩

private theorem admits_eq_of_ties {c d : Constraint} {v w : Version} (hc : c.Ties d)
    (hv : Version.Ties v w) : c.admits v = d.admits w := by
  cases c with
  | bound comparator bound =>
    cases d with
    | bound =>
      obtain ⟨rfl, hbound⟩ := hc
      rw [admits, admits, compare_eq_of_ties hv hbound]
    | interval => exact hc.elim
  | interval lower upper =>
    cases d with
    | bound => exact hc.elim
    | interval =>
      obtain ⟨hlower, hupper, rfl, rfl⟩ := hc
      rw [admits, admits, compare_eq_of_ties hv hlower, compare_eq_of_ties hv hupper]

end Constraint

/-- Two leaves are the same, or constraints that differ at most in build metadata. -/
def Node.Ties : Node → Node → Prop
  | constraint c, constraint d => c.Ties d
  | foreign value, foreign value' => value = value'
  | _, _ => False

namespace Node

theorem Ties.refl (node : Node) : node.Ties node := by
  cases node with
  | constraint c => exact Constraint.Ties.refl c
  | foreign value => exact rfl

private theorem admits_eq_of_ties {a b : Node} {v w : Version} (h : a.Ties b)
    (hv : Version.Ties v w) : a.admits v = b.admits w := by
  cases a with
  | constraint c =>
    cases b with
    | constraint d => rw [admits, admits, Constraint.admits_eq_of_ties h hv]
    | foreign value => exact h.elim
  | foreign value =>
    cases b with
    | constraint d => exact h.elim
    | foreign value' =>
      obtain rfl : value = value' := h
      rfl

end Node

/-- Versions that tie satisfy the same expressions, whatever build metadata the bounds have. -/
theorem Expression.admits_eq_of_alike {e e' : Expression} {v w : Version}
    (h : e.Alike Constraint.Ties e') (hv : Ties v w) :
    Expression.admits e v = Expression.admits e' w :=
  h.holds_eq fun _ _ hc ↦ Constraint.admits_eq_of_ties hc hv

private theorem Expression.admits_eq_of_ties (e : Expression) {v w : Version} (hv : Ties v w) :
    Expression.admits e v = Expression.admits e w :=
  admits_eq_of_alike (.refl Constraint.Ties.refl e) hv

/-- The same of expressions put together by hand, which may fail. -/
theorem Tree.evaluate_eq_of_alike {t t' : Tree} {v w : Version} (h : t.Alike Node.Ties t')
    (hv : Ties v w) : t.evaluate v = t'.evaluate w :=
  h.evaluate_eq fun _ _ hnode ↦ Node.admits_eq_of_ties hnode hv

/-! ### Sets of the same versions -/

/-- A version without its build metadata. -/
def Version.withoutBuild (v : Version) : Version := { v with build := [] }

private theorem Version.ties_withoutBuild (v : Version) :
    Ties v v.withoutBuild := ⟨rfl, rfl, rfl, rfl⟩

private theorem Version.ties_iff_withoutBuild_eq {v w : Version} :
    Ties v w ↔ v.withoutBuild = w.withoutBuild := by
  simp [Ties, withoutBuild]

/-- Ascending versions still ascend without their build metadata. -/
theorem Version.pairwise_map_withoutBuild {vs : List Version} (h : vs.Pairwise Precedes) :
    (vs.map withoutBuild).Pairwise Precedes := by
  rw [List.pairwise_map]
  refine h.imp fun {v w} hvw ↦ ?_
  rw [← compare_eq_lt_iff] at hvw ⊢
  rwa [← compare_eq_of_ties v.ties_withoutBuild w.ties_withoutBuild]

/-- Ascending versions are known by which versions they are. -/
theorem Version.eq_of_pairwise_precedes {vs ws : List Version} (hvs : vs.Pairwise Precedes)
    (hws : ws.Pairwise Precedes) (h : ∀ v, v ∈ vs ↔ v ∈ ws) : vs = ws := by
  have hirrefl : Std.Irrefl Precedes := ⟨fun v ↦ not_precedes_of_ties (.refl v)⟩
  have hperm : vs.Perm ws := (List.perm_ext_iff_of_nodup hvs.nodup hws.nodup).mpr h
  exact hperm.eq_of_pairwise (fun v w _ _ hvw hwv ↦
    absurd (precedes_trans hvw hwv) (not_precedes_of_ties (.refl v))) hvs hws

namespace VersionSet

variable {s t : VersionSet} {vs ws : List Version}

/-- Without build metadata, the members of a set are the versions that were presented to it. -/
theorem Collects.mem_map_withoutBuild_iff (h : s.Collects vs) (v : Version) :
    v ∈ s.members.map withoutBuild ↔ v ∈ vs.map withoutBuild := by
  rw [List.mem_map, List.mem_map]
  constructor
  · rintro ⟨m, hm, rfl⟩
    obtain ⟨before, after, rfl, -⟩ := h.first m hm
    exact ⟨m, by simp, rfl⟩
  · rintro ⟨w, hw, rfl⟩
    obtain ⟨m, hm, hties⟩ := h.covers w hw
    exact ⟨m, hm, ties_iff_withoutBuild_eq.mp hties⟩

/-- Sets to which the same versions were presented, in whatever order, have members that tie one by
one. -/
theorem Collects.forall₂_ties (hs : s.Collects vs) (ht : t.Collects ws) (h : vs.Perm ws) :
    List.Forall₂ Ties s.members t.members := by
  have heq : s.members.map withoutBuild = t.members.map withoutBuild := by
    apply eq_of_pairwise_precedes (pairwise_map_withoutBuild hs.ascending)
      (pairwise_map_withoutBuild ht.ascending)
    intro v
    rw [hs.mem_map_withoutBuild_iff, ht.mem_map_withoutBuild_iff]
    exact (h.map withoutBuild).mem_iff
  rw [← List.forall₂_eq_eq_eq, List.forall₂_map_left_iff, List.forall₂_map_right_iff] at heq
  exact heq.imp fun _ _ ↦ ties_iff_withoutBuild_eq.mpr

private theorem rel_head?_of_forall₂ {xs ys : List Version} (h : List.Forall₂ Ties xs ys) :
    Option.Rel Ties xs.head? ys.head? := by
  cases h with
  | nil => exact .none
  | cons h => exact .some h

private theorem rel_getLast?_of_forall₂ {xs ys : List Version} (h : List.Forall₂ Ties xs ys) :
    Option.Rel Ties xs.getLast? ys.getLast? := by
  rw [List.getLast?_eq_head?_reverse, List.getLast?_eq_head?_reverse]
  exact rel_head?_of_forall₂ (List.forall₂_reverse_iff.mpr h)

private theorem forall₂_filter (h : List.Forall₂ Ties s.members t.members) (e : Expression) :
    List.Forall₂ Ties (s.filter e) (t.filter e) := by
  refine List.rel_filter (fun v w hv ↦ ?_) h
  change Expression.admits e v = true ↔ Expression.admits e w = true
  rw [Expression.admits_eq_of_ties e hv]

private theorem mapM_read_version (vs : List Version) :
    (vs.map Entry.version).mapM Entry.read = .ok vs := by
  induction vs with
  | nil => rfl
  | cons v vs ih => exact Outcome.mapM_cons_eq_ok_iff.mpr ⟨v, vs, rfl, ih, rfl⟩

/-- A set can be made of any versions. -/
theorem ofEntries_map_version (vs : List Version) :
    ofEntries (vs.map .version) = .ok (addAll {} vs) := by
  rw [ofEntries, extendEntries_of_ok (mapM_read_version vs)]

/-- The versions of two lists are the same but for their order. Then the sets of the two lists
answer alike: the members that satisfy an expression tie one by one, so that there are equally many,
and the highest and the lowest of them tie, or there are none. Answers differ in nothing but build
metadata, which no expression sees: versions that tie satisfy the same expressions, and so they do
when bounds are replaced by versions that tie with them. -/
theorem answers_tie_of_perm (h : vs.Perm ws) :
    (∃ s t, ofEntries (vs.map .version) = .ok s ∧ ofEntries (ws.map .version) = .ok t ∧
      (∀ e, List.Forall₂ Ties (s.filter e) (t.filter e)) ∧
      ∀ query, Option.Rel Ties (s.latest? query) (t.latest? query) ∧
        Option.Rel Ties (s.earliest? query) (t.earliest? query)) ∧
    ∀ v w, Ties v w →
      (∀ e : Expression, Expression.admits e v = Expression.admits e w) ∧
      (∀ e e' : Expression, e.Alike Constraint.Ties e' →
        Expression.admits e v = Expression.admits e' w) ∧
      (∀ tree : Tree, tree.evaluate v = tree.evaluate w) ∧
      ∀ tree tree' : Tree, tree.Alike Node.Ties tree' → tree.evaluate v = tree'.evaluate w := by
  refine ⟨⟨addAll {} vs, addAll {} ws, ofEntries_map_version vs, ofEntries_map_version ws, ?_⟩, ?_⟩
  · have hmembers : List.Forall₂ Ties (addAll {} vs).members (addAll {} ws).members :=
      (collects_empty.addAll vs).forall₂_ties (collects_empty.addAll ws) h
    have hfilter := forall₂_filter hmembers
    refine ⟨hfilter, fun query ↦ ?_⟩
    cases query with
    | none => exact ⟨rel_getLast?_of_forall₂ hmembers, rel_head?_of_forall₂ hmembers⟩
    | some e =>
      rw [latest?_some, latest?_some]
      exact ⟨rel_getLast?_of_forall₂ (hfilter e), rel_head?_of_forall₂ (hfilter e)⟩
  · intro v w hv
    exact ⟨fun e ↦ e.admits_eq_of_ties hv, fun e e' he ↦ Expression.admits_eq_of_alike he hv,
      fun tree ↦ Tree.evaluate_eq_of_alike (.refl Node.Ties.refl tree) hv,
      fun tree tree' htree ↦ Tree.evaluate_eq_of_alike htree hv⟩

/-- Of two versions that tie the set keeps the one that is added first, and answers with it. -/
theorem answers_tie_of_perm_build_variants :
    let released (major : Nat) (build : List Word) : Version := ⟨major, 0, 0, [], build⟩
    let vs := [released 1 [⟨['a'], rfl⟩], released 2 [], released 1 [⟨['b'], rfl⟩]]
    let ws := [released 1 [⟨['b'], rfl⟩], released 1 [⟨['a'], rfl⟩], released 2 []]
    let below : Expression := .leaf (.bound .less (released 2 []))
    vs.Perm ws ∧
    ∃ s t, ofEntries (vs.map .version) = .ok s ∧ ofEntries (ws.map .version) = .ok t ∧
      s.latest? (some below) = some (released 1 [⟨['a'], rfl⟩]) ∧
      t.latest? (some below) = some (released 1 [⟨['b'], rfl⟩]) ∧
      Option.Rel Ties (s.latest? (some below)) (t.latest? (some below)) := by
  intro released vs ws below
  have hperm : vs.Perm ws := by decide
  obtain ⟨s, t, hs, ht, -, hanswers⟩ := (answers_tie_of_perm hperm).1
  have hs' : s = addAll {} vs := Except.ok.inj (hs.symm.trans (ofEntries_map_version vs))
  have ht' : t = addAll {} ws := Except.ok.inj (ht.symm.trans (ofEntries_map_version ws))
  refine ⟨hperm, s, t, hs, ht, ?_, ?_, (hanswers (some below)).1⟩
  · rw [hs']
    decide +kernel
  · rw [ht']
    decide +kernel

end VersionSet

end VersionRange
