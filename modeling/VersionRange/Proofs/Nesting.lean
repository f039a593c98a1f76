import VersionRange.Proofs.Completeness

/-!
# The nesting of phrases

The tokens of a phrase close what they open and nothing else. They nest as deep as they do alone,
below what is open before them, and leave the groups open that were open there.
-/

namespace VersionRange.Grammar

namespace Nesting

/-- The negations directly before a place add to what its groups open. -/
theorem depth_eq (n : Nesting) : n.depth = n.negations + depth { groups := n.groups } := by
  obtain ⟨negations, groups⟩ := n
  induction groups with
  | nil => rfl
  | cons count groups ih =>
    simp only [depth, List.foldr_cons] at ih ⊢
    omega

theorem depth_groups_le (n : Nesting) : depth { groups := n.groups } ≤ n.depth := by
  have := n.depth_eq
  omega

theorem depth_read_not (n : Nesting) : (n.read .not).depth = n.depth + 1 := by
  have := n.depth_eq
  have := depth_eq (n.read .not)
  simp only [read] at this ⊢
  omega

/-- A group that is opened counts for itself, and the negations before it with it. -/
theorem depth_opened (n : Nesting) :
    depth { groups := n.negations :: n.groups } = n.depth + 1 := by
  have := n.depth_eq
  simp only [depth, List.foldr_cons] at this ⊢
  omega

/-- The other tokens open nothing. -/
theorem depth_read_le {kind : TokenKind} (n : Nesting) (h : kind ∉ [.not, .opening]) :
    (n.read kind).depth ≤ n.depth := by
  by_cases hclosing : kind = .closing
  · rw [hclosing]
    refine Nat.le_trans ?_ n.depth_groups_le
    change depth { groups := n.groups.tail } ≤ depth { groups := n.groups }
    cases n.groups with
    | nil => exact Nat.le_refl _
    | cons count groups =>
      simp only [List.tail_cons, depth, List.foldr_cons]
      omega
  · rw [n.read_eq (by simp_all)]
    exact n.depth_groups_le

/-- A token that opens or closes nothing ends the negations before it. -/
theorem deepest_cons_other {t : Token} (n : Nesting) (ts : List Token)
    (h : t.kind ∉ [.not, .opening, .closing]) :
    n.deepest (t :: ts) = max n.depth (deepest { groups := n.groups } ts) := by
  rw [deepest, n.read_eq h]

theorem deepest_not {t : Token} (n : Nesting) (ts : List Token) (h : t.kind = .not) :
    n.deepest (t :: ts) = max n.depth (deepest (n.read .not) ts) := by
  rw [deepest, h]

theorem deepest_opening {t : Token} (n : Nesting) (ts : List Token) (h : t.kind = .opening) :
    n.deepest (t :: ts) = max n.depth (deepest { groups := n.negations :: n.groups } ts) := by
  rw [deepest, h]
  rfl

/-- At the end of a group the groups are open that were open before it. -/
theorem deepest_closing {t : Token} (n : Nesting) (ts : List Token) (h : t.kind = .closing) :
    deepest { groups := n.negations :: n.groups } (t :: ts) =
      max (n.depth + 1) (deepest { groups := n.groups } ts) := by
  rw [deepest, h, depth_opened]
  rfl

end Nesting

open Nesting

/-- Tokens open up to `depth` groups and negations below those that are open before them, and leave
the groups open that are open there. A conjunction or a disjunction has no negation before it. -/
def Spans (pre : List Token) (depth : Nat) : Phrase → Prop
  | .primary | .operand =>
    ∀ (n : Nesting) (tail : List Token),
      n.deepest (pre ++ tail) = max (n.depth + depth) (deepest { groups := n.groups } tail)
  | .conjunction | .disjunction =>
    ∀ (groups : List Nat) (tail : List Token),
      deepest { groups } (pre ++ tail) =
        max (Nesting.depth { groups } + depth) (deepest { groups } tail)

variable {pre post ts rest : List Token} {phrase : Phrase} {e : Expression} {d d' : Nat}

/-- Every phrase may stand at the start of a group. -/
theorem Spans.disjunction (h : Spans pre d phrase) : Spans pre d .disjunction := by
  intro groups tail
  cases phrase with
  | primary | operand => exact h { groups } tail
  | conjunction | disjunction => exact h groups tail

/-- Phrases that follow each other nest as deep as the deeper one of them. -/
theorem Spans.append (h : Spans pre d phrase) (h' : Spans post d' .disjunction) :
    Spans (pre ++ post) (max d d') .disjunction := by
  intro groups tail
  rw [List.append_assoc, h.disjunction groups, h' groups]
  omega

/-- A sign between two phrases opens nothing. -/
theorem Spans.append_sign {t : Token} (h : Spans pre d phrase) (h' : Spans post d' .disjunction)
    (ht : t.kind ∉ [.not, .opening, .closing]) :
    Spans (pre ++ t :: post) (max d d') .disjunction := by
  intro groups tail
  rw [List.append_assoc, List.cons_append, h.disjunction groups, deepest_cons_other _ _ ht,
    h' groups]
  omega

private theorem Spans.group {opening closing : Token} (h : Spans pre d phrase)
    (hopening : opening.kind = .opening) (hclosing : closing.kind = .closing) :
    Spans (opening :: (pre ++ [closing])) (d + 1) .primary := by
  intro n tail
  have hgroups := n.depth_groups_le
  have htail := depth_le_deepest { groups := n.groups } tail
  rw [List.cons_append, List.append_assoc, n.deepest_opening _ hopening, h.disjunction,
    List.singleton_append, n.deepest_closing _ hclosing, n.depth_opened]
  omega

private theorem Spans.not {t : Token} (h : Spans pre d .operand) (ht : t.kind = .not) :
    Spans (t :: pre) (d + 1) .operand := by
  intro n tail
  have hread := n.depth_read_not
  rw [List.cons_append, n.deepest_not _ ht, h (n.read .not), hread]
  change max _ (max _ (deepest { groups := n.groups } tail)) = _
  omega

/-- Tokens that open and close nothing. -/
theorem spans_of_other (hne : pre ≠ []) (h : ∀ t ∈ pre, t.kind ∉ [.not, .opening, .closing]) :
    Spans pre 0 .primary := by
  induction pre with
  | nil => exact absurd rfl hne
  | cons t pre ih =>
    intro n tail
    rw [List.forall_mem_cons] at h
    rw [List.cons_append, deepest_cons_other _ _ h.1]
    by_cases hpre : pre = []
    · rw [hpre, List.nil_append, Nat.add_zero]
    · rw [ih hpre h.2]
      have := n.depth_groups_le
      change max _ (max (Nesting.depth { groups := n.groups } + 0)
        (deepest { groups := n.groups } tail)) = _
      omega

theorem nesting_eq_zero_of_other (h : ∀ t ∈ ts, t.kind ∉ [.not, .opening, .closing]) :
    nesting ts = 0 := by
  by_cases hne : ts = []
  · rw [hne]
    rfl
  · have hspans := spans_of_other hne h {} []
    rw [List.append_nil] at hspans
    exact hspans

/-! ### Literals -/

/-- A token is part of a literal. -/
def InLiteral (t : Token) : Prop := t.kind ∈ [.number, .wildcard, .dot, .label]

private theorem PartsAt.exists_eq_append {numbers : List Nat} {wildcards : Nat}
    (h : PartsAt ts numbers wildcards rest) :
    ∃ pre, ts = pre ++ rest ∧ pre ≠ [] ∧ ∀ t ∈ pre, InLiteral t := by
  induction h with
  | number hn => exact ⟨[_], rfl, nofun, by simp [InLiteral, hn.1]⟩
  | wildcard hkind => exact ⟨[_], rfl, nofun, by simp [InLiteral, hkind]⟩
  | nextNumber _ hjoined hn ih =>
    obtain ⟨pre, rfl, -, hpre⟩ := ih
    refine ⟨_, (List.append_assoc pre [_, _] _).symm, by simp, ?_⟩
    exact List.forall_mem_append.mpr ⟨hpre, by simp [InLiteral, hjoined.1, hn.1]⟩
  | nextWildcard _ hjoined hkind ih =>
    obtain ⟨pre, rfl, -, hpre⟩ := ih
    refine ⟨_, (List.append_assoc pre [_, _] _).symm, by simp, ?_⟩
    exact List.forall_mem_append.mpr ⟨hpre, by simp [InLiteral, hjoined.1, hkind]⟩

theorem LabelAt.exists_eq_append {mark : Char} {isIdentifier : List Char → Bool}
    {words : List Word} (h : LabelAt mark isIdentifier ts words rest) :
    ∃ pre, ts = pre ++ rest ∧ ∀ t ∈ pre, InLiteral t := by
  cases h with
  | absent => exact ⟨[], rfl, nofun⟩
  | present hkind => exact ⟨[_], rfl, by simp [InLiteral, hkind]⟩

theorem LiteralAt.exists_eq_append {l : Literal} (h : LiteralAt ts l rest) :
    ∃ pre, ts = pre ++ rest ∧ pre ≠ [] ∧ ∀ t ∈ pre, InLiteral t := by
  cases h with
  | any hparts => exact hparts.exists_eq_append
  | upToMajor hparts => exact hparts.exists_eq_append
  | upToMinor hparts => exact hparts.exists_eq_append
  | full hparts hprerelease hmetadata =>
    obtain ⟨pre, rfl, hne, hpre⟩ := hparts.exists_eq_append
    obtain ⟨label, rfl, hlabel⟩ := hprerelease.exists_eq_append
    obtain ⟨data, rfl, hdata⟩ := hmetadata.exists_eq_append
    refine ⟨pre ++ (label ++ data), by simp, by simp [hne], ?_⟩
    exact List.forall_mem_append.mpr ⟨hpre, List.forall_mem_append.mpr ⟨hlabel, hdata⟩⟩

theorem InLiteral.other {t : Token} (h : InLiteral t) : t.kind ∉ [.not, .opening, .closing] := by
  rw [InLiteral] at h
  revert h
  cases t.kind <;> decide

/-- The tokens of a literal open nothing. -/
theorem LiteralAt.exists_spans {l : Literal} (h : LiteralAt ts l rest) :
    ∃ pre, ts = pre ++ rest ∧ Spans pre 0 .primary := by
  obtain ⟨pre, hts, hne, hpre⟩ := h.exists_eq_append
  exact ⟨pre, hts, spans_of_other hne fun t ht ↦ (hpre t ht).other⟩

/-! ### Phrases -/

/-- The tokens of every phrase nest within the groups before them. -/
theorem Derives.exists_spans (h : Derives phrase ts e rest) :
    ∃ pre depth, ts = pre ++ rest ∧ Spans pre depth phrase := by
  have hsign {t : Token} {us rest : List Token} {l : Literal} (hliteral : LiteralAt us l rest)
      (ht : t.kind ∉ [.not, .opening, .closing]) :
      ∃ pre depth, t :: us = pre ++ rest ∧ Spans pre depth .primary := by
    obtain ⟨pre, rfl, -, hpre⟩ := hliteral.exists_eq_append
    refine ⟨t :: pre, 0, rfl, spans_of_other nofun ?_⟩
    exact List.forall_mem_cons.mpr ⟨ht, fun u hu ↦ (hpre u hu).other⟩
  induction h with
  | group hopening _ hclosing ih =>
    obtain ⟨pre, depth, rfl, hpre⟩ := ih
    exact ⟨_, depth + 1, by simp, hpre.group hopening hclosing⟩
  | comparison hkind _ hliteral => exact hsign hliteral (by simp [hkind])
  | caret hkind hliteral => exact hsign hliteral (by simp [hkind])
  | tilde hkind hliteral => exact hsign hliteral (by simp [hkind])
  | plain hliteral =>
    obtain ⟨pre, hts, hpre⟩ := hliteral.exists_spans
    exact ⟨pre, 0, hts, hpre⟩
  | @hyphen t _ _ _ _ _ hlow hkind hhigh =>
    obtain ⟨pre, rfl, hne, hpre⟩ := hlow.exists_eq_append
    obtain ⟨post, rfl, -, hpost⟩ := hhigh.exists_eq_append
    refine ⟨pre ++ t :: post, 0, by simp, spans_of_other (by simp) ?_⟩
    rw [List.forall_mem_append, List.forall_mem_cons]
    exact ⟨fun u hu ↦ (hpre u hu).other, by simp [hkind], fun u hu ↦ (hpost u hu).other⟩
  | primary _ ih => exact ih
  | @not t _ _ _ hkind _ ih =>
    obtain ⟨pre, depth, rfl, hpre⟩ := ih
    exact ⟨t :: pre, depth + 1, rfl, hpre.not hkind⟩
  | operand _ ih =>
    obtain ⟨pre, depth, hts, hpre⟩ := ih
    exact ⟨pre, depth, hts, hpre.disjunction⟩
  | juxtaposed _ _ ihleft ihright =>
    obtain ⟨pre, depth, rfl, hpre⟩ := ihleft
    obtain ⟨post, depth', rfl, hpost⟩ := ihright
    exact ⟨_, _, (List.append_assoc ..).symm, hpre.append hpost.disjunction⟩
  | @and t _ _ _ _ _ _ hkind _ ihleft ihright =>
    obtain ⟨pre, depth, rfl, hpre⟩ := ihleft
    obtain ⟨post, depth', rfl, hpost⟩ := ihright
    exact ⟨pre ++ t :: post, _, by simp, hpre.append_sign hpost.disjunction (by simp [hkind])⟩
  | conjunction _ ih => exact ih
  | @or t _ _ _ _ _ _ hkind _ ihleft ihright =>
    obtain ⟨pre, depth, rfl, hpre⟩ := ihleft
    obtain ⟨post, depth', rfl, hpost⟩ := ihright
    exact ⟨pre ++ t :: post, _, by simp, hpre.append_sign hpost.disjunction (by simp [hkind])⟩

/-- The tokens of an expression nest as deep behind other tokens as they do alone, below the groups
that are open there. -/
theorem Accepts.spans (h : Accepts ts e) : Spans ts (nesting ts) .disjunction := by
  obtain ⟨pre, depth, hts, hpre⟩ := Derives.exists_spans h
  rw [List.append_nil] at hts
  have halone : nesting ts = max (0 + depth) 0 := by
    have := hpre [] []
    rwa [List.append_nil, ← hts] at this
  rw [halone, Nat.zero_add, Nat.max_zero, hts]
  exact hpre

/-- What is left behind a phrase nests no deeper than the phrase together with it. -/
theorem Derives.deepest_le (h : Derives phrase ts e rest) (groups : List Nat) :
    deepest { groups } rest ≤ deepest { groups } ts := by
  obtain ⟨pre, depth, rfl, hpre⟩ := h.exists_spans
  rw [hpre.disjunction groups]
  exact Nat.le_max_right ..

end VersionRange.Grammar
