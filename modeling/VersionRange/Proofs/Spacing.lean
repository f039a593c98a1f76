import VersionRange.Proofs.Completeness

/-!
# White space and derivations

A derivation looks at the white space before a token only within a literal, and at the end of one.
White space may be put before any other token, and before the first one it may be put or left out.
Nor does it look at a conjunction sign, if the operand behind it has white space before it: operands
side by side mean the same. Tokens that differ in no more than this derive the same.
-/

namespace VersionRange.Grammar

/-- White space before a token that stands behind one of some kind, if it stands behind any, may
differ from that before another token in its place: white space may come to stand there, unless that
would tear a literal apart. -/
def MayDiffer (previous : Option TokenKind) (t u : Token) : Prop :=
  previous = none ∨ t.spaced = u.spaced ∨
    u.spaced = true ∧ previous ≠ some .dot ∧ t.kind ∉ [.dot, .label]

/-- The second of two lists of tokens has those of the first one, wherever they stand in a text, and
others behind them. It may have more white space between them, and less conjunction signs. -/
inductive Varies (tail : List Token) : Option TokenKind → List Token → List Token → Prop
  | nil {previous : Option TokenKind} : Varies tail previous [] tail
  | cons {previous : Option TokenKind} {t u : Token} {ts us : List Token} (kind : t.kind = u.kind)
      (text : t.text = u.text) (spaced : MayDiffer previous t u)
      (h : Varies tail (some t.kind) ts us) : Varies tail previous (t :: ts) (u :: us)
  | drop {previous : Option TokenKind} {t : Token} {ts us : List Token} (kind : t.kind = .and)
      (behind : previous ≠ some .not) (spaced : ∀ u ∈ us.head?, u.spaced = true)
      (h : Varies tail (some .and) ts us) : Varies tail previous (t :: ts) us

variable {tail ts us rest : List Token} {previous : Option TokenKind} {t u : Token}
  {before : TokenKind}

theorem MayDiffer.of_eq (previous : Option TokenKind) (h : t.spaced = u.spaced) :
    MayDiffer previous t u :=
  .inr (.inl h)

/-- The tokens of a literal differ in nothing. -/
theorem MayDiffer.spaced_eq (h : MayDiffer (some before) t u)
    (hkind : before = .dot ∨ t.kind = .dot ∨ t.kind = .label) : t.spaced = u.spaced := by
  rcases h with h | h | ⟨-, hbefore, ht⟩
  · cases h
  · exact h
  · simp only [List.mem_cons, List.not_mem_nil, or_false, not_or] at ht
    rcases hkind with rfl | hkind | hkind
    · exact absurd rfl hbefore
    · exact absurd hkind ht.1
    · exact absurd hkind ht.2

namespace Varies

/-- A token of another kind than a conjunction sign is kept. -/
theorem exists_cons (h : Varies tail previous (t :: ts) us) (ht : t.kind ≠ .and) :
    ∃ u us', us = u :: us' ∧ t.kind = u.kind ∧ t.text = u.text ∧ MayDiffer previous t u ∧
      Varies tail (some t.kind) ts us' := by
  cases h with
  | cons hkind htext hspaced h => exact ⟨_, _, rfl, hkind, htext, hspaced, h⟩
  | drop hkind => exact absurd hkind ht

private theorem exists_of_kind {kind : TokenKind} (h : Varies tail previous (t :: ts) us)
    (hkind : t.kind = kind) (hand : kind ≠ .and := by decide) :
    ∃ u us', us = u :: us' ∧ u.kind = kind ∧ t.text = u.text ∧ MayDiffer previous t u ∧
      Varies tail (some kind) ts us' := by
  subst hkind
  obtain ⟨u, us', rfl, hkind, htext, hspaced, h⟩ := h.exists_cons hand
  exact ⟨u, us', rfl, hkind.symm, htext, hspaced, h⟩

/-- Where a literal ends it ends still. -/
theorem detached (h : Varies tail (some before) rest us) (htail : Detached tail)
    (hrest : Detached rest) : Detached us := by
  cases h with
  | nil => exact htail
  | @cons _ t u _ _ hkind _ hspaced _ =>
    intro v hv hunspaced
    obtain rfl : u = v := Option.some.inj hv
    rcases hspaced with hnone | heq | ⟨hblank, -⟩
    · cases hnone
    · rw [← hkind]
      exact hrest t rfl (heq.trans hunspaced)
    · rw [hblank] at hunspaced
      cases hunspaced
  | drop _ _ hspaced _ =>
    intro v hv hunspaced
    rw [hspaced v hv] at hunspaced
    cases hunspaced

end Varies

/-! ### Literals -/

private theorem Numeral.congr {n : Nat} (h : Numeral t n) (hkind : t.kind = u.kind)
    (htext : t.text = u.text) : Numeral u n := by
  obtain ⟨hnumber, hzero, hn⟩ := h
  rw [hkind] at hnumber
  rw [htext] at hzero hn
  exact ⟨hnumber, hzero, hn⟩

private theorem IsShort.congr (h : IsShort t) (hkind : t.kind = u.kind) (htext : t.text = u.text) :
    IsShort u := by
  rw [IsShort, hkind, htext] at h
  exact h

/-- A part that is joined to those before it by a dot stays joined to them. -/
theorem Varies.exists_joined {dot : Token} (h : Varies tail (some before) (dot :: t :: ts) us)
    (hjoined : Joined dot t) (ht : t.kind ≠ .and) :
    ∃ dot' u us', us = dot' :: u :: us' ∧ Joined dot' u ∧ t.kind = u.kind ∧ t.text = u.text ∧
      Varies tail (some t.kind) ts us' := by
  obtain ⟨hdot, hspaced, hspaced'⟩ := hjoined
  obtain ⟨dot', us, rfl, hdot', -, hdiffer, h⟩ := h.exists_of_kind hdot
  obtain ⟨u, us', rfl, hkind, htext, hdiffer', h⟩ := h.exists_cons ht
  rw [hdiffer.spaced_eq (.inr (.inl hdot))] at hspaced
  rw [hdiffer'.spaced_eq (.inl rfl)] at hspaced'
  exact ⟨dot', u, us', rfl, ⟨hdot', hspaced, hspaced'⟩, hkind, htext, h⟩

private theorem PartsAt.exists_of_varies {numbers : List Nat} {wildcards : Nat}
    (h : PartsAt ts numbers wildcards rest) (hvaries : Varies tail previous ts us) :
    ∃ before rest', Varies tail (some before) rest rest' ∧ PartsAt us numbers wildcards rest' := by
  induction h with
  | number hn =>
    obtain ⟨u, us', rfl, hkind, htext, -, hrest⟩ := hvaries.exists_of_kind hn.1
    exact ⟨_, us', hrest, .number (hn.congr (hn.1.trans hkind.symm) htext)⟩
  | wildcard hwildcard =>
    obtain ⟨u, us', rfl, hkind, -, -, hrest⟩ := hvaries.exists_of_kind hwildcard
    exact ⟨_, us', hrest, .wildcard hkind⟩
  | nextNumber _ hjoined hn ih =>
    obtain ⟨_, _, hbehind, hparts⟩ := ih hvaries
    obtain ⟨dot, u, us', rfl, hjoined, hkind, htext, hrest⟩ :=
      hbehind.exists_joined hjoined (by simp [hn.1])
    exact ⟨_, us', hrest, hparts.nextNumber hjoined (hn.congr hkind htext)⟩
  | nextWildcard _ hjoined hwildcard ih =>
    obtain ⟨_, _, hbehind, hparts⟩ := ih hvaries
    obtain ⟨dot, u, us', rfl, hjoined, hkind, -, hrest⟩ :=
      hbehind.exists_joined hjoined (by simp [hwildcard])
    exact ⟨_, us', hrest, hparts.nextWildcard hjoined (hkind ▸ hwildcard)⟩

private theorem LabelAt.exists_of_varies {mark : Char} {isIdentifier : List Char → Bool}
    {words : List Word} (h : LabelAt mark isIdentifier ts words rest)
    (hvaries : Varies tail (some before) ts us) :
    ∃ behind rest', Varies tail (some behind) rest rest' ∧
      LabelAt mark isIdentifier us words rest' := by
  cases h with
  | absent => exact ⟨before, us, hvaries, .absent⟩
  | present hkind hspaced htext hwords =>
    obtain ⟨u, us', rfl, hkind', htext', hdiffer, hrest⟩ := hvaries.exists_of_kind hkind
    rw [hdiffer.spaced_eq (.inr (.inr hkind))] at hspaced
    exact ⟨_, us', hrest, .present hkind' hspaced (htext' ▸ htext) hwords⟩

theorem LiteralAt.exists_of_varies {l : Literal} (htail : Detached tail) (h : LiteralAt ts l rest)
    (hvaries : Varies tail previous ts us) :
    ∃ before rest', Varies tail (some before) rest rest' ∧ LiteralAt us l rest' := by
  cases h with
  | any hparts hcount hdetached =>
    obtain ⟨_, rest', hrest, hparts⟩ := hparts.exists_of_varies hvaries
    exact ⟨_, rest', hrest, .any hparts hcount (hrest.detached htail hdetached)⟩
  | upToMajor hparts hcount hdetached =>
    obtain ⟨_, rest', hrest, hparts⟩ := hparts.exists_of_varies hvaries
    exact ⟨_, rest', hrest, .upToMajor hparts hcount (hrest.detached htail hdetached)⟩
  | upToMinor hparts hcount hdetached =>
    obtain ⟨_, rest', hrest, hparts⟩ := hparts.exists_of_varies hvaries
    exact ⟨_, rest', hrest, .upToMinor hparts hcount (hrest.detached htail hdetached)⟩
  | full hparts hprerelease hmetadata hdetached =>
    obtain ⟨_, _, hbehind, hparts⟩ := hparts.exists_of_varies hvaries
    obtain ⟨_, _, hbehind, hprerelease⟩ := hprerelease.exists_of_varies hbehind
    obtain ⟨_, rest', hrest, hmetadata⟩ := hmetadata.exists_of_varies hbehind
    exact ⟨_, rest', hrest,
      .full hparts hprerelease hmetadata (hrest.detached htail hdetached)⟩

/-! ### Phrases -/

/-- Tokens that may differ in white space and conjunction signs derive the same. -/
theorem Derives.exists_of_varies {phrase : Phrase} {e : Expression} (htail : Detached tail)
    (h : Derives phrase ts e rest) (hvaries : Varies tail previous ts us) :
    ∃ before rest', Varies tail (some before) rest rest' ∧ Derives phrase us e rest' := by
  induction h generalizing previous us with
  | group hopening _ hclosing ih =>
    obtain ⟨_, _, rfl, hopening, -, -, hinner⟩ := hvaries.exists_of_kind hopening
    obtain ⟨_, _, hbehind, hinner⟩ := ih hinner
    obtain ⟨_, rest', rfl, hclosing, -, -, hrest⟩ := hbehind.exists_of_kind hclosing
    exact ⟨_, rest', hrest, .group hopening hinner hclosing⟩
  | comparison hsign hrelation hliteral =>
    obtain ⟨_, _, rfl, hsign, htext, -, hbehind⟩ := hvaries.exists_of_kind hsign
    obtain ⟨_, rest', hrest, hliteral⟩ := hliteral.exists_of_varies htail hbehind
    exact ⟨_, rest', hrest, .comparison hsign (htext ▸ hrelation) hliteral⟩
  | caret hsign hliteral =>
    obtain ⟨_, _, rfl, hsign, -, -, hbehind⟩ := hvaries.exists_of_kind hsign
    obtain ⟨_, rest', hrest, hliteral⟩ := hliteral.exists_of_varies htail hbehind
    exact ⟨_, rest', hrest, .caret hsign hliteral⟩
  | tilde hsign hliteral =>
    obtain ⟨_, _, rfl, hsign, -, -, hbehind⟩ := hvaries.exists_of_kind hsign
    obtain ⟨_, rest', hrest, hliteral⟩ := hliteral.exists_of_varies htail hbehind
    exact ⟨_, rest', hrest, .tilde hsign hliteral⟩
  | plain hliteral =>
    obtain ⟨_, rest', hrest, hliteral⟩ := hliteral.exists_of_varies htail hvaries
    exact ⟨_, rest', hrest, .plain hliteral⟩
  | hyphen hlow hsign hhigh =>
    obtain ⟨_, _, hbehind, hlow⟩ := hlow.exists_of_varies htail hvaries
    obtain ⟨_, _, rfl, hsign, -, -, hbehind⟩ := hbehind.exists_of_kind hsign
    obtain ⟨_, rest', hrest, hhigh⟩ := hhigh.exists_of_varies htail hbehind
    exact ⟨_, rest', hrest, .hyphen hlow hsign hhigh⟩
  | primary _ ih =>
    obtain ⟨_, rest', hrest, h⟩ := ih hvaries
    exact ⟨_, rest', hrest, .primary h⟩
  | not hsign _ ih =>
    obtain ⟨_, _, rfl, hsign, -, -, hbehind⟩ := hvaries.exists_of_kind hsign
    obtain ⟨_, rest', hrest, hinner⟩ := ih hbehind
    exact ⟨_, rest', hrest, .not hsign hinner⟩
  | operand _ ih =>
    obtain ⟨_, rest', hrest, h⟩ := ih hvaries
    exact ⟨_, rest', hrest, .operand h⟩
  | juxtaposed _ _ ihleft ihright =>
    obtain ⟨_, _, hbehind, hleft⟩ := ihleft hvaries
    obtain ⟨_, rest', hrest, hright⟩ := ihright hbehind
    exact ⟨_, rest', hrest, .juxtaposed hleft hright⟩
  | and _ hsign _ ihleft ihright =>
    obtain ⟨_, _, hbehind, hleft⟩ := ihleft hvaries
    cases hbehind with
    | cons hkind _ _ hbehind =>
      obtain ⟨_, rest', hrest, hright⟩ := ihright hbehind
      exact ⟨_, rest', hrest, .and hleft (hkind ▸ hsign) hright⟩
    | drop _ _ _ hbehind =>
      obtain ⟨_, rest', hrest, hright⟩ := ihright hbehind
      exact ⟨_, rest', hrest, .juxtaposed hleft hright⟩
  | conjunction _ ih =>
    obtain ⟨_, rest', hrest, h⟩ := ih hvaries
    exact ⟨_, rest', hrest, .conjunction h⟩
  | or _ hsign _ ihleft ihright =>
    obtain ⟨_, _, hbehind, hleft⟩ := ihleft hvaries
    obtain ⟨_, _, rfl, hsign, -, -, hbehind⟩ := hbehind.exists_of_kind hsign
    obtain ⟨_, rest', hrest, hright⟩ := ihright hbehind
    exact ⟨_, rest', hrest, .or hleft hsign hright⟩

/-! ### Limits -/

theorem Varies.isShort (h : Varies tail previous ts us) (hts : ∀ t ∈ ts, IsShort t)
    (htail : ∀ t ∈ tail, IsShort t) : ∀ u ∈ us, IsShort u := by
  induction h with
  | nil => exact htail
  | cons hkind htext _ _ ih =>
    rw [List.forall_mem_cons] at hts ⊢
    exact ⟨hts.1.congr hkind htext, ih hts.2⟩
  | drop _ _ _ _ ih => exact ih (List.forall_mem_cons.mp hts).2

private theorem Nesting.negations_read {kind : TokenKind} (n : Nesting) (h : kind ≠ .not) :
    (n.read kind).negations = 0 := by
  unfold read
  split
  · contradiction
  · rfl
  · rfl
  · rfl

/-- Without a conjunction sign tokens nest no deeper: no negation is open before it. -/
theorem Varies.deepest_le (h : Varies tail previous ts us) (n : Nesting)
    (hn : previous ≠ some .not → n.negations = 0) : n.deepest us ≤ n.deepest (ts ++ tail) := by
  induction h generalizing n with
  | nil => exact Nat.le_refl _
  | @cons _ t u _ _ hkind _ _ _ ih =>
    have hread := ih (n.read t.kind) fun h ↦ n.negations_read fun heq ↦ h (by rw [heq])
    rw [List.cons_append, Nesting.deepest, Nesting.deepest, ← hkind]
    omega
  | @drop _ t _ _ hkind hbehind _ _ ih =>
    have hread : n.read t.kind = n := by
      rw [hkind, n.read_eq (by decide), ← hn hbehind]
    have hle := ih n fun _ ↦ hn hbehind
    rw [List.cons_append, Nesting.deepest, hread]
    omega

end VersionRange.Grammar
