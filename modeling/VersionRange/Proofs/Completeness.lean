import VersionRange.Proofs.Soundness

/-!
# What is derived is read

Tokens that begin with a phrase are read over it: the state behind the phrase holds the expression
that the phrase means, whatever follows. No token of the phrase is refused, since its depth is
within the limit and its numerals are not too long.
-/

namespace VersionRange

open Grammar

namespace Grammar

/-! ### The ends of a phrase -/

theorem PartsAt.suffix {ts rest : List Token} {numbers : List Nat} {wildcards : Nat}
    (h : PartsAt ts numbers wildcards rest) : rest <:+ ts := by
  induction h with
  | number => exact List.suffix_cons ..
  | wildcard => exact List.suffix_cons ..
  | nextNumber _ _ _ ih => exact ((List.suffix_cons ..).trans (List.suffix_cons ..)).trans ih
  | nextWildcard _ _ _ ih => exact ((List.suffix_cons ..).trans (List.suffix_cons ..)).trans ih

private theorem PartsAt.head {ts rest : List Token} {numbers : List Nat} {wildcards : Nat}
    (h : PartsAt ts numbers wildcards rest) :
    ∃ t us, ts = t :: us ∧ (t.kind = .number ∨ t.kind = .wildcard) := by
  induction h with
  | number h => exact ⟨_, _, rfl, .inl h.1⟩
  | wildcard h => exact ⟨_, _, rfl, .inr h⟩
  | nextNumber _ _ _ ih => exact ih
  | nextWildcard _ _ _ ih => exact ih

theorem LiteralAt.head {ts rest : List Token} {l : Literal} (h : LiteralAt ts l rest) :
    ∃ t us, ts = t :: us ∧ (t.kind = .number ∨ t.kind = .wildcard) := by
  cases h with
  | any parts => exact parts.head
  | upToMajor parts => exact parts.head
  | upToMinor parts => exact parts.head
  | full parts => exact parts.head

theorem LiteralAt.ne_nil {ts rest : List Token} {l : Literal} (h : LiteralAt ts l rest) :
    ts ≠ [] := by
  obtain ⟨t, us, rfl, -⟩ := h.head
  exact List.cons_ne_nil t us

/-- A phrase begins with a token with which an operand begins. -/
theorem Derives.head {phrase : Phrase} {ts rest : List Token} {e : Expression}
    (h : Derives phrase ts e rest) :
    ∃ t us, ts = t :: us ∧ TokenKind.operandStart.contains t.kind = true := by
  have hliteral {ts rest : List Token} {l : Literal} (h : LiteralAt ts l rest) :
      ∃ t us, ts = t :: us ∧ TokenKind.operandStart.contains t.kind = true := by
    obtain ⟨t, us, hts, hkind | hkind⟩ := h.head
    · exact ⟨t, us, hts, by rw [hkind]; rfl⟩
    · exact ⟨t, us, hts, by rw [hkind]; rfl⟩
  induction h with
  | group kind => exact ⟨_, _, rfl, by rw [kind]; rfl⟩
  | comparison kind => exact ⟨_, _, rfl, by rw [kind]; rfl⟩
  | caret kind => exact ⟨_, _, rfl, by rw [kind]; rfl⟩
  | tilde kind => exact ⟨_, _, rfl, by rw [kind]; rfl⟩
  | plain literal => exact hliteral literal
  | hyphen low => exact hliteral low
  | primary _ ih => exact ih
  | not kind => exact ⟨_, _, rfl, by rw [kind]; rfl⟩
  | operand _ ih => exact ih
  | juxtaposed _ _ ihl => exact ihl
  | and _ _ _ ihl => exact ihl
  | conjunction _ ih => exact ih
  | or _ _ _ ihl => exact ihl

theorem Derives.ne_nil {phrase : Phrase} {ts rest : List Token} {e : Expression}
    (h : Derives phrase ts e rest) : ts ≠ [] := by
  obtain ⟨t, us, rfl, -⟩ := h.head
  exact List.cons_ne_nil t us

/-! ### Depth behind a phrase -/

namespace Nesting

theorem depth_le_deepest (n : Nesting) (ts : List Token) : n.depth ≤ n.deepest ts := by
  cases ts with
  | nil => exact Nat.le_refl _
  | cons t ts => exact Nat.le_max_left ..

private theorem deepest_read_le (n : Nesting) (t : Token) (ts : List Token) :
    (n.read t.kind).deepest ts ≤ n.deepest (t :: ts) :=
  Nat.le_max_right ..

/-- A token that opens or closes nothing leaves the groups open. -/
theorem read_eq {kind : TokenKind} (n : Nesting) (h : kind ∉ [.not, .opening, .closing]) :
    n.read kind = { groups := n.groups } := by
  cases kind <;> first | rfl | simp at h

end Nesting

/-- The tokens behind a place open no more than may be open, and have no long numerals. -/
structure Readable (maxDepth : Int) (n : Nesting) (ts : List Token) : Prop where
  deep : (n.deepest ts : Int) ≤ maxDepth
  short : ∀ t ∈ ts, IsShort t

namespace Readable

variable {maxDepth : Int} {n : Nesting} {t : Token} {ts us rest : List Token}

private theorem read (h : Readable maxDepth n (t :: ts)) :
    Readable maxDepth (n.read t.kind) ts where
  deep := by
    have := n.deepest_read_le t ts
    have := h.deep
    omega
  short := (List.forall_mem_cons.1 h.short).2

private theorem tail {kind : TokenKind} (h : Readable maxDepth n (t :: ts)) (hkind : t.kind = kind)
    (hother : kind ∉ [.not, .opening, .closing] := by decide) :
    Readable maxDepth { groups := n.groups } ts := by
  rw [← n.read_eq (hkind ▸ hother)]
  exact h.read

/-- Only the groups that are open matter behind the first token of a phrase. -/
theorem parts {numbers : List Nat} {wildcards : Nat} (h : Readable maxDepth n ts)
    (hparts : PartsAt ts numbers wildcards rest) :
    Readable maxDepth { groups := n.groups } rest := by
  induction hparts with
  | number hn => exact h.tail hn.1
  | wildcard hkind => exact h.tail hkind
  | nextNumber _ hjoined hn ih =>
    exact ((ih h).tail hjoined.1).tail hn.1
  | nextWildcard _ hjoined hkind ih =>
    exact ((ih h).tail hjoined.1).tail hkind

private theorem label {mark : Char} {isIdentifier : List Char → Bool} {words : List Word}
    {groups : List Nat} (h : Readable maxDepth { groups } ts)
    (hlabel : LabelAt mark isIdentifier ts words rest) : Readable maxDepth { groups } rest := by
  cases hlabel with
  | absent => exact h
  | present hkind => exact h.tail hkind

private theorem literal {l : Literal} (h : Readable maxDepth n ts)
    (hliteral : LiteralAt ts l rest) : Readable maxDepth { groups := n.groups } rest := by
  cases hliteral with
  | any hparts => exact h.parts hparts
  | upToMajor hparts => exact h.parts hparts
  | upToMinor hparts => exact h.parts hparts
  | full hparts hprerelease hmetadata => exact ((h.parts hparts).label hprerelease).label hmetadata

/-- A phrase leaves the groups open that were open before it, and its negations end with it. -/
theorem phrase {phrase : Phrase} {e : Expression} (h : Readable maxDepth n ts)
    (hphrase : Derives phrase ts e rest) : Readable maxDepth { groups := n.groups } rest := by
  induction hphrase generalizing n with
  | group hopening _ hclosing ih =>
    have hinner := ih h.read
    rw [hopening] at hinner
    have hrest := hinner.read
    rw [hclosing] at hrest
    exact hrest
  | comparison hkind _ hliteral => exact (h.tail hkind).literal hliteral
  | caret hkind hliteral => exact (h.tail hkind).literal hliteral
  | tilde hkind hliteral => exact (h.tail hkind).literal hliteral
  | plain hliteral => exact h.literal hliteral
  | hyphen hlow hkind hhigh =>
    exact ((h.literal hlow).tail hkind).literal hhigh
  | primary _ ih => exact ih h
  | not hkind _ ih =>
    have hinner := ih h.read
    rw [hkind] at hinner
    exact hinner
  | operand _ ih => exact ih h
  | juxtaposed _ _ ihleft ihright =>
    have hright := ihright (ihleft h)
    exact hright
  | and _ hkind _ ihleft ihright =>
    have hright := ihright ((ihleft h).tail hkind)
    exact hright
  | conjunction _ ih => exact ih h
  | or _ hkind _ ihleft ihright =>
    have hright := ihright ((ihleft h).tail hkind)
    exact hright

end Readable

end Grammar

/-! ### Literals -/

namespace Spelling

variable {source : String} {s : Spelling} {t : Token}

private theorem addPart_of_numeral {n : Nat} (h : Numeral t n) (hshort : IsShort t) :
    s.addPart source t = .ok { s with numbers := s.numbers ++ [n] } := by
  obtain ⟨hkind, hzero, rfl⟩ := h
  rw [addPart, if_neg (by rw [hkind]; decide), if_neg (by rw [hzero]; decide),
    VersionRange.readNumber, if_neg (Nat.not_lt.2 (hshort.1 hkind))]
  rfl

private theorem addPart_of_wildcard (h : t.kind = .wildcard) :
    s.addPart source t = .ok { s with wildcards := s.wildcards + 1 } :=
  if_pos h

/-- A label that is derived can be read. -/
theorem labelRead_of_labelAt {mark : Char} {isIdentifier : List Char → Bool} {words : List Word}
    {us rest : List Token} (source : String) (read : Nat → List Char → Except Fault (List Word))
    (hread : ∀ position label words, Outline.words? isIdentifier (some label) = some words →
      read position label = .ok words)
    (h : LabelAt mark isIdentifier us words rest) :
    ∃ label, LabelRead mark us label rest ∧ readLabel source read label = .ok words := by
  cases h with
  | absent => exact ⟨none, rfl, rfl⟩
  | present hkind hspaced htext hwords =>
    refine ⟨some _, ⟨hkind, hspaced, by rw [htext]; rfl, rfl⟩, ?_⟩
    rw [readLabel, htext, Outcome.mapError_eq_ok_iff]
    exact hread _ _ _ hwords

/-- The numbers in a pre-release label are short if its token is. -/
theorem isShort_of_labelRead {us rest : List Token} {label : Option Token} {words : List Word}
    (h : LabelRead '-' us label rest)
    (hwords : readLabel source readPrerelease label = .ok words)
    (hshort : ∀ t ∈ us, IsShort t) : ∀ w ∈ words, w.IsShort := by
  cases label with
  | none =>
    cases hwords
    exact nofun
  | some t =>
    obtain ⟨hkind, -, hmark, rfl⟩ := h
    rw [readLabel, Outcome.mapError_eq_ok_iff, readPrerelease_eq_ok_iff,
      Outline.words?_some_eq_some_iff, ← and_assoc, ← fields_eq_map_chars_iff,
      List.drop_one] at hwords
    intro w hw hnumeric
    refine (hshort t List.mem_cons_self).2 hkind hmark w.chars ?_ ?_
    · rw [hwords.1]
      exact List.mem_map_of_mem hw
    · rw [w.isDigits_chars, hnumeric]

end Spelling

namespace Progress

variable {source : String} {maxDepth : Int} {position : Nat} {role : Role} {place : Place}
  {ts us rest : List Token} {t : Token}

theorem resume_of_step {p q : Progress} (h : p.step source maxDepth t = .ok q) :
    resume source maxDepth position p (t :: ts) = resume source maxDepth position q ts := by
  rw [resume_cons, h]
  rfl

/-- A range form may begin with its literal. -/
theorem resume_operand_part (h : t.kind = .number ∨ t.kind = .wildcard) :
    resume source maxDepth position (operand place) (t :: ts) =
      resume source maxDepth position (literal .plain place) (t :: ts) := by
  rw [resume_cons, resume_cons]
  rcases h with h | h
  · simp only [step, stepOperand, h]
    rfl
  · simp only [step, stepOperand, h]
    rfl

private theorem resume_part {s s' : Spelling} {dot : Token} (hunlabeled : s.isLabeled = false)
    (hparts : s.parts < 3) (hjoined : Joined dot t)
    (hkind : t.kind = .number ∧ s.wildcards = 0 ∨ t.kind = .wildcard)
    (h : s.addPart source t = .ok s') :
    resume source maxDepth position (spelling role s place) (dot :: t :: ts) =
      resume source maxDepth position (spelling role s' place) ts := by
  obtain ⟨hdot, hspaced, htspaced⟩ := hjoined
  have hdotStep : (spelling role s place).step source maxDepth dot = .ok (part role s place) := by
    simp only [step, hspaced, hdot, stepWithin]
    rw [if_neg (by decide), if_neg]
    simp only [hunlabeled, Bool.false_or, beq_iff_eq]
    omega
  have hpartStep : (part role s place).step source maxDepth t = .ok (spelling role s' place) := by
    rw [step, if_neg, if_neg, h]
    · rfl
    · rcases hkind with ⟨hkind, hwildcards⟩ | hkind
      · simp [hwildcards]
      · simp [hkind]
    · rcases hkind with ⟨hkind, -⟩ | hkind
      · rw [htspaced, hkind]
        decide
      · rw [htspaced, hkind]
        decide
  rw [resume_of_step hdotStep, resume_of_step hpartStep]

/-- The parts of a literal are read one by one. -/
theorem resume_parts {numbers : List Nat} {wildcards : Nat}
    (h : PartsAt ts numbers wildcards rest) (hcount : numbers.length + wildcards ≤ 3)
    (hshort : ∀ t ∈ ts, IsShort t) :
    resume source maxDepth position (literal role place) ts =
      resume source maxDepth position (spelling role { numbers, wildcards } place) rest := by
  induction h with
  | number hn =>
    refine resume_of_step ?_
    rw [step, if_pos (by rw [hn.1]; rfl),
      Spelling.addPart_of_numeral hn (hshort _ List.mem_cons_self)]
    rfl
  | wildcard hkind =>
    refine resume_of_step ?_
    rw [step, if_pos (by rw [hkind]; rfl), Spelling.addPart_of_wildcard hkind]
    rfl
  | nextNumber before hjoined hn ih =>
    rw [List.length_append, List.length_singleton] at hcount
    rw [ih (by omega) hshort]
    refine resume_part rfl ?_ hjoined (.inl ⟨hn.1, rfl⟩) (Spelling.addPart_of_numeral hn ?_)
    · simp only [Spelling.parts]
      omega
    · exact hshort _ (before.suffix.subset (by simp))
  | nextWildcard _ hjoined hkind ih =>
    rw [ih (by omega) hshort]
    refine resume_part rfl ?_ hjoined (.inr hkind) (Spelling.addPart_of_wildcard hkind)
    simp only [Spelling.parts]
    omega

/-- A label is read whole behind what has been read of its literal. -/
theorem resume_label {mark : Char} {label : Option Token} (labeled : Option Token → Spelling)
    (hadd : ∀ t, t.text.head? = some mark → (labeled none).addLabel t = .ok (labeled (some t)))
    (h : Spelling.LabelRead mark us label rest) :
    resume source maxDepth position (spelling role (labeled none) place) us =
      resume source maxDepth position (spelling role (labeled label) place) rest := by
  cases label with
  | none =>
    obtain rfl : us = rest := h
    rfl
  | some t =>
    obtain ⟨hkind, hspaced, hmark, rfl⟩ := h
    refine resume_of_step ?_
    rw [step, if_neg (by rw [hspaced, hkind]; decide)]
    simp only [stepWithin, hkind, hadd t hmark]
    rfl

/-- A literal is read up to its end, and is then what the grammar makes of its tokens. -/
theorem resume_literal (source : String) {l : Literal} (h : LiteralAt ts l rest)
    (hshort : ∀ t ∈ ts, IsShort t) :
    ∃ s : Spelling, s.literal source = .ok l ∧ Detached rest ∧
      resume source maxDepth position (literal role place) ts =
        resume source maxDepth position (spelling role s place) rest := by
  cases h with
  | any parts count detached =>
    exact ⟨_, rfl, detached, resume_parts parts (by simpa using count) hshort⟩
  | upToMajor parts count detached =>
    refine ⟨_, rfl, detached, resume_parts parts ?_ hshort⟩
    rw [List.length_singleton]
    omega
  | upToMinor parts count detached =>
    refine ⟨_, rfl, detached, resume_parts parts ?_ hshort⟩
    rw [List.length_cons, List.length_singleton]
    omega
  | full parts prerelease metadata detached =>
    next us vs major minor patch words build =>
    obtain ⟨label, hlabel, hwords⟩ := Spelling.labelRead_of_labelAt source readPrerelease
      (fun _ _ _ ↦ readPrerelease_eq_ok_iff.mpr) prerelease
    obtain ⟨data, hdata, hbuild⟩ := Spelling.labelRead_of_labelAt source readBuild
      (fun _ _ _ ↦ readBuild_eq_ok_iff.mpr) metadata
    refine ⟨{ numbers := [major, minor, patch], prerelease := label, build := data }, ?_, detached,
      ?_⟩
    · have hwordsShort := Spelling.isShort_of_labelRead hlabel hwords fun t ht ↦
        hshort t (parts.suffix.subset ht)
      have hidentifiers : readIdentifiers words = .ok (words.map .ofWord) :=
        readIdentifiers_eq_ok_iff.mpr ⟨hwordsShort, rfl⟩
      simp only [Spelling.literal, Outcome.bind_eq_ok_iff]
      exact ⟨words, hwords, build, hbuild, _, hidentifiers, rfl⟩
    · rw [resume_parts parts (Nat.le_refl 3) hshort]
      let numbers := [major, minor, patch]
      rw [resume_label (fun label ↦ { numbers, prerelease := label }) ?_ hlabel,
        resume_label (fun data ↦ { numbers, prerelease := label, build := data }) ?_ hdata]
      · exact fun t ht ↦ by simp [Spelling.addLabel, ht, numbers]
      · exact fun t ht ↦ by simp [Spelling.addLabel, ht, numbers]

/-- Neither a hyphen nor the mark of the end is read behind an operand. -/
theorem stepOperator_ne_ok {chain : Chain} {q : Progress}
    (hkind : t.kind = .hyphen ∨ t.kind = .finish) :
    stepOperator source maxDepth chain t ≠ .ok q := by
  have hother : t.kind ≠ .or ∧ t.kind ≠ .closing ∧ t.kind ≠ .and ∧
      TokenKind.operandStart.contains t.kind = false := by
    rcases hkind with hkind | hkind <;> rw [hkind] <;> decide
  obtain ⟨hor, hclosing, hand, hstart⟩ := hother
  intro h
  rw [stepOperator] at h
  split at h
  · contradiction
  · contradiction
  · rw [if_neg hand, hstart, if_neg Bool.false_ne_true] at h
    split at h <;> cases h

/-- A literal ends where nothing continues it, and its range form with it. -/
theorem resume_of_detached {s : Spelling} {l : Literal} {e : Expression} (hdetached : Detached rest)
    (hliteral : s.literal source = .ok l)
    (h : resume source maxDepth position (operator (place.ended (role.expression l))) rest =
      .ok e) :
    resume source maxDepth position (spelling role s place) rest = .ok e := by
  cases rest with
  | nil =>
    change finish source position (spelling role s place) = .ok e
    rw [finish, hliteral]
    exact h
  | cons t rest =>
    have hends : (t.spaced || !t.kind.continuesLiteral) = true := by
      have := hdetached t rfl
      cases hspaced : t.spaced with
      | true => rfl
      | false => simpa [TokenKind.continuesLiteral] using this hspaced
    rw [resume_cons] at h ⊢
    rw [step, if_pos hends, hliteral]
    change stepBehind source maxDepth role l place t >>= _ = _
    unfold stepBehind
    split
    · next hkind =>
      -- An operand is not followed by a hyphen, so nothing was read behind it.
      obtain ⟨q, hstep, -⟩ := Outcome.bind_eq_ok_iff.mp h
      exact absurd hstep (stepOperator_ne_ok (.inl hkind))
    · exact h

/-- A hyphen behind a literal makes it the lower end of a range. -/
theorem resume_hyphen {s : Spelling} {l : Literal} (hkind : t.kind = .hyphen)
    (hliteral : s.literal source = .ok l) :
    resume source maxDepth position (spelling .plain s place) (t :: rest) =
      resume source maxDepth position (literal (.upperEnd l) place) rest := by
  refine resume_of_step ?_
  rw [step, if_pos (by rw [hkind]; exact Bool.or_true _), hliteral]
  change stepBehind source maxDepth .plain l place t = _
  simp only [stepBehind, hkind]

end Progress

/-! ### Phrases -/

/-- The nesting of a place. -/
def Place.nesting (p : Place) : Nesting := ⟨p.level.negations, p.outer.map Level.negations⟩

theorem Place.depth_nesting (p : Place) : p.nesting.depth = p.depth := by
  rw [Nesting.depth, nesting, List.foldr_map, depth]

namespace Progress

variable {source : String} {maxDepth : Int} {position : Nat}

/-- What is read behind a phrase is read behind its tokens, at any place where the phrase may
stand: a conjunction behind alternatives, a disjunction at the start of a group, and an operand
anywhere. -/
def ReadsOver (source : String) (maxDepth : Int) (position : Nat) (ts : List Token) (e : Expression)
    (rest : List Token) : Phrase → Prop
  | .primary | .operand =>
    ∀ (place : Place) (x : Expression), Readable maxDepth place.nesting ts →
      resume source maxDepth position (operator (place.ended e)) rest = .ok x →
        resume source maxDepth position (operand place) ts = .ok x
  | .conjunction =>
    ∀ (alternatives : Option Expression) (outer : List Level) (x : Expression),
      Readable maxDepth { groups := outer.map Level.negations } ts →
        resume source maxDepth position (operator ⟨alternatives, e, outer⟩) rest = .ok x →
          resume source maxDepth position (operand ⟨{ alternatives }, outer⟩) ts = .ok x
  | .disjunction =>
    ∀ (outer : List Level) (x : Expression),
      Readable maxDepth { groups := outer.map Level.negations } ts →
        (∀ chain : Chain, chain.outer = outer → chain.expression = e →
          resume source maxDepth position (operator chain) rest = .ok x) →
          resume source maxDepth position (operand ⟨{}, outer⟩) ts = .ok x

private theorem resume_literal_of_operator {role : Role} {place : Place} {ts rest : List Token}
    {l : Literal} {x : Expression} (h : LiteralAt ts l rest) (hshort : ∀ t ∈ ts, IsShort t)
    (hrest : resume source maxDepth position (operator (place.ended (role.expression l))) rest =
      .ok x) :
    resume source maxDepth position (literal role place) ts = .ok x := by
  obtain ⟨s, hs, hdetached, heq⟩ := resume_literal source h hshort
  rw [heq]
  exact resume_of_detached hdetached hs hrest

/-- A sign in front of a literal says what the literal is read for. -/
theorem readsOver_of_sign {kind : TokenKind} {t : Token} {ts rest : List Token} {l : Literal}
    (role : Role) (hkind : t.kind = kind)
    (hstep : ∀ place, (operand place).step source maxDepth t = .ok (literal role place))
    (hliteral : LiteralAt ts l rest) (hother : kind ∉ [.not, .opening, .closing] := by decide) :
    ReadsOver source maxDepth position (t :: ts) (role.expression l) rest .primary := by
  intro place x hreadable hrest
  rw [resume_of_step (hstep place)]
  exact resume_literal_of_operator hliteral (hreadable.tail hkind hother).short hrest

private theorem enter_of_readable {place : Place} {t : Token} {ts : List Token}
    (h : Readable maxDepth place.nesting ts) : enter maxDepth t place = .ok (operand place) := by
  have hdepth := place.nesting.depth_le_deepest ts
  have hdeep := h.deep
  rw [place.depth_nesting] at hdepth
  rw [enter, if_neg (by omega)]

/-- An operand that follows another one directly is joined to it. -/
theorem resume_operator_start {chain : Chain} {ts : List Token}
    (h : ∃ t us, ts = t :: us ∧ TokenKind.operandStart.contains t.kind = true) :
    resume source maxDepth position (operator chain) ts =
      resume source maxDepth position
        (operand ⟨{ chain with conjunction := some chain.conjunction }, chain.outer⟩) ts := by
  obtain ⟨t, us, rfl, hstart⟩ := h
  rw [resume_cons, resume_cons, step, step]
  congr 1
  unfold stepOperator
  split
  · next hkind =>
    rw [hkind] at hstart
    exact absurd hstart (by decide)
  · next hkind =>
    rw [hkind] at hstart
    exact absurd hstart (by decide)
  · rw [if_neg, if_pos hstart]
    intro hkind
    rw [hkind] at hstart
    exact absurd hstart (by decide)

/-- The tokens of every phrase are read over. -/
theorem readsOver_of_derives {phrase : Phrase} {ts rest : List Token} {e : Expression}
    (h : Derives phrase ts e rest) : ReadsOver source maxDepth position ts e rest phrase := by
  induction h with
  | group hopening inner hclosing ih =>
    intro place x hreadable hrest
    have hinner := hreadable.read
    rw [hopening] at hinner
    rw [resume_of_step (q := operand ⟨{}, place.level :: place.outer⟩)]
    · refine ih _ x hinner fun chain houter hexpression ↦ ?_
      rw [resume_of_step (q := operator (place.ended chain.expression)), hexpression]
      · exact hrest
      · simp only [step, stepOperator, hclosing, houter]
    · simp only [step, stepOperand, hopening]
      exact enter_of_readable hinner
  | comparison hkind hsign hliteral =>
    refine readsOver_of_sign (.comparison _) hkind (fun place ↦ ?_) hliteral
    simp only [step, stepOperand, hkind, hsign]
  | caret hkind hliteral =>
    refine readsOver_of_sign .caret hkind (fun place ↦ ?_) hliteral
    simp only [step, stepOperand, hkind]
  | tilde hkind hliteral =>
    refine readsOver_of_sign .tilde hkind (fun place ↦ ?_) hliteral
    simp only [step, stepOperand, hkind]
  | plain hliteral =>
    intro place x hreadable hrest
    obtain ⟨t, us, rfl, hkind⟩ := hliteral.head
    rw [resume_operand_part hkind]
    exact resume_literal_of_operator hliteral hreadable.short hrest
  | hyphen hlow hkind hhigh =>
    intro place x hreadable hrest
    have hbehind := (hreadable.literal hlow).tail hkind
    obtain ⟨t, us, rfl, hpart⟩ := hlow.head
    obtain ⟨s, hs, -, hread⟩ := resume_literal source hlow hreadable.short
    rw [resume_operand_part hpart, hread, resume_hyphen hkind hs]
    exact resume_literal_of_operator hhigh hbehind.short hrest
  | primary _ ih => exact ih
  | not hkind inner ih =>
    intro place x hreadable hrest
    let level := { place.level with negations := place.level.negations + 1 }
    have hinner := hreadable.read
    rw [hkind] at hinner
    rw [resume_of_step (q := operand { place with level })]
    · refine ih _ x hinner ?_
      rw [Place.ended, negate_not] at hrest
      exact hrest
    · simp only [step, stepOperand, hkind]
      exact enter_of_readable hinner
  | operand _ ih =>
    intro alternatives outer x hreadable hrest
    exact ih ⟨{ alternatives }, outer⟩ x hreadable hrest
  | juxtaposed hleft hright ihleft ihright =>
    intro alternatives outer x hreadable hrest
    refine ihleft alternatives outer x hreadable ?_
    rw [resume_operator_start hright.head]
    exact ihright ⟨{ alternatives, conjunction := some _ }, outer⟩ x (hreadable.phrase hleft) hrest
  | and hleft hkind _ ihleft ihright =>
    intro alternatives outer x hreadable hrest
    have hbehind := (hreadable.phrase hleft).tail hkind
    refine ihleft alternatives outer x hreadable ?_
    rw [resume_of_step (q := operand ⟨{ alternatives, conjunction := some _ }, outer⟩)]
    · exact ihright _ x hbehind hrest
    · simp only [step, stepOperator, hkind, if_pos]
  | conjunction _ ih =>
    intro outer x hreadable hrest
    exact ih none outer x hreadable (hrest _ rfl rfl)
  | or hleft hkind _ ihleft ihright =>
    intro outer x hreadable hrest
    have hbehind := (hreadable.phrase hleft).tail hkind
    refine ihleft outer x hreadable fun chain houter hexpression ↦ ?_
    rw [resume_of_step (q := operand ⟨{ alternatives := some chain.expression }, chain.outer⟩)]
    · rw [houter, hexpression]
      exact ihright _ outer x hbehind (hrest _ rfl rfl)
    · simp only [step, stepOperator, hkind]

/-- The tokens of an expression are read as that expression. -/
theorem resume_of_accepts {ts : List Token} {e : Expression} (h : Accepts ts e)
    (hreadable : Readable maxDepth {} ts) : resume source maxDepth position start ts = .ok e := by
  refine readsOver_of_derives h [] e hreadable fun chain houter hexpression ↦ ?_
  change finishOperator position chain = .ok e
  rw [finishOperator, houter, hexpression]

end Progress

end VersionRange
