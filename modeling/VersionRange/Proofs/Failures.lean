import VersionRange.Proofs.Coverage
import VersionRange.Proofs.Depth
import VersionRange.Proofs.Faults

/-!
# Failures to read an expression

Whatever is not read as an expression is refused for one of a few causes: its length, a character
that begins no token, a token out of place, an end that comes too early, a nesting too deep, or a
literal that is at fault. Each failure shows the place of its cause in the text.
-/

namespace VersionRange

/-! ### Labels -/

/-- No field of a label is longer than the label. -/
theorem length_le_of_mem_fields {label field : List Char} (h : field ∈ Text.fields label) :
    field.length ≤ label.length := by
  obtain ⟨done, behind, hfields⟩ := List.append_of_mem h
  obtain ⟨more, hlabel⟩ := Text.exists_eq_of_fields hfields
  rw [hlabel, List.length_append, List.length_append]
  omega

/-! ### Literals -/

namespace Grammar

/-- Tokens that spell numbers and wildcards, joined by dots directly between them. -/
inductive SpellsParts : List Token → Prop
  | first {t : Token} (kind : TokenKind.literalPart.contains t.kind = true) : SpellsParts [t]
  | next {ts : List Token} {dot t : Token} (before : SpellsParts ts) (joined : Joined dot t)
      (kind : TokenKind.literalPart.contains t.kind = true) : SpellsParts (ts ++ [dot, t])

/-- A token that is a label directly behind what comes before it. -/
def AttachedLabel (t : Token) : Prop := t.kind = .label ∧ t.spaced = false

/-- Tokens that spell a literal, be it at fault or not: its parts, and its labels behind them. -/
def SpellsLiteral (ts : List Token) : Prop :=
  ∃ parts labels, ts = parts ++ labels ∧ SpellsParts parts ∧ ∀ t ∈ labels, AttachedLabel t

end Grammar

/-- A position lies in a token, or at its end. -/
def Token.Holds (t : Token) (position : Nat) : Prop :=
  t.position ≤ position ∧ position ≤ t.position + t.text.length

open Grammar

namespace Spelling

variable {source : String} {s s' : Spelling} {t : Token} {failure : Failure}

theorem of_addLabel_eq_error (h : s.addLabel t = .error failure) :
    failure = .unexpectedToken TokenKind.literalEnd t := by
  rw [addLabel] at h
  split at h
  · cases h
    rfl
  · split at h <;> cases h

/-- A part of a literal is refused only for a needless zero, if it is short. -/
theorem of_addPart_eq_error (hshort : t.text.length ≤ Text.maxDigits)
    (h : s.addPart source t = .error failure) :
    failure = .malformedVersion source (some t.position) (.rangeLeadingZero t.text) := by
  rw [addPart] at h
  split at h
  · cases h
  · split at h
    · cases h
      rfl
    · obtain h | ⟨n, -, h⟩ := Outcome.bind_eq_error_iff.mp h
      · rw [readNumber, if_neg (Nat.not_lt.mpr hshort)] at h
        cases h
      · cases h

theorem of_readLabel_eq_error {read : Nat → List Char → Except Fault (List Word)}
    {label : Option Token} (h : readLabel source read label = .error failure) :
    ∃ t fault, label = some t ∧ read (t.position + 1) (t.text.drop 1) = .error fault ∧
      failure = .malformedVersion source (some fault.position) fault.reason := by
  cases label with
  | none => cases h
  | some t =>
    rw [readLabel] at h
    cases hread : read (t.position + 1) (t.text.drop 1) with
    | ok words =>
      rw [hread] at h
      cases h
    | error fault =>
      rw [hread] at h
      cases h
      exact ⟨t, fault, rfl, hread, rfl⟩

/-- The identifiers in a short label are short. -/
theorem isShort_of_readLabel {label : Option Token} {words : List Word}
    (hshort : ∀ t ∈ label, t.text.length ≤ Text.maxDigits)
    (h : readLabel source readPrerelease label = .ok words) : ∀ w ∈ words, w.IsShort := by
  cases label with
  | none =>
    cases h
    exact List.forall_mem_nil _
  | some t =>
    rw [readLabel, Outcome.mapError_eq_ok_iff, readPrerelease,
      readFields_eq_ok_iff fun _ _ _ ↦ readPrereleaseWord_eq_ok_iff] at h
    intro w hw _
    have hfield : w.chars ∈ Text.fields (t.text.drop 1) := by
      rw [h.1]
      exact List.mem_map_of_mem hw
    have hlength := length_le_of_mem_fields hfield
    rw [List.length_drop] at hlength
    exact Nat.le_trans hlength (Nat.le_trans (Nat.sub_le ..) (hshort t rfl))

/-- A label is refused at a position within it, or at its end. -/
theorem holds_of_readLabel_eq_error {read : Nat → List Char → Except Fault Word}
    (hread : ∀ position cs fault, read position cs = .error fault →
      position ≤ fault.position ∧ fault.position ≤ position + cs.length)
    {label : Option Token} (hne : ∀ t ∈ label, t.text ≠ [])
    (h : readLabel source (fun position cs ↦ readFields read position (Text.fields cs)) label =
      .error failure) :
    ∃ t position reason, label = some t ∧
      failure = .malformedVersion source (some position) reason ∧ t.Holds position := by
  obtain ⟨t, fault, rfl, hfault, rfl⟩ := of_readLabel_eq_error h
  refine ⟨t, fault.position, fault.reason, rfl, rfl, ?_⟩
  have hposition := position_le_of_readFields hread hfault
  have hlength := List.length_pos_iff.mpr (hne t rfl)
  rw [List.length_drop] at hposition
  exact ⟨by omega, by omega⟩

/-- A literal whose parts have been read is refused only for a fault in one of its labels. -/
theorem of_literal_eq_error (hne : ∀ t ∈ s.labels, t.text ≠ [])
    (hshort : ∀ t ∈ s.labels, t.text.length ≤ Text.maxDigits)
    (h : s.literal source = .error failure) :
    ∃ t ∈ s.labels, ∃ position reason,
      failure = .malformedVersion source (some position) reason ∧ t.Holds position := by
  rw [labels, List.forall_mem_append] at hne hshort
  simp only [Option.mem_toList] at hne hshort
  rw [literal] at h
  split at h
  · cases h
  · cases h
  · cases h
  · rcases Outcome.bind_eq_error_iff.mp h with h | ⟨words, hwords, h⟩
    · obtain ⟨t, position, reason, hlabel, hfailure, hholds⟩ :=
        holds_of_readLabel_eq_error (fun _ _ _ ↦ position_le_of_readPrereleaseWord) hne.1 h
      exact ⟨t, by simp [labels, hlabel], position, reason, hfailure, hholds⟩
    · rcases Outcome.bind_eq_error_iff.mp h with h | ⟨build, -, h⟩
      · obtain ⟨t, position, reason, hlabel, hfailure, hholds⟩ :=
          holds_of_readLabel_eq_error (fun _ _ _ h ↦ (of_readWord_eq_error h).position_le) hne.2 h
        exact ⟨t, by simp [labels, hlabel], position, reason, hfailure, hholds⟩
      · rcases Outcome.bind_eq_error_iff.mp h with h | ⟨_, -, h⟩
        · have hok := readIdentifiers_eq_ok_iff.mpr ⟨isShort_of_readLabel hshort.1 hwords, rfl⟩
          rw [h] at hok
          cases hok
        · cases h

end Spelling

/-! ### Steps -/

/-- A token with which the reader can deal: it has characters, but not too many, and if it is a
comparator, it is a sign of comparison. -/
structure IsProper (t : Token) : Prop where
  ne_nil : t.text ≠ []
  length_le : t.text.length ≤ Text.maxDigits
  sign : t.kind = .comparator → ∃ relation, Relation.ofSymbol? (.ofList t.text) = some relation

/-- A token is refused behind others for a cause that it shows: it is out of place, or it opens more
than it may, or a literal is at fault that it belongs to or that it stands behind. -/
inductive Refuses (source : String) (maxDepth : Int) (before : List Token) (t : Token) :
    Failure → Prop
  | unexpectedToken (expected : List TokenKind) :
      Refuses source maxDepth before t (.unexpectedToken expected t)
  | nestingTooDeep (kind : t.kind = .not ∨ t.kind = .opening) :
      Refuses source maxDepth before t (.nestingTooDeep maxDepth t.position)
  | malformedVersion {earlier literal rest : List Token} {u : Token} {position : Nat}
      {reason : Reason} (h : before ++ [t] = earlier ++ (literal ++ rest))
      (spells : SpellsLiteral literal) (mem : u ∈ literal) (holds : u.Holds position) :
      Refuses source maxDepth before t (.malformedVersion source (some position) reason)

namespace Progress

variable {source : String} {maxDepth : Int} {before : List Token} {t : Token} {p q : Progress}
  {failure : Failure}

/-- The literal that a state has read so far stands at the end of the tokens that have been read,
with a dot behind it where a part has to follow. -/
def SpelledIn (before : List Token) : Progress → Prop
  | part _ s _ => ∃ earlier parts dot, before = earlier ++ (parts ++ [dot]) ∧
      SpellsParts parts ∧ dot.kind = .dot ∧ dot.spaced = false ∧ s.labels = []
  | spelling _ s _ => ∃ earlier parts, before = earlier ++ (parts ++ s.labels) ∧
      SpellsParts parts ∧ ∀ u ∈ s.labels, AttachedLabel u
  | operand _ | literal _ _ | operator _ => True

/-- A step keeps the literal that has been read in the tokens, or refuses its token for a cause that
the token shows. -/
def Justified (source : String) (maxDepth : Int) (before : List Token) (t : Token) :
    Except Failure Progress → Prop
  | .ok q => q.SpelledIn (before ++ [t])
  | .error failure => Refuses source maxDepth before t failure

private theorem justified_enter {place : Place} (hkind : t.kind = .not ∨ t.kind = .opening) :
    Justified source maxDepth before t (enter maxDepth t place) := by
  rw [enter]
  split
  · exact Refuses.nestingTooDeep hkind
  · exact trivial

/-- A part is refused for its own needless zero, which lies in the literal that it ends. -/
theorem refuses_addPart {s : Spelling} {earlier parts : List Token} (hproper : IsProper t)
    (hbefore : before ++ [t] = earlier ++ parts) (hparts : SpellsParts parts) (hmem : t ∈ parts)
    (h : s.addPart source t = .error failure) : Refuses source maxDepth before t failure := by
  rw [Spelling.of_addPart_eq_error hproper.length_le h]
  have hliteral : before ++ [t] = earlier ++ (parts ++ []) := by rw [hbefore, List.append_nil]
  have hspells : SpellsLiteral parts :=
    ⟨parts, [], (List.append_nil parts).symm, hparts, List.forall_mem_nil _⟩
  exact .malformedVersion hliteral hspells hmem ⟨Nat.le_refl _, Nat.le_add_right ..⟩

/-- A part that is read ends the parts of its literal, which has no labels yet. -/
theorem justified_addPart {role : Role} {s : Spelling} {place : Place} {earlier parts : List Token}
    (hproper : IsProper t) (hnone : s.labels = []) (hbefore : before ++ [t] = earlier ++ parts)
    (hparts : SpellsParts parts) (hmem : t ∈ parts) :
    Justified source maxDepth before t (do
      let s ← s.addPart source t
      .ok (spelling role s place)) := by
  cases hadd : s.addPart source t with
  | error failure => exact refuses_addPart hproper hbefore hparts hmem hadd
  | ok s' =>
    have hlabels : s'.labels = [] := (Spelling.labels_addPart hadd).trans hnone
    refine ⟨earlier, parts, ?_, hparts, ?_⟩
    · rw [hlabels, List.append_nil]
      exact hbefore
    · rw [hlabels]
      exact List.forall_mem_nil _

private theorem justified_firstPart {role : Role} {place : Place} (hproper : IsProper t)
    (hkind : TokenKind.literalPart.contains t.kind = true) :
    Justified source maxDepth before t (do
      let s ← Spelling.addPart source {} t
      .ok (spelling role s place)) :=
  justified_addPart hproper rfl rfl (.first hkind) (List.mem_singleton_self t)

private theorem justified_stepOperand {place : Place} (hproper : IsProper t) :
    Justified source maxDepth before t (stepOperand source maxDepth place t) := by
  rw [stepOperand]
  split
  · next hkind => exact justified_enter (.inl hkind)
  · next hkind => exact justified_enter (.inr hkind)
  · next hkind =>
    obtain ⟨relation, hsign⟩ := hproper.sign hkind
    rw [hsign]
    exact trivial
  · exact trivial
  · exact trivial
  · next hkind => exact justified_firstPart hproper (by rw [hkind]; rfl)
  · next hkind => exact justified_firstPart hproper (by rw [hkind]; rfl)
  · exact Refuses.unexpectedToken _

private theorem justified_stepOperator {chain : Chain} (hproper : IsProper t) :
    Justified source maxDepth before t (stepOperator source maxDepth chain t) := by
  rw [stepOperator]
  split
  · exact trivial
  · split
    · exact Refuses.unexpectedToken _
    · exact trivial
  · split
    · exact trivial
    · split
      · exact justified_stepOperand hproper
      · split
        · exact Refuses.unexpectedToken _
        · exact Refuses.unexpectedToken _

private theorem justified_stepBehind {role : Role} {l : Literal} {place : Place}
    (hproper : IsProper t) :
    Justified source maxDepth before t (stepBehind source maxDepth role l place t) := by
  unfold stepBehind
  split
  · exact trivial
  · exact justified_stepOperator hproper

private theorem justified_stepWithin {role : Role} {s : Spelling} {place : Place}
    (h : (spelling role s place).SpelledIn before) (hspaced : t.spaced = false) :
    Justified source maxDepth before t (stepWithin role s place t) := by
  obtain ⟨earlier, parts, rfl, hparts, hlabels⟩ := h
  rw [stepWithin]
  split
  · next hkind =>
    split
    · exact Refuses.unexpectedToken _
    · next hfree =>
      rw [Bool.or_eq_true, not_or, Bool.not_eq_true] at hfree
      have hnone : s.labels = [] := by
        simpa [Spelling.isLabeled, Spelling.labels] using hfree.1
      refine ⟨earlier, parts, t, ?_, hparts, hkind, hspaced, hnone⟩
      rw [hnone, List.append_nil, List.append_assoc]
  · next hkind =>
    cases hadd : s.addLabel t with
    | error failure =>
      rw [Spelling.of_addLabel_eq_error hadd]
      exact Refuses.unexpectedToken _
    | ok s' =>
      have hadded := Spelling.labels_addLabel hadd
      refine ⟨earlier, parts, ?_, hparts, ?_⟩
      · rw [hadded]
        simp only [List.append_assoc]
      · rw [hadded, List.forall_mem_append]
        exact ⟨hlabels, List.forall_mem_singleton.mpr ⟨hkind, hspaced⟩⟩
  · exact Refuses.unexpectedToken _

/-- A literal that is at fault stands behind the tokens before it. -/
theorem exists_of_literal_eq_error {role : Role} {s : Spelling} {place : Place}
    (h : (spelling role s place).SpelledIn before) (hproper : ∀ u ∈ before, IsProper u)
    (herror : s.literal source = .error failure) :
    ∃ earlier literal u position reason, before = earlier ++ literal ∧ SpellsLiteral literal ∧
      u ∈ literal ∧ u.Holds position ∧
        failure = .malformedVersion source (some position) reason := by
  obtain ⟨earlier, parts, rfl, hparts, hlabels⟩ := h
  have hmem (u : Token) (hu : u ∈ s.labels) : IsProper u := hproper u (by simp [hu])
  obtain ⟨u, hu, position, reason, hfailure, hholds⟩ := Spelling.of_literal_eq_error
    (fun u hu ↦ (hmem u hu).ne_nil) (fun u hu ↦ (hmem u hu).length_le) herror
  exact ⟨earlier, parts ++ s.labels, u, position, reason, rfl,
    ⟨parts, s.labels, rfl, hparts, hlabels⟩, List.mem_append_right _ hu, hholds, hfailure⟩

/-- Every step is justified behind tokens that the state has read. -/
theorem justified_step (source : String) (maxDepth : Int) (h : p.SpelledIn before)
    (hproper : ∀ u ∈ before ++ [t], IsProper u) :
    Justified source maxDepth before t (p.step source maxDepth t) := by
  have ht : IsProper t := hproper t (by simp)
  cases p with
  | operand place => exact justified_stepOperand ht
  | operator chain => exact justified_stepOperator ht
  | literal role place =>
    rw [step]
    split
    · next hkind => exact justified_firstPart ht hkind
    · exact Refuses.unexpectedToken _
  | part role s place =>
    obtain ⟨earlier, parts, dot, rfl, hparts, hdot, hspaced, hnone⟩ := h
    rw [step]
    split
    · exact Refuses.unexpectedToken _
    · next hjoined =>
      split
      · exact Refuses.unexpectedToken _
      · simp only [Bool.or_eq_true, Bool.not_eq_true', not_or, Bool.not_eq_true,
          Bool.not_eq_false] at hjoined
        have hbefore : earlier ++ (parts ++ [dot]) ++ [t] = earlier ++ (parts ++ [dot, t]) := by
          simp
        have hparts' := hparts.next ⟨hdot, hspaced, hjoined.1⟩ hjoined.2
        exact justified_addPart ht hnone hbefore hparts' (by simp)
  | spelling role s place =>
    rw [step]
    split
    · cases hliteral : s.literal source with
      | error failure =>
        obtain ⟨earlier, literal, u, position, reason, rfl, hspells, hu, hholds, rfl⟩ :=
          exists_of_literal_eq_error h (List.forall_mem_append.mp hproper).1 hliteral
        exact Refuses.malformedVersion (List.append_assoc ..) hspells hu hholds
      | ok l => exact justified_stepBehind ht
    · next hends =>
      rw [Bool.or_eq_true, not_or, Bool.not_eq_true] at hends
      exact justified_stepWithin h hends.1

private theorem spelledIn_step (h : p.SpelledIn before) (hproper : ∀ u ∈ before ++ [t], IsProper u)
    (hstep : p.step source maxDepth t = .ok q) : q.SpelledIn (before ++ [t]) := by
  have hjustified := justified_step source maxDepth h hproper
  rw [hstep] at hjustified
  exact hjustified

private theorem refuses_step (h : p.SpelledIn before) (hproper : ∀ u ∈ before ++ [t], IsProper u)
    (hstep : p.step source maxDepth t = .error failure) :
    Refuses source maxDepth before t failure := by
  have hjustified := justified_step source maxDepth h hproper
  rw [hstep] at hjustified
  exact hjustified

/-! ### Runs -/

private theorem spelledIn_start : start.SpelledIn [] := trivial

/-- The literal that has been read is kept in the tokens through a whole run. -/
theorem spelledIn_run {ts : List Token} (h : p.SpelledIn before)
    (hproper : ∀ u ∈ before ++ ts, IsProper u)
    (hrun : ts.foldlM (step source maxDepth) p = .ok q) : q.SpelledIn (before ++ ts) := by
  induction ts generalizing p before with
  | nil =>
    cases hrun
    rwa [List.append_nil]
  | cons t ts ih =>
    rw [List.foldlM_cons] at hrun
    obtain ⟨p', hstep, hrun⟩ := Outcome.bind_eq_ok_iff.mp hrun
    rw [List.append_cons] at hproper ⊢
    have hspelled := spelledIn_step h (List.forall_mem_append.mp hproper).1 hstep
    exact ih hspelled hproper hrun

/-- A run that fails stops at a token that is refused behind the tokens before it. -/
theorem refuses_run {ts : List Token} (hproper : ∀ u ∈ ts, IsProper u)
    (hrun : ts.foldlM (step source maxDepth) start = .error failure) :
    ∃ read t rest, ts = read ++ t :: rest ∧ Refuses source maxDepth read t failure := by
  obtain ⟨read, t, rest, q, rfl, hread, hstep⟩ := Outcome.exists_of_foldlM_eq_error hrun
  refine ⟨read, t, rest, rfl, ?_⟩
  rw [List.append_cons] at hproper
  have hpast : ∀ u ∈ read ++ [t], IsProper u := (List.forall_mem_append.mp hproper).1
  have hspelled : q.SpelledIn read :=
    spelledIn_run spelledIn_start (List.forall_mem_append.mp hpast).1 hread
  exact refuses_step hspelled hpast hstep

end Progress

/-! ### Texts -/

/-- A comparator is one of the signs of comparison. -/
theorem exists_relation_of_scan {position : Nat} {previous : Option TokenKind}
    {source rest : List Char} {t : Token} (h : scan position previous source = .token t rest)
    (hkind : t.kind = .comparator) :
    ∃ relation, Relation.ofSymbol? (.ofList t.text) = some relation := by
  obtain ⟨gap, c, tail, more, -, -, -, hclass, ht, -⟩ := scan_eq_token_iff.mp h
  have htext : t.text = c :: tail.take more := by rw [ht]
  rw [hkind] at hclass
  rw [htext]
  refine Option.isSome_iff_exists.mp ?_
  cases begins_of_classify? hclass with
  | pair hd hpair =>
    obtain ⟨behind, rfl⟩ := List.head?_eq_some_iff.mp hd
    rw [List.take_succ_cons, List.take_zero]
    unfold pairKind? at hpair
    split at hpair <;> cases hpair <;> decide
  | single hsingle =>
    rw [List.take_zero]
    unfold singleKind? at hsingle
    split at hsingle <;> cases hsingle <;> decide

private theorem isProper_of_mem {source : List Char} {t : Token}
    (hlength : source.length ≤ Text.maxDigits)
    (h : t ∈ (Tokenization.ofChars source).tokens) : IsProper t where
  ne_nil := ((Tokenization.accounts_tokens source).2.1 t h).2
  length_le := by
    have hslice := congrArg List.length ((Tokenization.accounts_tokens source).1.slice t h)
    rw [List.length_take, List.length_drop] at hslice
    omega
  sign := Tokenization.of_mem_ofCharsFrom exists_relation_of_scan h

/-- A position lies in what some tokens take up of a text, or at the end of it. -/
def LiesIn (ts : List Token) (position : Nat) : Prop :=
  ∃ first ∈ ts.head?, ∃ last ∈ ts.getLast?,
    first.position ≤ position ∧ position ≤ last.position + last.text.length

private theorem liesIn_of_mem {ts : List Token} {t : Token} {position : Nat}
    (hapart : ts.Pairwise fun t u ↦
      t.position < u.position ∧ t.position + t.text.length ≤ u.position)
    (h : t ∈ ts) (hholds : t.Holds position) : LiesIn ts position := by
  obtain ⟨before, behind, rfl⟩ := List.append_of_mem h
  obtain ⟨-, hbehind, hbefore⟩ := List.pairwise_append.mp hapart
  obtain ⟨hlow, hhigh⟩ := hholds
  have hfirst : ∃ first ∈ (before ++ t :: behind).head?, first.position ≤ t.position := by
    cases before with
    | nil => exact ⟨t, rfl, Nat.le_refl _⟩
    | cons u before => exact ⟨u, rfl, Nat.le_of_lt (hbefore u (by simp) t (by simp)).1⟩
  have hlast : ∃ last ∈ (before ++ t :: behind).getLast?,
      t.position + t.text.length ≤ last.position + last.text.length := by
    rcases List.eq_nil_or_concat behind with rfl | ⟨behind, u, rfl⟩
    · exact ⟨t, by simp, Nat.le_refl _⟩
    · have hu := (List.pairwise_cons.mp hbehind).1 u (by simp)
      refine ⟨u, ?_, by omega⟩
      rw [List.concat_eq_append, ← List.cons_append, ← List.append_assoc, List.getLast?_concat]
      rfl
  obtain ⟨first, hfirst, hle⟩ := hfirst
  obtain ⟨last, hlast, hge⟩ := hlast
  exact ⟨first, hfirst, last, hlast, by omega, by omega⟩

namespace Expression

/-- What a failure to read a text as an expression says of the text and the limits. No other
failure says anything of them. -/
def Explains (text : String) (limits : Limits) : Failure → Prop
  | .inputTooLong length limit =>
    length = text.toList.length ∧ limit = limits.maxInputLength ∧ limit < length
  | .illegalExpression character position => text.toList[position]? = some character
  | .unexpectedToken _ t =>
    t ∈ (Tokenization.ofChars text.toList).tokens ∧
      (text.toList.drop t.position).take t.text.length = t.text
  | .unexpectedEnd _ position => position = text.toList.length
  | .nestingTooDeep limit position =>
    limit = limits.maxDepth ∧ ∃ t ∈ (Tokenization.ofChars text.toList).tokens,
      (t.kind = .not ∨ t.kind = .opening) ∧ t.position = position ∧
        (text.toList.drop position).take t.text.length = t.text
  | .malformedVersion shown position _ =>
    shown = text ∧ ∃ p literal, position = some p ∧ SpellsLiteral literal ∧
      literal <:+: (Tokenization.ofChars text.toList).tokens ∧ LiesIn literal p
  | _ => False

variable {text : String} {limits : Limits} {failure : Failure} {t u : Token}

private theorem explains_malformedVersion {earlier literal rest : List Token} {position : Nat}
    {reason : Reason}
    (htokens : (Tokenization.ofChars text.toList).tokens = earlier ++ (literal ++ rest))
    (hspells : SpellsLiteral literal) (hu : u ∈ literal) (hholds : u.Holds position) :
    Explains text limits (.malformedVersion text (some position) reason) := by
  have hinfix : literal <:+: (Tokenization.ofChars text.toList).tokens :=
    ⟨earlier, rest, by rw [htokens, List.append_assoc]⟩
  have hapart := (Tokenization.accounts_tokens text.toList).1.apart.sublist hinfix.sublist
  exact ⟨rfl, position, literal, rfl, hspells, hinfix, liesIn_of_mem hapart hu hholds⟩

/-- A token that is refused explains the failure by its place in the text. -/
theorem explains_of_refuses {before rest : List Token}
    (htokens : (Tokenization.ofChars text.toList).tokens = before ++ t :: rest)
    (h : Refuses text limits.maxDepth before t failure) : Explains text limits failure := by
  have ht : t ∈ (Tokenization.ofChars text.toList).tokens := by simp [htokens]
  have hslice := (Tokenization.accounts_tokens text.toList).1.slice t ht
  cases h with
  | unexpectedToken => exact ⟨ht, hslice⟩
  | nestingTooDeep hkind => exact ⟨rfl, t, ht, hkind, rfl, hslice⟩
  | @malformedVersion earlier literal more u _ _ h hspells hu hholds =>
    have hall : (Tokenization.ofChars text.toList).tokens =
        earlier ++ (literal ++ (more ++ rest)) := by
      rw [htokens, List.append_cons, h]
      simp
    exact explains_malformedVersion hall hspells hu hholds

/-- A text that ends too early explains the failure by its end, or by a literal at its end. -/
theorem explains_of_finish {q : Progress}
    (hproper : ∀ u ∈ (Tokenization.ofChars text.toList).tokens, IsProper u)
    (h : q.SpelledIn (Tokenization.ofChars text.toList).tokens)
    (hfinish : q.finish text text.toList.length = .error failure) :
    Explains text limits failure := by
  have hoperator {chain : Chain}
      (h : Progress.finishOperator text.toList.length chain = .error failure) :
      Explains text limits failure := by
    rw [Progress.finishOperator] at h
    split at h
    · cases h
    · cases h
      exact rfl
  cases q with
  | operand | literal | part =>
    cases hfinish
    exact rfl
  | operator chain => exact hoperator hfinish
  | spelling role s place =>
    rcases Outcome.bind_eq_error_iff.mp hfinish with hfinish | ⟨l, -, hfinish⟩
    · obtain ⟨earlier, literal, u, position, reason, htokens, hspells, hu, hholds, rfl⟩ :=
        Progress.exists_of_literal_eq_error h hproper hfinish
      rw [← List.append_nil literal] at htokens
      exact explains_malformedVersion htokens hspells hu hholds
    · exact hoperator hfinish

/-- A text is read as an expression, or refused with a failure that explains itself by the text,
if the limit on length excludes numerals that are too long. -/
theorem parse_explains (text : String) (limits : Limits) (h : limits.maxInputLength ≤ 4300) :
    (∃ e, parse text limits = .ok e) ∨
      ∃ failure, parse text limits = .error failure ∧ Explains text limits failure := by
  cases hparse : parse text limits with
  | ok e => exact .inl ⟨e, rfl⟩
  | error failure =>
    refine .inr ⟨failure, rfl, ?_⟩
    rw [parse] at hparse
    split at hparse
    · next hlength =>
      cases hparse
      exact ⟨rfl, rfl, hlength⟩
    · next hlength =>
      have hproper : ∀ u ∈ (Tokenization.ofChars text.toList).tokens, IsProper u := by
        refine fun u ↦ isProper_of_mem ?_
        rw [Text.maxDigits]
        omega
      have hfits := (Tokenization.accounts_tokens text.toList).2.2
      rw [ofTokenization] at hparse
      rcases Outcome.bind_eq_error_iff.mp hparse with hrun | ⟨q, hrun, hparse⟩
      · obtain ⟨before, t, rest, htokens, hrefuses⟩ := Progress.refuses_run hproper hrun
        exact explains_of_refuses htokens hrefuses
      · split at hparse
        · next position spaced hstop =>
          rw [hstop] at hfits
          rw [hfits.1] at hparse
          exact explains_of_finish hproper
            (Progress.spelledIn_run Progress.spelledIn_start hproper hrun) hparse
        · next character position hstop =>
          cases hparse
          rw [hstop] at hfits
          exact hfits.1

/-- The needless zero in a label is shown, in a group behind a negation and within the usual
limits. -/
theorem parse_explains_needless_zero :
    (1024 : Int) ≤ 4300 ∧ ∃ failure, parse "!(1.2.3-01)" = .error failure ∧
      Explains "!(1.2.3-01)" {} failure := by
  have hlimit : (1024 : Int) ≤ 4300 := by decide
  have hfails : (parse "!(1.2.3-01)").isOk = false := by decide +kernel
  refine ⟨hlimit, ?_⟩
  rcases parse_explains "!(1.2.3-01)" {} hlimit with ⟨e, he⟩ | hrefused
  · rw [he] at hfails
    cases hfails
  · exact hrefused

end Expression

end VersionRange
