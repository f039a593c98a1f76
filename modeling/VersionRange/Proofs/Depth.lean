import Mathlib.Data.List.Basic
import VersionRange.Proofs.Nesting
import VersionRange.Proofs.Reading

/-!
# The limit on depth

A limit on depth decides nothing but whether a token may open a group or a negation. What is read
within one limit is therefore read within every other one that the tokens respect, and the limits
within which a text is read can be told from its tokens: their nesting, unless nothing is open in
them at all, and the lengths of their numerals.
-/

namespace VersionRange

open Grammar

namespace Progress

variable {source : String} {maxDepth : Int} {position : Nat} {t : Token} {ts : List Token}
  {p q : Progress} {e : Expression}

/-! ### Steps -/

/-- What the tokens read so far have opened. Negations count until their operand begins, and from
then on with its groups alone. -/
def nesting : Progress → Nesting
  | operand place => place.nesting
  | literal _ place | part _ _ place | spelling _ _ place =>
    { groups := place.outer.map Level.negations }
  | operator chain => { groups := chain.outer.map Level.negations }

/-- A state follows a place of some nesting behind a token, within every limit that its depth
respects; within the others the token is refused as too deep. A state that opens nothing lies no
deeper than the place before it. -/
structure Follows (q : Progress) (n : Nesting) (kind : TokenKind) (position : Nat)
    (read : Int → Except Failure Progress) : Prop where
  nesting_eq : q.nesting = n.read kind
  read_eq : ∀ limit, read limit =
    if (q.nesting.depth : Int) ≤ max limit n.depth then .ok q
    else .error (.nestingTooDeep limit position)

theorem Follows.read_eq_ok {n : Nesting} {kind : TokenKind} {position : Nat} {limit : Int}
    {read : Int → Except Failure Progress} (h : q.Follows n kind position read)
    (hlimit : (q.nesting.depth : Int) ≤ max limit n.depth) : read limit = .ok q := by
  rw [h.read_eq, if_pos hlimit]

theorem Follows.le_of_read {n : Nesting} {kind : TokenKind} {position : Nat} {limit : Int}
    {read : Int → Except Failure Progress} (h : q.Follows n kind position read)
    (hread : read limit = .ok q) : (q.nesting.depth : Int) ≤ max limit n.depth := by
  rw [h.read_eq] at hread
  split at hread
  · assumption
  · cases hread

private theorem follows_of_forall {n : Nesting} {kind : TokenKind} {position : Nat}
    {read : Int → Except Failure Progress} (hread : ∀ limit, read limit = .ok q)
    (hnesting : q.nesting = n.read kind) (hkind : kind ∉ [.not, .opening]) :
    q.Follows n kind position read where
  nesting_eq := hnesting
  read_eq limit := by
    have hdepth := n.depth_read_le hkind
    rw [← hnesting] at hdepth
    rw [hread, if_pos (by omega)]

/-- A group or a negation is opened exactly within the limits that it respects. -/
theorem follows_of_enter {n : Nesting} {kind : TokenKind} {place : Place}
    (h : enter maxDepth t place = .ok q) (hnesting : place.nesting = n.read kind)
    (hkind : kind = .not ∨ kind = .opening) :
    q.Follows n kind t.position (enter · t place) := by
  obtain rfl := eq_operand_of_enter h
  have hdepth : place.nesting.depth = n.depth + 1 := by
    rw [hnesting]
    rcases hkind with rfl | rfl
    · exact n.depth_read_not
    · exact n.depth_opened
  refine ⟨hnesting, fun limit ↦ ?_⟩
  change _ = if (place.nesting.depth : Int) ≤ _ then _ else _
  rw [enter, ← place.depth_nesting]
  split
  · next hlimit => rw [if_neg (by omega)]
  · next hlimit => rw [if_pos (by omega)]

private theorem follows_of_groups {n : Nesting} {kind : TokenKind} {position : Nat}
    {read : Int → Except Failure Progress} (hread : ∀ limit, read limit = .ok q)
    (hnesting : q.nesting = { groups := n.groups })
    (hkind : kind ∉ [.not, .opening, .closing]) : q.Follows n kind position read :=
  follows_of_forall hread (by rw [hnesting, n.read_eq hkind]) (by simp_all)

/-- A part of a literal opens nothing. -/
theorem nesting_of_addPart {role : Role} {s : Spelling} {place : Place}
    (h : (do
      let s ← s.addPart source t
      .ok (spelling role s place)) = Except.ok q) :
    q.nesting = { groups := place.outer.map Level.negations } := by
  obtain ⟨s, -, h⟩ := Outcome.bind_eq_ok_iff.mp h
  cases h
  rfl

private theorem other_of_literalPart {kind : TokenKind}
    (h : TokenKind.literalPart.contains kind = true) : kind ∉ [.not, .opening, .closing] := by
  revert h
  cases kind <;> decide

private theorem follows_of_stepOperand {place : Place}
    (h : stepOperand source maxDepth place t = .ok q) :
    q.Follows place.nesting t.kind t.position (stepOperand source · place t) := by
  rw [stepOperand] at h
  split at h
  · next hkind =>
    simp only [stepOperand, hkind]
    exact follows_of_enter h rfl (.inl rfl)
  · next hkind =>
    simp only [stepOperand, hkind]
    exact follows_of_enter h rfl (.inr rfl)
  · next hkind =>
    split at h
    · next relation hsign =>
      cases h
      simp only [stepOperand, hkind, hsign]
      exact follows_of_forall (fun _ ↦ rfl) rfl (by decide)
    · cases h
  · next hkind =>
    cases h
    simp only [stepOperand, hkind]
    exact follows_of_forall (fun _ ↦ rfl) rfl (by decide)
  · next hkind =>
    cases h
    simp only [stepOperand, hkind]
    exact follows_of_forall (fun _ ↦ rfl) rfl (by decide)
  · next hkind =>
    simp only [stepOperand, hkind]
    exact follows_of_groups (fun _ ↦ h) (nesting_of_addPart h) (by decide)
  · next hkind =>
    simp only [stepOperand, hkind]
    exact follows_of_groups (fun _ ↦ h) (nesting_of_addPart h) (by decide)
  · cases h

private theorem follows_of_stepOperator {chain : Chain}
    (h : stepOperator source maxDepth chain t = .ok q) :
    q.Follows { groups := chain.outer.map Level.negations } t.kind t.position
      (stepOperator source · chain t) := by
  rw [stepOperator] at h
  split at h
  · next hkind =>
    cases h
    simp only [stepOperator, hkind]
    exact follows_of_forall (fun _ ↦ rfl) rfl (by decide)
  · next hkind =>
    split at h
    · cases h
    · next level outer houter =>
      cases h
      simp only [stepOperator, hkind, houter]
      exact follows_of_forall (fun _ ↦ rfl) rfl (by decide)
  · next hor hclosing =>
    split at h
    · next hkind =>
      cases h
      simp only [stepOperator, hkind, if_pos]
      exact follows_of_forall (fun _ ↦ rfl) rfl (by decide)
    · next hand =>
      split at h
      · next hstart =>
        have hfollows := follows_of_stepOperand h
        unfold stepOperator
        split
        · contradiction
        · contradiction
        · simp only [if_neg hand, if_pos hstart]
          exact hfollows
      · split at h
        · cases h
        · cases h

private theorem follows_of_stepBehind {role : Role} {l : Literal} {place : Place}
    (h : stepBehind source maxDepth role l place t = .ok q) :
    q.Follows { groups := place.outer.map Level.negations } t.kind t.position
      (stepBehind source · role l place t) := by
  unfold stepBehind at h
  split at h
  · next hkind =>
    cases h
    simp only [stepBehind, hkind]
    exact follows_of_groups (fun _ ↦ rfl) rfl (by decide)
  · next hother =>
    have hfollows := follows_of_stepOperator h
    unfold stepBehind
    split
    · next hkind => exact absurd hkind (hother rfl)
    · exact hfollows

private theorem follows_of_stepWithin {role : Role} {s : Spelling} {place : Place}
    (h : stepWithin role s place t = .ok q) :
    q.Follows { groups := place.outer.map Level.negations } t.kind t.position
      fun _ ↦ stepWithin role s place t := by
  refine follows_of_groups (fun _ ↦ h) ?_ ?_
  · rw [stepWithin] at h
    split at h
    · split at h
      · cases h
      · cases h
        rfl
    · obtain ⟨s, -, h⟩ := Outcome.bind_eq_ok_iff.mp h
      cases h
      rfl
    · cases h
  · intro hkind
    rw [stepWithin] at h
    split at h
    · next heq => simp [heq] at hkind
    · next heq => simp [heq] at hkind
    · cases h

/-- Every step leads to a state that follows the one before it. -/
theorem follows_of_step (h : p.step source maxDepth t = .ok q) :
    q.Follows p.nesting t.kind t.position (p.step source · t) := by
  cases p with
  | operand place => exact follows_of_stepOperand h
  | operator chain => exact follows_of_stepOperator h
  | literal role place =>
    rw [step] at h
    split at h
    · next hkind =>
      simp only [step, if_pos hkind]
      exact follows_of_groups (fun _ ↦ h) (nesting_of_addPart h) (other_of_literalPart hkind)
    · cases h
  | part role s place =>
    rw [step] at h
    split at h
    · cases h
    · next hjoined =>
      split at h
      · cases h
      · next hwildcard =>
        simp only [step, if_neg hjoined, if_neg hwildcard]
        refine follows_of_groups (fun _ ↦ h) (nesting_of_addPart h) (other_of_literalPart ?_)
        rw [Bool.or_eq_true, not_or, Bool.not_eq_true', Bool.not_eq_false] at hjoined
        exact hjoined.2
  | spelling role s place =>
    rw [step] at h
    split at h
    · next hends =>
      obtain ⟨l, hl, h⟩ := Outcome.bind_eq_ok_iff.mp h
      simp only [step, if_pos hends, hl]
      exact follows_of_stepBehind h
    · next hends =>
      simp only [step, if_neg hends]
      exact follows_of_stepWithin h

/-! ### Runs -/

/-- Tokens that are read to the end within a limit open no more than it allows, or than is open
before them. They are read within every limit that allows what they open. -/
theorem resume_of_resume (limit : Int) (h : resume source maxDepth position p ts = .ok e) :
    (p.nesting.deepest ts : Int) ≤ max maxDepth p.nesting.depth ∧
      ((p.nesting.deepest ts : Int) ≤ max limit 0 → resume source limit position p ts = .ok e) := by
  induction ts generalizing p with
  | nil => exact ⟨Int.le_max_right .., fun _ ↦ h⟩
  | cons t ts ih =>
    rw [resume_cons] at h
    obtain ⟨q, hstep, hrun⟩ := Outcome.bind_eq_ok_iff.mp h
    have hfollows := follows_of_step hstep
    have hdepth := hfollows.le_of_read hstep
    obtain ⟨hdeepest, hresume⟩ := ih hrun
    have hmax : p.nesting.deepest (t :: ts) = max p.nesting.depth (q.nesting.deepest ts) := by
      rw [Nesting.deepest, hfollows.nesting_eq]
    have hle := q.nesting.depth_le_deepest ts
    refine ⟨by omega, fun hlimit ↦ ?_⟩
    rw [resume_of_step (hfollows.read_eq_ok (by omega))]
    exact hresume (by omega)

end Progress

/-! ### Numerals -/

/-- The numerals of a pre-release label are those of its words. -/
theorem isShort_label_iff {t : Token} {label : List Char} {isIdentifier : List Char → Bool}
    {words : List Word} (hkind : t.kind = .label) (htext : t.text = '-' :: label)
    (h : Outline.words? isIdentifier (some label) = some words) :
    IsShort t ↔ ∀ w ∈ words, w.IsShort := by
  rw [Outline.words?_some_eq_some_iff, ← and_assoc, ← fields_eq_map_chars_iff] at h
  rw [IsShort, htext, List.tail_cons, h.1, List.forall_mem_map]
  simp only [Word.isDigits_chars]
  constructor
  · exact fun hshort ↦ hshort.2 hkind rfl
  · refine fun hwords ↦ ⟨fun hnumber ↦ ?_, fun _ _ ↦ hwords⟩
    rw [hkind] at hnumber
    cases hnumber

namespace Spelling

variable {source : String} {s s' : Spelling} {t : Token}

/-- The labels that have been read. -/
def labels (s : Spelling) : List Token := s.prerelease.toList ++ s.build.toList

/-- A part that has been read leaves the labels as they are. -/
theorem labels_addPart (h : s.addPart source t = .ok s') : s'.labels = s.labels := by
  rw [addPart] at h
  split at h
  · cases h
    rfl
  · split at h
    · cases h
    · obtain ⟨n, -, h⟩ := Outcome.bind_eq_ok_iff.mp h
      cases h
      rfl

private theorem isShort_of_addPart (hkind : t.kind = .number ∨ t.kind = .wildcard)
    (h : s.addPart source t = .ok s') : IsShort t := by
  rcases hkind with hkind | hkind
  · rw [addPart, if_neg (by rw [hkind]; decide)] at h
    split at h
    · cases h
    · obtain ⟨n, hn, h⟩ := Outcome.bind_eq_ok_iff.mp h
      rw [readNumber] at hn
      split at hn
      · cases hn
      · next hlength =>
        refine ⟨fun _ ↦ Nat.not_lt.mp hlength, fun hlabel ↦ ?_⟩
        rw [hkind] at hlabel
        cases hlabel
  · exact isShort_of_kind hkind

/-- A label that has been added stands behind the others. -/
theorem labels_addLabel (h : s.addLabel t = .ok s') : s'.labels = s.labels ++ [t] := by
  rw [addLabel] at h
  split at h
  · cases h
  · next hfree =>
    simp only [Bool.or_eq_true, Bool.and_eq_true, not_or, not_and, bne_iff_ne, ne_eq,
      Decidable.not_not, Bool.not_eq_true, Option.isSome_eq_false_iff,
      Option.isNone_iff_eq_none] at hfree
    split at h
    · next hhyphen =>
      cases h
      simp [labels, hfree.1.2, hfree.2 hhyphen]
    · cases h
      simp [labels, hfree.1.2]

/-- The labels of a literal that has been read are short. -/
theorem ReadAt.isShort_of_literal {ts rest : List Token} {l : Literal} (hread : s.ReadAt ts rest)
    (h : s.literal source = .ok l) : ∀ u ∈ s.labels, IsShort u := by
  obtain ⟨numbers, wildcards, prerelease, build⟩ := s
  obtain ⟨-, hthree, us, vs, -, hprerelease, hbuild⟩ := hread
  intro u hu
  rw [labels, List.mem_append, Option.mem_toList, Option.mem_toList] at hu
  have hlabeled : isLabeled ⟨numbers, wildcards, prerelease, build⟩ = true := by
    rcases hu with hu | hu <;> simp_all [isLabeled]
  obtain ⟨major, minor, patch, rfl⟩ := List.length_eq_three.mp (hthree hlabeled)
  simp only [literal, Outcome.bind_eq_ok_iff, readIdentifiers_eq_ok_iff] at h
  obtain ⟨words, hwords, -, -, -, ⟨hshort, -⟩, -⟩ := h
  rcases hu with rfl | rfl
  · obtain ⟨hkind, -, hmark, -⟩ := hprerelease
    obtain ⟨label, htext⟩ := List.head?_eq_some_iff.mp hmark
    rw [readLabel, Outcome.mapError_eq_ok_iff, readPrerelease_eq_ok_iff, htext] at hwords
    exact (isShort_label_iff hkind htext hwords).mpr hshort
  · obtain ⟨hkind, -, hmark, -⟩ := hbuild
    refine ⟨fun hnumber ↦ ?_, fun _ hhyphen ↦ ?_⟩
    · rw [hkind] at hnumber
      cases hnumber
    · rw [hmark] at hhyphen
      exact absurd hhyphen (by decide)

end Spelling

namespace Progress

variable {source : String} {maxDepth : Int} {position : Nat} {t : Token} {all ts : List Token}
  {p q : Progress} {e : Expression}

/-- The labels of a literal that has not ended. -/
def labels : Progress → List Token
  | part _ s _ | spelling _ s _ => s.labels
  | operand _ | literal _ _ | operator _ => []

private theorem isShort_of_firstPart {role : Role} {s : Spelling} {place : Place}
    (hkind : t.kind = .number ∨ t.kind = .wildcard)
    (h : (do
      let s ← s.addPart source t
      .ok (spelling role s place)) = Except.ok q) : IsShort t ∧ q.labels = s.labels := by
  obtain ⟨s, hs, h⟩ := Outcome.bind_eq_ok_iff.mp h
  cases h
  exact ⟨Spelling.isShort_of_addPart hkind hs, Spelling.labels_addPart hs⟩

private theorem isShort_of_stepOperand {place : Place}
    (h : stepOperand source maxDepth place t = .ok q) : IsShort t := by
  rw [stepOperand] at h
  split at h
  · next hkind => exact isShort_of_kind hkind
  · next hkind => exact isShort_of_kind hkind
  · next hkind => exact isShort_of_kind hkind
  · next hkind => exact isShort_of_kind hkind
  · next hkind => exact isShort_of_kind hkind
  · next hkind => exact (isShort_of_firstPart (.inl hkind) h).1
  · next hkind => exact (isShort_of_firstPart (.inr hkind) h).1
  · cases h

private theorem isShort_of_stepOperator {chain : Chain}
    (h : stepOperator source maxDepth chain t = .ok q) : IsShort t := by
  rw [stepOperator] at h
  split at h
  · next hkind => exact isShort_of_kind hkind
  · next hkind => exact isShort_of_kind hkind
  · split at h
    · next hkind => exact isShort_of_kind hkind
    · split at h
      · exact isShort_of_stepOperand h
      · split at h <;> cases h

private theorem isShort_of_stepBehind {role : Role} {l : Literal} {place : Place}
    (h : stepBehind source maxDepth role l place t = .ok q) : IsShort t := by
  unfold stepBehind at h
  split at h
  · next hkind => exact isShort_of_kind hkind
  · exact isShort_of_stepOperator h

/-- A token that has been read is short, and so are the labels before it, unless they belong to a
literal that may go on. -/
theorem isShort_of_step (h : p.step source maxDepth t = .ok q) (hread : p.ReadAt all (t :: ts))
    (hq : ∀ u ∈ q.labels, IsShort u) : ∀ u ∈ t :: p.labels, IsShort u := by
  have hkinds (h : TokenKind.literalPart.contains t.kind = true) :
      t.kind = .number ∨ t.kind = .wildcard := by
    simpa [TokenKind.literalPart] using h
  rw [List.forall_mem_cons]
  cases p with
  | operand place => exact ⟨isShort_of_stepOperand h, List.forall_mem_nil _⟩
  | operator chain => exact ⟨isShort_of_stepOperator h, List.forall_mem_nil _⟩
  | literal role place =>
    rw [step] at h
    split at h
    · next hkind => exact ⟨(isShort_of_firstPart (hkinds hkind) h).1, List.forall_mem_nil _⟩
    · cases h
  | part role s place =>
    rw [step] at h
    split at h
    · cases h
    · next hjoined =>
      split at h
      · cases h
      · rw [Bool.or_eq_true, not_or, Bool.not_eq_true', Bool.not_eq_false] at hjoined
        obtain ⟨ht, hlabels⟩ := isShort_of_firstPart (hkinds hjoined.2) h
        rw [hlabels] at hq
        exact ⟨ht, hq⟩
  | spelling role s place =>
    rw [step] at h
    split at h
    · obtain ⟨l, hl, h⟩ := Outcome.bind_eq_ok_iff.mp h
      obtain ⟨_, _, -, -, hs⟩ := hread
      exact ⟨isShort_of_stepBehind h, hs.isShort_of_literal hl⟩
    · rw [stepWithin] at h
      split at h
      · next hkind =>
        split at h
        · cases h
        · cases h
          exact ⟨isShort_of_kind hkind, hq⟩
      · obtain ⟨s', hs, h⟩ := Outcome.bind_eq_ok_iff.mp h
        cases h
        rw [labels, Spelling.labels_addLabel hs, List.forall_mem_append] at hq
        exact ⟨hq.2 t (List.mem_singleton_self t), hq.1⟩
      · cases h

private theorem isShort_of_finish (h : p.finish source position = .ok e) (hread : p.ReadAt all []) :
    ∀ u ∈ p.labels, IsShort u := by
  cases p with
  | spelling role s place =>
    obtain ⟨l, hl, -⟩ := Outcome.bind_eq_ok_iff.mp h
    obtain ⟨_, _, -, -, hs⟩ := hread
    exact hs.isShort_of_literal hl
  | part role s place => cases h
  | operand | literal | operator => exact nofun

/-- Tokens that are read to the end are short. -/
theorem isShort_of_resume (h : resume source maxDepth position p ts = .ok e)
    (hread : p.ReadAt all ts) (hmarked : ∀ t ∈ ts, IsMarked t) :
    ∀ u ∈ p.labels ++ ts, IsShort u := by
  induction ts generalizing p with
  | nil =>
    rw [List.append_nil]
    exact isShort_of_finish h hread
  | cons t ts ih =>
    rw [resume_cons] at h
    obtain ⟨q, hstep, hrun⟩ := Outcome.bind_eq_ok_iff.mp h
    rw [List.forall_mem_cons] at hmarked
    have hrest := ih hrun (readAt_step hread hmarked.1 hstep) hmarked.2
    rw [List.forall_mem_append] at hrest
    have hbefore := isShort_of_step hstep hread hrest.1
    rw [List.forall_mem_cons] at hbefore
    rw [List.forall_mem_append, List.forall_mem_cons]
    exact ⟨hbefore.2, hbefore.1, hrest.2⟩

end Progress

/-! ### Texts -/

namespace Expression

/-- A text is read as an expression exactly if it is no longer than the limit, its tokens, all of
them, derive the expression, they open no more groups and negations than the limit allows, and
none of their numerals is too long. A limit on depth below zero refuses nothing that zero admits. -/
theorem parse_eq_ok_iff {text : String} {limits : Limits} {e : Expression} :
    parse text limits = .ok e ↔
      text.toList.length ≤ limits.maxInputLength ∧
        (nesting (Tokenization.ofChars text.toList).tokens : Int) ≤ max limits.maxDepth 0 ∧
        (∀ t ∈ (Tokenization.ofChars text.toList).tokens, IsShort t) ∧
        (∃ position spaced, (Tokenization.ofChars text.toList).stop = .finished position spaced) ∧
        Accepts (Tokenization.ofChars text.toList).tokens e := by
  have hmarked : ∀ t ∈ (Tokenization.ofChars text.toList).tokens, IsMarked t :=
    fun _ ↦ Tokenization.isMarked_of_mem_ofCharsFrom
  rw [parse]
  split
  · next hlength =>
    refine ⟨fun h ↦ ?_, fun h ↦ absurd h.1 (Int.not_le.mpr hlength)⟩
    cases h
  · next hlength =>
    rw [ofTokenization]
    cases hstop : (Tokenization.ofChars text.toList).stop with
    | illegal illegal =>
      constructor
      · intro h
        obtain ⟨_, -, h⟩ := Outcome.bind_eq_ok_iff.mp h
        cases h
      · rintro ⟨-, -, -, ⟨_, _, h⟩, -⟩
        cases h
    | finished position spaced =>
      change Progress.resume text limits.maxDepth position .start _ = .ok e ↔ _
      constructor
      · intro h
        have hdepth := (Progress.resume_of_resume 0 h).1
        refine ⟨Int.not_lt.mp hlength, hdepth, ?_, ⟨position, spaced, rfl⟩, ?_⟩
        · exact Progress.isShort_of_resume h Progress.readAt_start hmarked
        · exact Progress.accepts_of_resume Progress.readAt_start hmarked h
      · rintro ⟨-, hdepth, hshort, -, haccepts⟩
        -- The tokens are read within their own nesting, and so within the given limit.
        exact (Progress.resume_of_resume limits.maxDepth
          (Progress.resume_of_accepts haccepts ⟨Int.le_refl _, hshort⟩)).2 hdepth

end Expression

end VersionRange
