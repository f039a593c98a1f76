import VersionRange.Expression.Progress
import VersionRange.Proofs.Grammar
import VersionRange.Proofs.Labels

/-!
# What has been read is derived

Each state of the progress through an expression says what the tokens read so far derive: the
alternatives and the operands before the current place in every open group, and the parts of a
literal. One token more keeps this so, and at the end of the text the tokens derive the
expression that is read.
-/

namespace VersionRange

open Grammar

/-! ### Literals -/

namespace Spelling

/-- A label that has been read stands between two places. -/
def LabelRead (mark : Char) (us : List Token) : Option Token → List Token → Prop
  | none, vs => us = vs
  | some t, vs =>
    t.kind = .label ∧ t.spaced = false ∧ t.text.head? = some mark ∧ us = t :: vs

/-- What has been read of a literal stands between two places. -/
def ReadAt (s : Spelling) (ts rest : List Token) : Prop :=
  s.parts ≤ 3 ∧ (s.isLabeled = true → s.numbers.length = 3) ∧
    ∃ us vs, PartsAt ts s.numbers s.wildcards us ∧ LabelRead '-' us s.prerelease vs ∧
      LabelRead '+' vs s.build rest

private theorem addPart_wildcard {source : String} {s s' : Spelling} {t : Token}
    (hkind : t.kind = .wildcard) (h : s.addPart source t = .ok s') :
    s' = { s with wildcards := s.wildcards + 1 } := by
  rw [addPart, if_pos hkind] at h
  cases h
  rfl

private theorem addPart_number {source : String} {s s' : Spelling} {t : Token}
    (hkind : t.kind = .number) (h : s.addPart source t = .ok s') :
    ∃ n, Numeral t n ∧ s' = { s with numbers := s.numbers ++ [n] } := by
  rw [addPart, if_neg (by simp [hkind])] at h
  split at h
  · cases h
  · next hzero =>
    rw [Outcome.bind_eq_ok_iff] at h
    obtain ⟨n, hn, h⟩ := h
    cases h
    refine ⟨n, ⟨hkind, by simpa using hzero, ?_⟩, rfl⟩
    rw [readNumber] at hn
    split at hn
    · cases hn
    · cases hn
      rfl

/-- The first part of a literal has been read. -/
theorem readAt_first {source : String} {s : Spelling} {t : Token} {rest : List Token}
    (hkind : TokenKind.literalPart.contains t.kind = true)
    (h : Spelling.addPart source {} t = .ok s) : s.ReadAt (t :: rest) rest := by
  rcases (by simpa [TokenKind.literalPart] using hkind : t.kind = .number ∨ t.kind = .wildcard)
    with hkind | hkind
  · obtain ⟨n, hn, rfl⟩ := addPart_number hkind h
    exact ⟨by simp [parts], by simp [isLabeled], _, _, .number hn, rfl, rfl⟩
  · rw [addPart_wildcard hkind h]
    exact ⟨by simp [parts], by simp [isLabeled], _, _, .wildcard hkind, rfl, rfl⟩

/-- One part more of a literal has been read, behind a dot. -/
theorem ReadAt.readAt_next {source : String} {s s' : Spelling} {ts rest : List Token}
    {dot t : Token} (hread : s.ReadAt ts (dot :: t :: rest)) (hlabeled : s.isLabeled = false)
    (hparts : s.parts ≠ 3)
    (hjoined : Joined dot t) (hkind : TokenKind.literalPart.contains t.kind = true)
    (hwildcard : 0 < s.wildcards → t.kind ≠ .number) (h : s.addPart source t = .ok s') :
    s'.ReadAt ts rest := by
  obtain ⟨numbers, wildcards, prerelease, build⟩ := s
  cases prerelease with
  | some _ => cases hlabeled
  | none =>
    cases build with
    | some _ => cases hlabeled
    | none =>
      obtain ⟨hle, -, us, vs, hpartsAt, rfl, rfl⟩ := hread
      simp only [parts] at hle hparts
      rcases (by simpa [TokenKind.literalPart] using hkind : t.kind = .number ∨ t.kind = .wildcard)
        with hkind | hkind
      · obtain ⟨n, hn, rfl⟩ := addPart_number hkind h
        obtain rfl : wildcards = 0 := Nat.eq_zero_of_not_pos fun hpos ↦ hwildcard hpos hkind
        refine ⟨?_, nofun, rest, rest, .nextNumber hpartsAt hjoined hn, rfl, rfl⟩
        simp only [parts, List.length_append, List.length_singleton]
        omega
      · rw [addPart_wildcard hkind h]
        refine ⟨?_, nofun, rest, rest, .nextWildcard hpartsAt hjoined hkind, rfl, rfl⟩
        simp only [parts]
        omega

/-- A label of a literal has been read. -/
theorem ReadAt.readAt_label {s s' : Spelling} {ts rest : List Token} {t : Token}
    (hread : s.ReadAt ts (t :: rest)) (hkind : t.kind = .label) (hspaced : t.spaced = false)
    (hmark : t.text.head? = some '-' ∨ t.text.head? = some '+') (h : s.addLabel t = .ok s') :
    s'.ReadAt ts rest := by
  obtain ⟨hle, hthree, us, vs, hparts, hprerelease, hbuild⟩ := hread
  rw [addLabel] at h
  split at h
  · cases h
  · next hfree =>
    simp only [Bool.or_eq_true, Bool.and_eq_true, not_or, not_and, bne_iff_ne, ne_eq,
      Decidable.not_not, Bool.not_eq_true, Option.isSome_eq_false_iff, Option.isNone_iff_eq_none,
      beq_iff_eq] at hfree
    obtain ⟨⟨hnumbers, hnone⟩, hfirst⟩ := hfree
    rw [hnone] at hbuild
    obtain rfl : vs = t :: rest := hbuild
    split at h
    · next hhyphen =>
      cases h
      rw [beq_iff_eq] at hhyphen
      rw [hfirst hhyphen] at hprerelease
      obtain rfl : us = t :: rest := hprerelease
      refine ⟨hle, fun _ ↦ hnumbers, t :: rest, rest, hparts, ⟨hkind, hspaced, hhyphen, rfl⟩, ?_⟩
      rw [hnone]
      rfl
    · next hhyphen =>
      cases h
      rw [beq_iff_eq] at hhyphen
      exact ⟨hle, fun _ ↦ hnumbers, us, t :: rest, hparts, hprerelease, hkind, hspaced,
        hmark.resolve_left hhyphen, rfl⟩

private theorem label_of_labelRead {source : String}
    {read : Nat → List Char → Except Fault (List Word)}
    {mark : Char} {isIdentifier : List Char → Bool}
    (hread : ∀ position label words, read position label = .ok words →
      Outline.words? isIdentifier (some label) = some words)
    {us vs : List Token} {label : Option Token} {words : List Word}
    (h : LabelRead mark us label vs) (hwords : readLabel source read label = .ok words) :
    LabelAt mark isIdentifier us words vs := by
  cases label with
  | none =>
    cases hwords
    obtain rfl : us = vs := h
    exact .absent
  | some t =>
    obtain ⟨hkind, hspaced, hmark, rfl⟩ := h
    rw [readLabel, Outcome.mapError_eq_ok_iff] at hwords
    obtain ⟨label, htext⟩ : ∃ label, t.text = mark :: label := by
      cases htext : t.text with
      | nil => rw [htext] at hmark; cases hmark
      | cons c label =>
        rw [htext, List.head?_cons, Option.some.injEq] at hmark
        exact ⟨label, by rw [hmark]⟩
    rw [htext] at hwords
    exact .present hkind hspaced htext (hread _ _ _ hwords)

private theorem eq_of_unlabeled {us vs ws : List Token} {prerelease build : Option Token}
    (h : prerelease = none ∧ build = none) (hprerelease : LabelRead '-' us prerelease vs)
    (hbuild : LabelRead '+' vs build ws) : us = ws := by
  obtain ⟨rfl, rfl⟩ := h
  exact Eq.trans hprerelease hbuild

/-- The literal that has been read is the one that the grammar makes of its tokens. -/
theorem ReadAt.literalAt_of_readAt {source : String} {s : Spelling} {ts rest : List Token}
    {l : Literal} (hread : s.ReadAt ts rest) (hdetached : Detached rest)
    (h : s.literal source = .ok l) :
    LiteralAt ts l rest := by
  obtain ⟨numbers, wildcards, prerelease, build⟩ := s
  obtain ⟨hle, hthree, us, vs, hparts, hprerelease, hbuild⟩ := hread
  simp only [parts, isLabeled] at hle hthree hparts hprerelease hbuild
  match numbers with
  | [] =>
    obtain rfl := eq_of_unlabeled (by simpa using hthree) hprerelease hbuild
    cases h
    exact .any hparts (by simpa using hle) hdetached
  | [major] =>
    obtain rfl := eq_of_unlabeled (by simpa using hthree) hprerelease hbuild
    cases h
    rw [List.length_singleton] at hle
    exact .upToMajor hparts (by omega) hdetached
  | [major, minor] =>
    obtain rfl := eq_of_unlabeled (by simpa using hthree) hprerelease hbuild
    cases h
    rw [List.length_cons, List.length_singleton] at hle
    exact .upToMinor hparts (by omega) hdetached
  | major :: minor :: patch :: more =>
    simp only [List.length_cons] at hle
    obtain rfl : wildcards = 0 := by omega
    obtain rfl : more = [] := List.length_eq_zero_iff.mp (by omega)
    simp only [literal, Outcome.bind_eq_ok_iff, readIdentifiers_eq_ok_iff, Except.ok.injEq] at h
    obtain ⟨words, hwords, metadata, hmetadata, identifiers, ⟨-, rfl⟩, rfl⟩ := h
    refine .full hparts (label_of_labelRead ?_ hprerelease hwords)
      (label_of_labelRead ?_ hbuild hmetadata) hdetached
    · exact fun _ _ _ ↦ readPrerelease_eq_ok_iff.mp
    · exact fun _ _ _ ↦ readBuild_eq_ok_iff.mp

end Spelling

/-! ### Places -/

/-- The tokens that make a literal part of a range form stand before it. -/
def Role.ReadAt (ts us : List Token) : Role → Prop
  | plain => ts = us
  | upperEnd lower => ∃ t, t.kind = .hyphen ∧ LiteralAt ts lower (t :: us)
  | comparison relation =>
    ∃ t, t.kind = .comparator ∧ Relation.ofSymbol? (.ofList t.text) = some relation ∧ ts = t :: us
  | caret => ∃ t, t.kind = .caret ∧ ts = t :: us
  | tilde => ∃ t, t.kind = .tilde ∧ ts = t :: us

/-- A range form ends with its literal. -/
theorem Role.ReadAt.derives_of_readAt {role : Role} {ts us rest : List Token} {l : Literal}
    (h : role.ReadAt ts us) (hliteral : LiteralAt us l rest) :
    Derives .primary ts (role.expression l) rest := by
  cases role with
  | plain =>
    obtain rfl : ts = us := h
    exact .plain hliteral
  | upperEnd lower =>
    obtain ⟨t, hkind, hlow⟩ := h
    exact .hyphen hlow hkind hliteral
  | comparison relation =>
    obtain ⟨t, hkind, hsign, rfl⟩ := h
    exact .comparison hkind hsign hliteral
  | caret =>
    obtain ⟨t, hkind, rfl⟩ := h
    exact .caret hkind hliteral
  | tilde =>
    obtain ⟨t, hkind, rfl⟩ := h
    exact .tilde hkind hliteral

/-- The alternatives that have ended stand between two places. -/
def AlternativesRead (ts us : List Token) : Option Expression → Prop
  | none => ts = us
  | some e => ∃ t, t.kind = .or ∧ Derives .disjunction ts e (t :: us)

/-- The operands of a conjunction stand between two places, perhaps with a sign behind them. -/
def OperandsRead (ts us : List Token) : Option Expression → Prop
  | none => ts = us
  | some e =>
    Derives .conjunction ts e us ∨ ∃ t, t.kind = .and ∧ Derives .conjunction ts e (t :: us)

/-- Some negations stand between two places. -/
inductive NegationsRead : Nat → List Token → List Token → Prop
  | zero {ts : List Token} : NegationsRead 0 ts ts
  | next {count : Nat} {t : Token} {ts us : List Token} (kind : t.kind = .not)
      (h : NegationsRead count ts (t :: us)) : NegationsRead (count + 1) ts us

/-- What stands before an operand in its group stands between two places. -/
def Level.ReadAt (l : Level) (ts us : List Token) : Prop :=
  ∃ vs ws, AlternativesRead ts vs l.alternatives ∧ OperandsRead vs ws l.conjunction ∧
    NegationsRead l.negations ws us

/-- Groups have been opened, the innermost first, up to a place. -/
inductive OuterRead (all : List Token) : List Level → List Token → Prop
  | nil : OuterRead all [] all
  | cons {level : Level} {outer : List Level} {t : Token} {ts us : List Token}
      (kind : t.kind = .opening) (h : OuterRead all outer ts) (hlevel : level.ReadAt ts (t :: us)) :
      OuterRead all (level :: outer) us

/-- What has been read up to the place of an operand. -/
def Place.ReadAt (all : List Token) (p : Place) (rest : List Token) : Prop :=
  ∃ ts, OuterRead all p.outer ts ∧ p.level.ReadAt ts rest

/-- What has been read up to the end of an operand. -/
def Chain.ReadAt (all : List Token) (c : Chain) (rest : List Token) : Prop :=
  ∃ ts us, OuterRead all c.outer ts ∧ AlternativesRead ts us c.alternatives ∧
    Derives .conjunction us c.conjunction rest

theorem negate_not (count : Nat) (e : Expression) :
    negate count (.not e) = .not (negate count e) := by
  induction count with
  | zero => rfl
  | succ count ih => rw [negate, ih, negate]

private theorem derives_negate {count : Nat} {ts us rest : List Token} {e : Expression}
    (h : NegationsRead count ts us) (hoperand : Derives .operand us e rest) :
    Derives .operand ts (negate count e) rest := by
  induction h generalizing e with
  | zero => exact hoperand
  | next kind _ ih =>
    rw [negate, ← negate_not]
    exact ih (.not kind hoperand)

/-- An operand ends the conjunction before it. -/
theorem derives_conjunction {before : Option Expression} {ts us rest : List Token} {e : Expression}
    (h : OperandsRead ts us before) (hoperand : Derives .operand us e rest) :
    Derives .conjunction ts (joinTo .and before e) rest := by
  cases before with
  | none =>
    obtain rfl : ts = us := h
    exact .operand hoperand
  | some left =>
    rcases h with h | ⟨t, hkind, h⟩
    · exact .juxtaposed h hoperand
    · exact .and h hkind hoperand

/-- A conjunction ends the alternatives before it. -/
theorem derives_disjunction {before : Option Expression} {ts us rest : List Token} {e : Expression}
    (h : AlternativesRead ts us before) (hconjunction : Derives .conjunction us e rest) :
    Derives .disjunction ts (joinTo .or before e) rest := by
  cases before with
  | none =>
    obtain rfl : ts = us := h
    exact .conjunction hconjunction
  | some left =>
    obtain ⟨t, hkind, h⟩ := h
    exact .or h hkind hconjunction

/-- The end of an operand ends its negations and its conjunction. -/
theorem Place.ReadAt.readAt_ended {all ts rest : List Token} {p : Place} {e : Expression}
    (h : p.ReadAt all ts) (hprimary : Derives .primary ts e rest) :
    (p.ended e).ReadAt all rest := by
  obtain ⟨us, houter, vs, ws, halternatives, hoperands, hnegations⟩ := h
  exact ⟨us, vs, houter, halternatives,
    derives_conjunction hoperands (derives_negate hnegations (.primary hprimary))⟩

private theorem Chain.derives_of_readAt {all rest : List Token} {c : Chain}
    (h : c.ReadAt all rest) :
    ∃ ts, OuterRead all c.outer ts ∧ Derives .disjunction ts c.expression rest := by
  obtain ⟨ts, us, houter, halternatives, hconjunction⟩ := h
  exact ⟨ts, houter, derives_disjunction halternatives hconjunction⟩

namespace Progress

/-! ### Steps -/

/-- The tokens before `rest` have been read as the state of the progress says. -/
def ReadAt (all rest : List Token) : Progress → Prop
  | operand place => place.ReadAt all rest
  | literal role place => ∃ ts, place.ReadAt all ts ∧ role.ReadAt ts rest
  | part role s place =>
    ∃ ts us dot, place.ReadAt all ts ∧ role.ReadAt ts us ∧ s.ReadAt us (dot :: rest) ∧
      dot.kind = .dot ∧ dot.spaced = false ∧ s.isLabeled = false ∧ s.parts ≠ 3
  | spelling role s place =>
    ∃ ts us, place.ReadAt all ts ∧ role.ReadAt ts us ∧ s.ReadAt us rest
  | operator chain => chain.ReadAt all rest

variable {source : String} {maxDepth : Int} {all rest : List Token} {t : Token} {q : Progress}

theorem readAt_start : start.ReadAt all all :=
  ⟨all, .nil, all, all, rfl, rfl, .zero⟩

theorem eq_operand_of_enter {place : Place} (h : enter maxDepth t place = .ok q) :
    q = operand place := by
  rw [enter] at h
  split at h
  · cases h
  · cases h
    rfl

private theorem readAt_firstPart {place : Place} {ts : List Token} (role : Role)
    (h : place.ReadAt all ts)
    (hrole : role.ReadAt ts (t :: rest)) (hkind : TokenKind.literalPart.contains t.kind = true)
    (hstep : (do
      let s ← Spelling.addPart source {} t
      .ok (spelling role s place)) = Except.ok q) : q.ReadAt all rest := by
  obtain ⟨s, hs, hstep⟩ := Outcome.bind_eq_ok_iff.mp hstep
  cases hstep
  exact ⟨ts, t :: rest, h, hrole, Spelling.readAt_first hkind hs⟩

private theorem readAt_stepOperand {place : Place} (h : place.ReadAt all (t :: rest))
    (hstep : stepOperand source maxDepth place t = .ok q) : q.ReadAt all rest := by
  rw [stepOperand] at hstep
  split at hstep
  · next hkind =>
    obtain ⟨ts, houter, us, vs, halternatives, hoperands, hnegations⟩ := h
    rw [eq_operand_of_enter hstep]
    exact ⟨ts, houter, us, vs, halternatives, hoperands, .next hkind hnegations⟩
  · next hkind =>
    obtain ⟨ts, houter, hlevel⟩ := h
    rw [eq_operand_of_enter hstep]
    exact ⟨rest, .cons hkind houter hlevel, rest, rest, rfl, rfl, .zero⟩
  · next hkind =>
    split at hstep
    · next relation hsign =>
      cases hstep
      exact ⟨t :: rest, h, t, hkind, hsign, rfl⟩
    · cases hstep
  · next hkind =>
    cases hstep
    exact ⟨t :: rest, h, t, hkind, rfl⟩
  · next hkind =>
    cases hstep
    exact ⟨t :: rest, h, t, hkind, rfl⟩
  · next hkind => exact readAt_firstPart .plain h rfl (by rw [hkind]; rfl) hstep
  · next hkind => exact readAt_firstPart .plain h rfl (by rw [hkind]; rfl) hstep
  · cases hstep

private theorem readAt_stepOperator {chain : Chain} (h : chain.ReadAt all (t :: rest))
    (hstep : stepOperator source maxDepth chain t = .ok q) : q.ReadAt all rest := by
  rw [stepOperator] at hstep
  split at hstep
  · next hkind =>
    cases hstep
    obtain ⟨ts, houter, hdisjunction⟩ := chain.derives_of_readAt h
    exact ⟨ts, houter, rest, rest, ⟨t, hkind, hdisjunction⟩, rfl, .zero⟩
  · next hkind =>
    obtain ⟨ts, houter, hdisjunction⟩ := chain.derives_of_readAt h
    split at hstep
    · cases hstep
    · next level outer heq =>
      cases hstep
      rw [heq] at houter
      cases houter with
      | cons hopening houter hlevel =>
        exact Place.ReadAt.readAt_ended ⟨_, houter, hlevel⟩
          (.group hopening hdisjunction hkind)
  · obtain ⟨ts, us, houter, halternatives, hconjunction⟩ := h
    split at hstep
    · next hkind =>
      cases hstep
      exact ⟨ts, houter, us, rest, halternatives, .inr ⟨t, hkind, hconjunction⟩, .zero⟩
    · split at hstep
      · refine readAt_stepOperand ?_ hstep
        exact ⟨ts, houter, us, t :: rest, halternatives, .inl hconjunction, .zero⟩
      · split at hstep
        · cases hstep
        · cases hstep

private theorem readAt_stepBehind {role : Role} {l : Literal} {place : Place} {ts us : List Token}
    (h : place.ReadAt all ts) (hrole : role.ReadAt ts us) (hliteral : LiteralAt us l (t :: rest))
    (hstep : stepBehind source maxDepth role l place t = .ok q) : q.ReadAt all rest := by
  unfold stepBehind at hstep
  split at hstep
  · next hkind =>
    cases hstep
    obtain rfl : ts = us := hrole
    exact ⟨ts, h, t, hkind, hliteral⟩
  · exact readAt_stepOperator (h.readAt_ended (hrole.derives_of_readAt hliteral)) hstep

private theorem readAt_stepWithin {role : Role} {s : Spelling} {place : Place} {ts us : List Token}
    (h : place.ReadAt all ts) (hrole : role.ReadAt ts us) (hread : s.ReadAt us (t :: rest))
    (hspaced : t.spaced = false) (hmarked : IsMarked t)
    (hstep : stepWithin role s place t = .ok q) : q.ReadAt all rest := by
  rw [stepWithin] at hstep
  split at hstep
  · next hkind =>
    split at hstep
    · cases hstep
    · next hfree =>
      cases hstep
      rw [Bool.or_eq_true, not_or, Bool.not_eq_true, beq_iff_eq] at hfree
      exact ⟨ts, us, t, h, hrole, hread, hkind, hspaced, hfree⟩
  · next hkind =>
    obtain ⟨s', hs, hstep⟩ := Outcome.bind_eq_ok_iff.mp hstep
    cases hstep
    exact ⟨ts, us, h, hrole, hread.readAt_label hkind hspaced (hmarked hkind) hs⟩
  · cases hstep

/-- The end of the tokens ends a literal. -/
theorem detached_nil : Detached [] := nofun

/-- A token that white space separates from a literal, or that cannot continue it, ends it. -/
theorem detached_cons (h : (t.spaced || !t.kind.continuesLiteral) = true) :
    Detached (t :: rest) := by
  intro u hu hspaced
  obtain rfl : t = u := by simpa using hu
  rw [hspaced, Bool.false_or, Bool.not_eq_true', TokenKind.continuesLiteral] at h
  simpa using h

/-- One token more is read as the state of the progress says. -/
theorem readAt_step {p : Progress} (h : p.ReadAt all (t :: rest)) (hmarked : IsMarked t)
    (hstep : p.step source maxDepth t = .ok q) : q.ReadAt all rest := by
  cases p with
  | operand place => exact readAt_stepOperand h hstep
  | literal role place =>
    obtain ⟨ts, hplace, hrole⟩ := h
    rw [step] at hstep
    split at hstep
    · next hkind => exact readAt_firstPart role hplace hrole hkind hstep
    · cases hstep
  | part role s place =>
    obtain ⟨ts, us, dot, hplace, hrole, hread, hdot, hspaced, hlabeled, hparts⟩ := h
    rw [step] at hstep
    split at hstep
    · cases hstep
    · next hjoined =>
      split at hstep
      · cases hstep
      · next hwildcard =>
        obtain ⟨s', hs, hstep⟩ := Outcome.bind_eq_ok_iff.mp hstep
        cases hstep
        simp only [Bool.or_eq_true, Bool.not_eq_true', not_or, Bool.not_eq_true,
          Bool.not_eq_false] at hjoined
        simp only [Bool.and_eq_true, decide_eq_true_eq, not_and] at hwildcard
        exact ⟨ts, us, hplace, hrole, hread.readAt_next hlabeled hparts
          ⟨hdot, hspaced, hjoined.1⟩ hjoined.2 hwildcard hs⟩
  | spelling role s place =>
    obtain ⟨ts, us, hplace, hrole, hread⟩ := h
    rw [step] at hstep
    split at hstep
    · next hends =>
      obtain ⟨l, hl, hstep⟩ := Outcome.bind_eq_ok_iff.mp hstep
      have hliteral := hread.literalAt_of_readAt (detached_cons hends) hl
      exact readAt_stepBehind hplace hrole hliteral hstep
    · next hends =>
      rw [Bool.or_eq_true, not_or, Bool.not_eq_true] at hends
      exact readAt_stepWithin hplace hrole hread hends.1 hmarked hstep
  | operator chain => exact readAt_stepOperator h hstep

private theorem accepts_of_finishOperator {chain : Chain} {position : Nat} {e : Expression}
    (h : chain.ReadAt all []) (hfinish : finishOperator position chain = .ok e) :
    Accepts all e := by
  obtain ⟨ts, houter, hdisjunction⟩ := chain.derives_of_readAt h
  rw [finishOperator] at hfinish
  split at hfinish
  · next heq =>
    cases hfinish
    rw [heq] at houter
    cases houter
    exact hdisjunction
  · cases hfinish

/-- At the end of the text the tokens derive the expression that is read. -/
theorem accepts_of_finish {p : Progress} {position : Nat} {e : Expression} (h : p.ReadAt all [])
    (hfinish : p.finish source position = .ok e) : Accepts all e := by
  cases p with
  | operand place => cases hfinish
  | literal role place => cases hfinish
  | part role s place => cases hfinish
  | spelling role s place =>
    obtain ⟨ts, us, hplace, hrole, hread⟩ := h
    obtain ⟨l, hl, hfinish⟩ := Outcome.bind_eq_ok_iff.mp hfinish
    have hliteral := hread.literalAt_of_readAt (fun _ h ↦ nomatch h) hl
    exact accepts_of_finishOperator (hplace.readAt_ended (hrole.derives_of_readAt hliteral)) hfinish
  | operator chain => exact accepts_of_finishOperator h hfinish

/-- Read the tokens that are left, up to the end of the text. -/
def resume (source : String) (maxDepth : Int) (position : Nat) (p : Progress) (ts : List Token) :
    Except Failure Expression := do
  let q ← ts.foldlM (step source maxDepth) p
  q.finish source position

theorem resume_cons {position : Nat} {p : Progress} {ts : List Token} :
    resume source maxDepth position p (t :: ts) =
      p.step source maxDepth t >>= fun q ↦ resume source maxDepth position q ts := by
  rw [resume, List.foldlM_cons]
  cases p.step source maxDepth t <;> rfl

theorem resume_append_eq_ok_iff {position : Nat} {p : Progress} {before behind : List Token}
    {e : Expression} :
    resume source maxDepth position p (before ++ behind) = .ok e ↔
      ∃ q, before.foldlM (step source maxDepth) p = .ok q ∧
        resume source maxDepth position q behind = .ok e := by
  simp only [resume, List.foldlM_append, bind_assoc, Outcome.bind_eq_ok_iff]

/-- Tokens that are read to the end derive the expression that is read. -/
theorem accepts_of_resume {p : Progress} {position : Nat} {e : Expression} (h : p.ReadAt all rest)
    (hmarked : ∀ t ∈ rest, IsMarked t) (hrun : resume source maxDepth position p rest = .ok e) :
    Accepts all e := by
  induction rest generalizing p with
  | nil => exact accepts_of_finish h hrun
  | cons t rest ih =>
    rw [resume_cons] at hrun
    obtain ⟨p', hstep, hrun⟩ := Outcome.bind_eq_ok_iff.mp hrun
    rw [List.forall_mem_cons] at hmarked
    exact ih (readAt_step h hmarked.1 hstep) hmarked.2 hrun

end Progress

end VersionRange
