import VersionRange.Proofs.Coverage
import VersionRange.Proofs.Depth
import VersionRange.Proofs.ExpressionText

/-!
# Reading what was written

What was read within a limit on depth is not always read again from its canonical text within the
same limit: a negation is written in front of parentheses, and the sign `!=` and a range that
admits nothing are written as negations. Without negations the limit stays; with them it has to
grow by one for each that stands within another, and by two for the outermost.
-/

namespace VersionRange

open Grammar

/-! ### The depth of texts -/

namespace Grammar.Nesting

/-- The nesting behind a character of a text. White space leaves it as it is. -/
def readChar (n : Nesting) (c : Char) : Nesting :=
  if Text.isBlank c then n
  else if c = '!' then n.read .not
  else if c = '(' then n.read .opening
  else if c = ')' then n.read .closing
  else { groups := n.groups }

/-- The greatest depth within a text. -/
def deepestIn (n : Nesting) : List Char → Nat
  | [] => n.depth
  | c :: cs => max n.depth (deepestIn (n.readChar c) cs)

/-- A character that neither separates tokens nor opens or closes anything. -/
def IsInert (c : Char) : Prop := Text.isBlank c = false ∧ c ∉ ['!', '(', ')']

private theorem isInert_of_toNat {c : Char} (hlow : 0x2A ≤ c.toNat) (hhigh : c.toNat < 0x80) :
    IsInert c := by
  refine ⟨Text.isBlank_of_toNat (by omega) hhigh, ?_⟩
  simp only [List.mem_cons, List.not_mem_nil, or_false]
  rintro (rfl | rfl | rfl) <;> exact absurd hlow (by decide)

private theorem isInert_of_isVersionChar {c : Char} (h : Text.isVersionChar c = true) :
    IsInert c := by
  obtain ⟨hlow, hhigh⟩ := Text.toNat_of_isVersionChar h
  exact isInert_of_toNat (by omega) (by omega)

private theorem readChar_of_isInert {c : Char} (n : Nesting) (h : IsInert c) :
    n.readChar c = { groups := n.groups } := by
  obtain ⟨hblank, hother⟩ := h
  simp only [List.mem_cons, List.not_mem_nil, or_false, not_or] at hother
  simp only [readChar, hblank, hother, Bool.false_eq_true, if_false]

private theorem foldl_readChar_of_isInert {cs : List Char} (n : Nesting) (hne : cs ≠ [])
    (h : ∀ c ∈ cs, IsInert c) : cs.foldl readChar n = { groups := n.groups } := by
  induction cs generalizing n with
  | nil => exact absurd rfl hne
  | cons c cs ih =>
    rw [List.forall_mem_cons] at h
    rw [List.foldl_cons, n.readChar_of_isInert h.1]
    cases cs with
    | nil => rfl
    | cons d ds => exact ih _ nofun h.2

/-- The characters of a token change the nesting as the token does. -/
theorem foldl_readChar_of_begins {previous : Option TokenKind} {c : Char} {rest : List Char}
    {kind : TokenKind} {more : Nat} (n : Nesting) (h : Begins previous c rest kind more) :
    (c :: rest.take more).foldl readChar n = n.read kind := by
  have hrow {inside : Char → Bool} (h : ∀ d, inside d = true → Text.isVersionChar d = true)
      (hc : Text.isVersionChar c = true) :
      (c :: rest.take (rest.takeWhile inside).length).foldl readChar n =
        { groups := n.groups } := by
    refine n.foldl_readChar_of_isInert nofun fun d hd ↦ isInert_of_isVersionChar ?_
    rw [← List.prefix_iff_eq_take.mp (List.takeWhile_prefix inside)] at hd
    rcases List.mem_cons.mp hd with rfl | hd
    · exact hc
    · exact h d (List.all_eq_true.mp List.all_takeWhile d hd)
  have hdigit {d : Char} (hd : d.isDigit = true) : Text.isVersionChar d = true := by
    simp [Text.isVersionChar, isIdentifierChar, Char.isAlphanum, hd]
  cases h with
  | number hc => exact hrow (fun _ ↦ hdigit) (hdigit hc)
  | label hbegins =>
    refine hrow (fun d hd ↦ ?_) ?_
    · rw [Text.isVersionChar]
      exact Bool.or_eq_true_iff.mpr (.inl hd)
    · rcases mark_of_beginsLabel hbegins with rfl | rfl <;> decide
  | hyphen hc =>
    subst hc
    rfl
  | letter hc => rcases hc with rfl | rfl <;> rfl
  | pair hd hpair =>
    obtain ⟨tail, rfl⟩ := List.head?_eq_some_iff.mp hd
    unfold pairKind? at hpair
    split at hpair <;> cases hpair <;> rfl
  | single hsingle =>
    unfold singleKind? at hsingle
    split at hsingle <;> cases hsingle <;> rfl

private theorem depth_le_deepestIn (n : Nesting) (cs : List Char) : n.depth ≤ n.deepestIn cs := by
  cases cs with
  | nil => exact Nat.le_refl _
  | cons c cs => exact Nat.le_max_left ..

private theorem deepestIn_foldl_le (n : Nesting) (cs ds : List Char) :
    (cs.foldl readChar n).deepestIn ds ≤ n.deepestIn (cs ++ ds) := by
  induction cs generalizing n with
  | nil => exact Nat.le_refl _
  | cons c cs ih =>
    rw [List.foldl_cons, List.cons_append, deepestIn]
    exact Nat.le_trans (ih (n.readChar c)) (Nat.le_max_right ..)

private theorem foldl_readChar_of_isBlank {gap : List Char} (n : Nesting)
    (h : ∀ c ∈ gap, Text.isBlank c = true) : gap.foldl readChar n = n := by
  induction gap with
  | nil => rfl
  | cons c gap ih =>
    rw [List.forall_mem_cons] at h
    have hc : n.readChar c = n := if_pos h.1
    rw [List.foldl_cons, hc, ih h.2]

/-- The tokens of a text open no more than its characters do. -/
theorem deepest_tokens_le (n : Nesting) (position : Nat) (previous : Option TokenKind)
    (cs : List Char) :
    n.deepest (Tokenization.ofCharsFrom position previous cs).tokens ≤ n.deepestIn cs := by
  fun_induction Tokenization.ofCharsFrom position previous cs generalizing n with
  | case1 => exact n.depth_le_deepestIn _
  | case2 => exact n.depth_le_deepestIn _
  | case3 position previous cs token rest hscan tail ih =>
    obtain ⟨gap, c, more, count, rfl, hgap, -, hclass, htoken, rfl⟩ := scan_eq_token_iff.mp hscan
    have hbefore := n.depth_le_deepestIn (gap ++ c :: more)
    have hbehind := n.deepestIn_foldl_le (gap ++ c :: more.take count) (more.drop count)
    rw [List.foldl_append, n.foldl_readChar_of_isBlank hgap,
      n.foldl_readChar_of_begins (begins_of_classify? hclass), List.append_assoc, List.cons_append,
      List.take_append_drop] at hbehind
    exact Nat.max_le.mpr ⟨hbefore, Nat.le_trans (ih _) hbehind⟩

/-- White space and characters that open and close nothing change nothing in a group. -/
theorem deepestIn_append_of_isInert {groups : List Nat} {cs : List Char} (rest : List Char)
    (h : ∀ c ∈ cs, IsInert c ∨ Text.isBlank c = true) :
    deepestIn { groups } (cs ++ rest) = deepestIn { groups } rest := by
  induction cs with
  | nil => rfl
  | cons c cs ih =>
    rw [List.forall_mem_cons] at h
    have hread : readChar { groups } c = { groups } := by
      rcases h.1 with hc | hc
      · exact readChar_of_isInert _ hc
      · exact if_pos hc
    have := depth_le_deepestIn { groups } rest
    rw [List.cons_append, deepestIn, hread, ih h.2]
    omega

private theorem deepestIn_cons_of_isInert {c : Char} {cs : List Char} (n : Nesting)
    (rest : List Char) (hc : IsInert c) (h : ∀ d ∈ cs, IsInert d ∨ Text.isBlank d = true) :
    n.deepestIn (c :: (cs ++ rest)) = max n.depth (deepestIn { groups := n.groups } rest) := by
  rw [deepestIn, n.readChar_of_isInert hc, deepestIn_append_of_isInert rest h]

private theorem deepestIn_not (n : Nesting) (rest : List Char) :
    n.deepestIn ('!' :: rest) = max n.depth (deepestIn (n.read .not) rest) := rfl

private theorem deepestIn_opening (n : Nesting) (rest : List Char) :
    n.deepestIn ('(' :: rest) =
      max n.depth (deepestIn { groups := n.negations :: n.groups } rest) := rfl

private theorem deepestIn_closing (n : Nesting) (rest : List Char) :
    deepestIn { groups := n.negations :: n.groups } (')' :: rest) =
      max (n.depth + 1) (deepestIn { groups := n.groups } rest) := by
  rw [deepestIn, n.depth_opened]
  rfl

end Grammar.Nesting

/-! ### The depth of written expressions -/

namespace Formula

variable {α : Type}

/-- How deep the text of a formula nests. A negation stands in front of parentheses, and so nests
twice. -/
def textDepth : Formula α → Nat
  | leaf _ => 0
  | and left right => max (conjunct left (textDepth left)) (conjunct right (textDepth right))
  | or left right => max (textDepth left) (textDepth right)
  | not inner => textDepth inner + 2
where
  /-- How deep the text of an operand of a conjunction nests. -/
  conjunct (f : Formula α) (depth : Nat) : Nat :=
    match f with
    | or _ _ => depth + 1
    | _ => depth

/-- How many negations of a formula stand within each other. -/
def negationDepth : Formula α → Nat
  | leaf _ => 0
  | and left right => max (negationDepth left) (negationDepth right)
  | or left right => max (negationDepth left) (negationDepth right)
  | not inner => negationDepth inner + 1

end Formula

namespace Expression

open Nesting

/-- How deep the text of an operand of a conjunction nests. -/
def operandDepth (e : Expression) : Nat := Formula.textDepth.conjunct e e.textDepth

private theorem isInert_of_mem_boundChars {comparator : Comparator} {v : Version} {c : Char}
    (h : c ∈ Constraint.boundChars comparator v) : IsInert c := by
  rcases List.mem_append.mp h with h | h
  · have hsign : ∀ d ∈ comparator.symbol.toList, 0x2A ≤ d.toNat ∧ d.toNat < 0x80 := by
      cases comparator <;> simp [Comparator.symbol]
    exact isInert_of_toNat (hsign c h).1 (hsign c h).2
  · exact isInert_of_isVersionChar (v.isVersionChar_of_mem_chars h)

private theorem exists_boundChars_eq_cons (comparator : Comparator) (v : Version) :
    ∃ c cs, Constraint.boundChars comparator v = c :: cs := by
  refine List.exists_cons_of_ne_nil fun h ↦ v.chars_ne_nil ?_
  exact (List.append_eq_nil_iff.mp h).2

/-- The text of a constraint opens nothing. -/
theorem deepestIn_constraint (c : Constraint) (n : Nesting) (rest : List Char) :
    n.deepestIn (c.chars ++ rest) = max n.depth (deepestIn { groups := n.groups } rest) := by
  have hinert : ∀ d ∈ c.chars, IsInert d ∨ Text.isBlank d = true := by
    intro d hd
    cases c with
    | bound => exact .inl (isInert_of_mem_boundChars hd)
    | interval =>
      rw [Constraint.chars, List.mem_append, List.mem_cons] at hd
      rcases hd with hd | rfl | hd
      · exact .inl (isInert_of_mem_boundChars hd)
      · exact .inr rfl
      · exact .inl (isInert_of_mem_boundChars hd)
  obtain ⟨d, ds, hchars, hd⟩ : ∃ d ds, c.chars = d :: ds ∧ IsInert d := by
    cases c with
    | bound comparator v =>
      obtain ⟨d, ds, hcons⟩ := exists_boundChars_eq_cons comparator v
      exact ⟨d, ds, hcons, isInert_of_mem_boundChars (by rw [hcons]; exact List.mem_cons_self)⟩
    | interval lower upper inclusive =>
      obtain ⟨d, ds, hcons⟩ := exists_boundChars_eq_cons (Constraint.lowerComparator inclusive) lower
      refine ⟨d, _, by rw [Constraint.chars, hcons]; rfl, ?_⟩
      exact isInert_of_mem_boundChars (by rw [hcons]; exact List.mem_cons_self)
  rw [hchars] at hinert ⊢
  exact n.deepestIn_cons_of_isInert rest hd fun u hu ↦ hinert u (List.mem_cons_of_mem d hu)

private theorem operandDepth_eq_textDepth {e : Expression} (h : ∀ left right, e ≠ .or left right) :
    e.operandDepth = e.textDepth := by
  cases e with
  | or left right => exact absurd rfl (h left right)
  | leaf | and | not => rfl

/-- A text in front of others opens at most `depth` below what is open before it, and leaves the
groups open that are open there. -/
def NestsWithin (text : List Char → List Char) (depth : Nat) : Prop :=
  ∀ (n : Nesting) (rest : List Char),
    n.deepestIn (text rest) ≤ max (n.depth + depth) (deepestIn { groups := n.groups } rest)

variable {text text' : List Char → List Char} {d d' : Nat}

private theorem NestsWithin.parenthesized (h : NestsWithin text d) :
    NestsWithin (Formula.parenthesized text) (d + 1) := by
  intro n rest
  have hinner := h { groups := n.negations :: n.groups } (')' :: rest)
  rw [n.depth_opened, n.deepestIn_closing] at hinner
  change n.deepestIn ('(' :: text (')' :: rest)) ≤ _
  rw [n.deepestIn_opening]
  omega

/-- Texts with a sign or white space between them nest as deep as the deeper one of them. -/
theorem NestsWithin.append (h : NestsWithin text d) (sign : List Char)
    (hsign : ∀ c ∈ sign, IsInert c ∨ Text.isBlank c = true) (h' : NestsWithin text' d') :
    NestsWithin (fun rest ↦ text (sign ++ text' rest)) (max d d') := by
  intro n rest
  have hleft := h n (sign ++ text' rest)
  have hright : _ ≤ max _ (deepestIn { groups := n.groups } rest) := h' { groups := n.groups } rest
  have := n.depth_groups_le
  rw [deepestIn_append_of_isInert _ hsign] at hleft
  change n.deepestIn (text (sign ++ text' rest)) ≤ _
  omega

private theorem NestsWithin.not (h : NestsWithin text d) :
    NestsWithin (fun rest ↦ '!' :: Formula.parenthesized text rest) (d + 2) := by
  intro n rest
  have hread := n.depth_read_not
  have hgroup : _ ≤ max _ (deepestIn { groups := n.groups } rest) :=
    h.parenthesized (n.read .not) rest
  rw [deepestIn_not]
  omega

/-- The text of an expression nests as deep as the expression does. -/
theorem nestsWithin (e : Expression) :
    NestsWithin e.operandOnto e.operandDepth ∧ NestsWithin e.charsOnto e.textDepth := by
  refine chain_induction (C := fun e ↦ NestsWithin e.operandOnto e.operandDepth)
    (D := fun e ↦ NestsWithin e.charsOnto e.textDepth) ?_ ?_ ?_ ?_ ?_ ?_ e
  · intro c n rest
    exact Nat.le_of_eq (deepestIn_constraint c n rest)
  · intro left right hleft hright
    refine hleft.append [' '] (fun c hc ↦ .inr ?_) hright
    rw [List.mem_singleton.mp hc]
    rfl
  · intro left right hleft hright
    refine hleft.append [' ', '|', '|', ' '] (fun c hc ↦ ?_) hright
    have hbar : IsInert '|' := isInert_of_toNat (by decide) (by decide)
    simp only [List.mem_cons, List.not_mem_nil, or_false] at hc
    rcases hc with rfl | rfl | rfl | rfl
    · exact .inr rfl
    · exact .inl hbar
    · exact .inl hbar
    · exact .inr rfl
  · exact fun left right h ↦ h.parenthesized
  · exact fun inner h ↦ h.not
  · intro e he h
    rw [operandOnto_eq_charsOnto he, operandDepth_eq_textDepth he] at h
    exact h

/-- The tokens of the text of an expression nest no deeper than the expression. -/
theorem nesting_chars_le (e : Expression) :
    nesting (Tokenization.ofChars e.chars).tokens ≤ e.textDepth := by
  have htext : e.chars = e.charsOnto [] := rfl
  have hnests := (nestsWithin e).2 {} []
  have htokens := Nesting.deepest_tokens_le {} 0 .none (e.charsOnto [])
  change _ ≤ max (0 + e.textDepth) 0 at hnests
  rw [nesting, Tokenization.ofChars, htext]
  omega

/-! ### The depth of expressions that were read -/

/-- How much deeper the text of an expression may nest than the text from which it was read: a
negation may come from a sign that opens nothing, and every one around it counts once more. -/
def excess (e : Expression) : Nat := if e.negationDepth = 0 then 0 else e.negationDepth + 1

/-- A range form is one constraint, or its negation. -/
inductive IsSimple : Expression → Prop
  | leaf (c : Constraint) : IsSimple (.leaf c)
  | not (c : Constraint) : IsSimple (.not (.leaf c))

private theorem isSimple_wildcard (l : Literal) : IsSimple l.wildcard := by
  cases l <;> exact .leaf _

private theorem isSimple_caret (l : Literal) : IsSimple l.caret := by
  cases l with
  | any => exact .leaf _
  | upToMajor major => exact .leaf _
  | upToMinor major minor => exact .leaf _
  | full v => exact .leaf _

private theorem isSimple_tilde (l : Literal) : IsSimple l.tilde := by
  cases l <;> exact .leaf _

private theorem isSimple_hyphen (lower upper : Literal) : IsSimple (lower.hyphen upper) := by
  cases lower <;> cases upper <;> exact .leaf _

private theorem isSimple_comparison (relation : Relation) (l : Literal) :
    IsSimple (l.comparison relation) := by
  cases relation with
  | isNot => cases l <;> exact .not _
  | is comparator =>
    cases l with
    | any => cases comparator <;> first | exact .leaf _ | exact .not _
    | upToMajor => cases comparator <;> exact .leaf _
    | upToMinor => cases comparator <;> exact .leaf _
    | full => cases comparator <;> exact .leaf _

/-- The tokens before which a nesting stands open enough for an expression of some depth and its
negations. -/
structure Fits (n : Nesting) (ts : List Token) (depth : Nat) (e : Expression) : Prop where
  depth_le : depth + n.depth ≤ n.deepest ts + e.excess
  negations_le : e.negationDepth + n.depth ≤ n.deepest ts + 1

/-- The tokens of a phrase open enough for its expression, at any place where it may stand. -/
def OpensFor (ts : List Token) (e : Expression) : Phrase → Prop
  | .primary | .operand => ∀ n : Nesting, Fits n ts e.operandDepth e
  | .conjunction => ∀ groups : List Nat, Fits { groups } ts e.operandDepth e
  | .disjunction => ∀ groups : List Nat, Fits { groups } ts e.textDepth e

private theorem IsSimple.opensFor {e : Expression} (h : IsSimple e) (ts : List Token) :
    OpensFor ts e .primary := by
  intro n
  have := n.depth_le_deepest ts
  cases h with
  | leaf c =>
    change n.depth ≤ _ at this
    refine ⟨?_, ?_⟩
    · change 0 + n.depth ≤ _ + 0
      omega
    · change 0 + n.depth ≤ _
      omega
  | not c =>
    refine ⟨?_, ?_⟩
    · change 2 + n.depth ≤ _ + 2
      omega
    · change 1 + n.depth ≤ _
      omega

private theorem operandDepth_le (e : Expression) : e.operandDepth ≤ e.textDepth + 1 := by
  cases e with
  | or left right => exact Nat.le_refl _
  | leaf | and | not => exact Nat.le_succ _

private theorem textDepth_le (e : Expression) : e.textDepth ≤ e.operandDepth := by
  cases e with
  | or left right => exact Nat.le_succ _
  | leaf | and | not => exact Nat.le_refl _

/-- An expression fits behind two parts of tokens if its operands do. -/
theorem Fits.join {n : Nesting} {ts us : List Token} {left right e : Expression} {d d' : Nat}
    (hleft : Fits n ts d left) (hright : Fits n us d' right) (hle : n.deepest us ≤ n.deepest ts)
    (he : e.negationDepth = max left.negationDepth right.negationDepth) :
    Fits n ts (max d d') e := by
  obtain ⟨hdepth, hnegations⟩ := hleft
  obtain ⟨hdepth', hnegations'⟩ := hright
  rw [excess] at hdepth hdepth'
  refine ⟨?_, by omega⟩
  rw [excess]
  split at hdepth <;> split at hdepth' <;> split <;> omega

/-- Parentheses open as much as they may show around an expression. -/
theorem Fits.group {n : Nesting} {opening : Token} {ts : List Token} {e : Expression}
    (h : Fits { groups := n.negations :: n.groups } ts e.textDepth e)
    (hopening : opening.kind = .opening) : Fits n (opening :: ts) e.operandDepth e := by
  obtain ⟨hdepth, hnegations⟩ := h
  have hoperand := operandDepth_le e
  have hopened := n.deepest_opening ts hopening
  rw [n.depth_opened] at hdepth hnegations
  exact ⟨by omega, by omega⟩

/-- A negation opens one level, and shows two. -/
theorem Fits.not {n : Nesting} {sign : Token} {ts : List Token} {e : Expression}
    (h : Fits (n.read .not) ts e.operandDepth e) (hsign : sign.kind = .not) :
    Fits n (sign :: ts) (operandDepth (.not e)) (.not e) := by
  obtain ⟨hdepth, hnegations⟩ := h
  have hread := n.depth_read_not
  have hopened := n.deepest_not ts hsign
  have htext := textDepth_le e
  have hshown : operandDepth (.not e) = e.textDepth + 2 := rfl
  have hnegation : Formula.negationDepth (.not e) = e.negationDepth + 1 := rfl
  rw [excess] at hdepth
  refine ⟨?_, by omega⟩
  rw [excess, hnegation, if_neg (by omega)]
  split at hdepth <;> omega

/-- The tokens of every phrase open enough for its expression. -/
theorem opensFor_of_derives {phrase : Phrase} {ts rest : List Token} {e : Expression}
    (h : Derives phrase ts e rest) : OpensFor ts e phrase := by
  induction h with
  | group hopening _ _ ih => exact fun n ↦ (ih (n.negations :: n.groups)).group hopening
  | comparison => exact (isSimple_comparison _ _).opensFor _
  | caret => exact (isSimple_caret _).opensFor _
  | tilde => exact (isSimple_tilde _).opensFor _
  | plain => exact (isSimple_wildcard _).opensFor _
  | hyphen => exact (isSimple_hyphen _ _).opensFor _
  | primary _ ih => exact ih
  | not hkind _ ih => exact fun n ↦ (ih (n.read .not)).not hkind
  | operand _ ih => exact fun groups ↦ ih { groups }
  | juxtaposed hleft _ ihleft ihright =>
    exact fun groups ↦ (ihleft groups).join (ihright { groups }) (hleft.deepest_le groups) rfl
  | and hleft hkind _ ihleft ihright =>
    intro groups
    refine (ihleft groups).join (ihright { groups }) ?_ rfl
    refine Nat.le_trans ?_ (hleft.deepest_le groups)
    rw [deepest_cons_other _ _ (by simp [hkind])]
    exact Nat.le_max_right ..
  | conjunction _ ih =>
    intro groups
    obtain ⟨hdepth, hnegations⟩ := ih groups
    exact ⟨Nat.le_trans (Nat.add_le_add_right (textDepth_le _) _) hdepth, hnegations⟩
  | or hleft hkind _ ihleft ihright =>
    intro groups
    obtain ⟨hdepth, hnegations⟩ := ihright groups
    refine (ihleft groups).join ⟨?_, hnegations⟩ ?_ rfl
    · exact Nat.le_trans (Nat.add_le_add_right (textDepth_le _) _) hdepth
    · refine Nat.le_trans ?_ (hleft.deepest_le groups)
      rw [deepest_cons_other _ _ (by simp [hkind])]
      exact Nat.le_max_right ..

/-- The text of an expression that was read nests deeper than the text from which it was read by
no more than its excess, which is at most two more than the nesting of that text. -/
theorem textDepth_le_of_accepts {ts : List Token} {e : Expression} (h : Accepts ts e) :
    e.textDepth ≤ nesting ts + e.excess ∧ e.negationDepth ≤ nesting ts + 1 := by
  obtain ⟨hdepth, hnegations⟩ := opensFor_of_derives h []
  exact ⟨hdepth, hnegations⟩

/-! ### Reading again -/

/-- What was read within a limit on depth is read again from its canonical text, if it can be
written, within a limit that is greater by the excess of the expression: the same limit if no
negation stands in it, and at most two more than twice the limit otherwise. -/
theorem parse_written_of_parse {text written : String} {limits : Limits} {e : Expression}
    (hread : parse text limits = .ok e) (hwrite : e.write = .ok written) :
    (e.excess : Int) ≤ max limits.maxDepth 0 + 2 ∧
      ∀ limits' : Limits, written.toList.length ≤ limits'.maxInputLength →
        max limits.maxDepth 0 + e.excess ≤ max limits'.maxDepth 0 →
        ∃ e', parse written limits' = .ok e' ∧ (∀ v, admits e' v = admits e v) ∧
          e'.write = .ok written := by
  obtain ⟨-, hnesting, -, -, haccepts⟩ := parse_eq_ok_iff.mp hread
  obtain ⟨htext, hnegations⟩ := textDepth_le_of_accepts haccepts
  obtain ⟨hwritable, rfl⟩ : e.all Constraint.isWritable = true ∧ written = .ofList e.chars := by
    rw [write, ifWritable] at hwrite
    split at hwrite
    · next hwritable =>
      cases hwrite
      exact ⟨hwritable, rfl⟩
    · cases hwrite
  refine ⟨?_, fun limits' hlength hdepth ↦ ?_⟩
  · rw [excess]
    split <;> omega
  · have hchars := nesting_chars_le e
    obtain ⟨⟨position, hstop⟩, hshort, hshown⟩ := accepts_shown e hwritable
    refine ⟨shown e, ?_, admits_shown e, ?_⟩
    · rw [parse_eq_ok_iff, String.toList_ofList] at *
      exact ⟨hlength, by omega, hshort, ⟨position, false, hstop⟩, hshown⟩
    · rw [write_eq_ok (by rw [isWritable_shown, hwritable]), chars_shown]

/-- A negation of the sign `!=`, read within a limit of one, is written as two negations of
parentheses and read again within a limit of four. -/
theorem parse_written_of_parse_double_negation :
    let e : Expression := .not (.not (between ⟨1, 0, 0, [], []⟩ (.lowest 2 0 0)))
    let written := "!(!(>=1.0.0 <2.0.0-0))"
    parse "!!=1" { maxDepth := 1 } = .ok e ∧ e.write = .ok written ∧
      written.toList.length ≤ (1024 : Int) ∧ max 1 0 + e.excess ≤ max (4 : Int) 0 ∧
      ∃ e', parse written { maxDepth := 4 } = .ok e' ∧ (∀ v, admits e' v = admits e v) ∧
        e'.write = .ok written := by
  intro e written
  have hread : parse "!!=1" { maxDepth := 1 } = .ok e := by
    rw [← Outcome.toOption_eq_some_iff]
    decide +kernel
  have hwrite : e.write = .ok written := by
    rw [← Outcome.toOption_eq_some_iff]
    decide +kernel
  have hlength : written.toList.length ≤ (1024 : Int) := by decide
  have hdepth : max 1 0 + e.excess ≤ max (4 : Int) 0 := by decide
  exact ⟨hread, hwrite, hlength, hdepth,
    (parse_written_of_parse hread hwrite).2 { maxDepth := 4 } hlength hdepth⟩

/-- The sign `!=` opens nothing and is written as a negation of parentheses, which open two levels:
within a limit of one the sign is read, but the text of what it means is refused, however long it
may be. -/
theorem refused_written_notEqual :
    let e : Expression := .not (between ⟨1, 0, 0, [], []⟩ (.lowest 2 0 0))
    parse "!=1" { maxDepth := 1 } = .ok e ∧ e.write = .ok "!(>=1.0.0 <2.0.0-0)" ∧
      ∀ (maxInputLength : Int) (e' : Expression),
        parse "!(>=1.0.0 <2.0.0-0)" { maxInputLength, maxDepth := 1 } ≠ .ok e' := by
  refine ⟨?_, ?_, fun maxInputLength e' h ↦ ?_⟩
  · rw [← Outcome.toOption_eq_some_iff]
    decide +kernel
  · rw [← Outcome.toOption_eq_some_iff]
    decide +kernel
  · obtain ⟨-, hnesting, -⟩ := parse_eq_ok_iff.mp h
    have htwo : nesting (Tokenization.ofChars "!(>=1.0.0 <2.0.0-0)".toList).tokens = 2 := by
      decide +kernel
    rw [htwo] at hnesting
    change (2 : Int) ≤ max 1 0 at hnesting
    exact absurd hnesting (by decide)

end Expression

end VersionRange
