import Mathlib.Data.Set.Card
import VersionRange.Proofs.Depth

/-!
# What the limit on depth refuses

The nesting of a group or a negation counts the groups and the negations that contain it, and
itself. It is the depth at which the reader stands behind the token that opens it, so that a limit
on depth refuses exactly what nests deeper, and names the first token that does. Groups and
negations that have ended before a token do not count for it.
-/

namespace VersionRange

namespace Grammar

/-- A token opens a negation or a group. -/
def Opens (t : Token) : Prop := t.kind = .not ∨ t.kind = .opening

/-- The negation or the group that begins with token `j` contains token `i` behind it: it has not
ended before that token. -/
def Contains (ts : List Token) (j i : Nat) : Prop :=
  j < i ∧ (∃ t, ts[j]? = some t ∧ Opens t) ∧
    ∃ e rest, Derives .operand (ts.drop j) e rest ∧ rest.length + i < ts.length

/-- The nesting of a negation or a group that begins with token `i`: one, and one for each negation
or group that contains it. -/
noncomputable def nestingAt (ts : List Token) (i : Nat) : Nat := {j | Contains ts j i}.ncard + 1

/-- No negation or group nests beyond a bound. -/
def NestingsWithin (bound : Int) (ts : List Token) : Prop :=
  ∀ i t, ts[i]? = some t → Opens t → nestingAt ts i ≤ bound

/-- Token `i` is the first negation or group that nests beyond a bound. -/
def FirstBeyond (bound : Int) (ts : List Token) (i : Nat) (t : Token) : Prop :=
  ts[i]? = some t ∧ Opens t ∧ bound < nestingAt ts i ∧
    ∀ k < i, ∀ u, ts[k]? = some u → Opens u → nestingAt ts k ≤ bound

private theorem Opens.of_not_other {t : Token} (h : Opens t) :
    ¬ t.kind ∉ [.not, .opening, .closing] := by
  rcases h with h | h <;> simp [h]

/-! ### Depth behind some tokens -/

namespace Nesting

variable {t : Token} {ts : List Token} {n : Nesting}

/-- The nesting behind some tokens. -/
def readAll (n : Nesting) (ts : List Token) : Nesting := ts.foldl (fun n t ↦ n.read t.kind) n

@[simp]
theorem readAll_nil (n : Nesting) : n.readAll [] = n := rfl

@[simp]
theorem readAll_cons (n : Nesting) (t : Token) (ts : List Token) :
    n.readAll (t :: ts) = (n.read t.kind).readAll ts := rfl

@[simp]
theorem readAll_append (n : Nesting) (ts us : List Token) :
    n.readAll (ts ++ us) = (n.readAll ts).readAll us :=
  List.foldl_append

private theorem depth_read_opens (n : Nesting) (h : Opens t) :
    (n.read t.kind).depth = n.depth + 1 := by
  rcases h with h | h
  · rw [h]
    exact n.depth_read_not
  · rw [h]
    exact n.depth_opened

private theorem depth_read_le_of_not_opens (n : Nesting) (h : ¬ Opens t) :
    (n.read t.kind).depth ≤ n.depth :=
  n.depth_read_le (by simpa [Opens, not_or] using h)

/-- Tokens open no more than a bound if none of the tokens that open something does. -/
theorem deepest_le_iff {bound : Int} (hn : n.depth ≤ bound) :
    n.deepest ts ≤ bound ↔
      ∀ i t, ts[i]? = some t → Opens t → ((n.readAll (ts.take i)).depth + 1 : Nat) ≤ bound := by
  induction ts generalizing n with
  | nil => simpa [deepest] using hn
  | cons t ts ih =>
    have hcons : n.deepest (t :: ts) ≤ bound ↔ (n.read t.kind).deepest ts ≤ bound := by
      rw [deepest]
      omega
    rw [hcons]
    have hread := depth_le_deepest (n.read t.kind) ts
    constructor
    · intro h i u hi hopens
      cases i with
      | zero =>
        obtain rfl : t = u := by simpa using hi
        have := n.depth_read_opens hopens
        rw [List.take_zero, readAll_nil]
        omega
      | succ i => exact (ih (by omega)).mp h i u (by simpa using hi) hopens
    · intro h
      have hhead : (n.read t.kind).depth ≤ bound := by
        by_cases hopens : Opens t
        · have := h 0 t rfl hopens
          rw [List.take_zero, readAll_nil] at this
          rwa [n.depth_read_opens hopens]
        · have := n.depth_read_le_of_not_opens hopens
          omega
      exact (ih hhead).mpr fun i u hi hopens ↦ h (i + 1) u hi hopens

private theorem depth_readAll_le (n : Nesting) (h : ∀ t ∈ ts, ¬ Opens t) :
    (n.readAll ts).depth ≤ n.depth := by
  induction ts generalizing n with
  | nil => exact Nat.le_refl _
  | cons t ts ih =>
    rw [List.forall_mem_cons] at h
    exact (ih (n.read t.kind) h.2).trans (n.depth_read_le_of_not_opens h.1)

/-- Tokens that open and close nothing leave the groups open. -/
theorem readAll_of_other (hne : ts ≠ []) (h : ∀ t ∈ ts, t.kind ∉ [.not, .opening, .closing]) :
    n.readAll ts = { groups := n.groups } := by
  induction ts generalizing n with
  | nil => exact absurd rfl hne
  | cons t ts ih =>
    rw [List.forall_mem_cons] at h
    rw [readAll_cons, n.read_eq h.1]
    by_cases hts : ts = []
    · rw [hts, readAll_nil]
    · exact ih hts h.2

end Nesting

open Nesting

variable {pre post ts rest : List Token} {phrase : Phrase} {e : Expression} {n : Nesting}
  {groups : List Nat} {t : Token} {i j : Nat}

/-- What contains a token still does so behind other tokens. -/
theorem Contains.append (h : Contains ts j i) (pre : List Token) :
    Contains (pre ++ ts) (pre.length + j) (pre.length + i) := by
  obtain ⟨hlt, ⟨t, ht, hopens⟩, e, rest, hderives, hrest⟩ := h
  refine ⟨by omega, ⟨t, ?_, hopens⟩, e, rest, ?_, ?_⟩
  · rw [List.getElem?_append_right (by omega)]
    simpa using ht
  · rwa [List.drop_length_add_append]
  · rw [List.length_append]
    omega

private theorem Contains.of_le {k : Nat} (h : Contains ts j i) (hlt : j < k) (hle : k ≤ i) :
    Contains ts j k := by
  obtain ⟨-, hj, e, rest, hderives, hrest⟩ := h
  exact ⟨hlt, hj, e, rest, hderives, by omega⟩

/-! ### Phrases -/

/-- Tokens that are read behind others close what they open. At each token among them that opens
something, what they have open there contains this token. -/
structure Balances (n : Nesting) (pre rest : List Token) : Prop where
  closed : n.readAll pre = { groups := n.groups }
  opened : ∀ i t, pre[i]? = some t → Opens t → ∃ js : Finset Nat,
    (∀ j ∈ js, Contains (pre ++ rest) j i) ∧ (n.readAll (pre.take i)).depth = n.depth + js.card

private theorem balances_of_other (hne : pre ≠ [])
    (h : ∀ t ∈ pre, t.kind ∉ [.not, .opening, .closing]) : Balances n pre rest where
  closed := readAll_of_other hne h
  opened _ t ht hopens := absurd (h t (List.mem_of_getElem? ht)) hopens.of_not_other

/-- Within a group, phrases follow each other. -/
theorem Balances.append (h : Balances { groups } pre (post ++ rest))
    (h' : Balances { groups } post rest) : Balances { groups } (pre ++ post) rest where
  closed := by rw [readAll_append, h.closed, h'.closed]
  opened i t ht hopens := by
    rw [List.append_assoc]
    rcases Nat.lt_or_ge i pre.length with hi | hi
    · rw [List.getElem?_append_left hi] at ht
      rw [List.take_append_of_le_length hi.le]
      exact h.opened i t ht hopens
    · obtain ⟨k, rfl⟩ := Nat.exists_eq_add_of_le hi
      rw [List.getElem?_append_right hi, Nat.add_sub_cancel_left] at ht
      obtain ⟨js, hjs, hdepth⟩ := h'.opened k t ht hopens
      refine ⟨js.image (pre.length + ·), ?_, ?_⟩
      · intro j hj
        obtain ⟨m, hm, rfl⟩ := Finset.mem_image.mp hj
        exact (hjs m hm).append pre
      · rw [List.take_length_add_append, readAll_append, h.closed,
          Finset.card_image_of_injective _ fun _ _ ↦ Nat.add_left_cancel]
        exact hdepth

/-- A sign may stand between two phrases. -/
theorem Balances.append_sign (h : Balances { groups } pre (t :: (post ++ rest)))
    (h' : Balances { groups } post rest) (ht : t.kind ∉ [.not, .opening, .closing]) :
    Balances { groups } (pre ++ t :: post) rest := by
  have hsign : Balances { groups } [t] (post ++ rest) := balances_of_other nofun (by simpa using ht)
  exact h.append (hsign.append h')

/-- A group or a negation contains all that it holds. -/
theorem Balances.enclosed (post : List Token) (h : Balances (n.read t.kind) pre (post ++ rest))
    (ht : Opens t)
    (hderives : Derives .operand (t :: (pre ++ (post ++ rest))) e rest)
    (hclosed : readAll { groups := (n.read t.kind).groups } post = { groups := n.groups })
    (hpost : ∀ u ∈ post, ¬ Opens u) : Balances n (t :: (pre ++ post)) rest where
  closed := by rw [readAll_cons, readAll_append, h.closed, hclosed]
  opened i u hu hopens := by
    cases i with
    | zero => exact ⟨∅, by simp, rfl⟩
    | succ i =>
      rw [List.getElem?_cons_succ] at hu
      have hi : i < pre.length := by
        by_contra hle
        rw [List.getElem?_append_right (Nat.not_lt.mp hle)] at hu
        exact hpost u (List.mem_of_getElem? hu) hopens
      rw [List.getElem?_append_left hi] at hu
      obtain ⟨js, hjs, hdepth⟩ := h.opened i u hu hopens
      refine ⟨insert 0 (js.image Nat.succ), ?_, ?_⟩
      · rw [List.cons_append, List.append_assoc]
        intro j hj
        rcases Finset.mem_insert.mp hj with rfl | hj
        · refine ⟨Nat.succ_pos i, ⟨t, rfl, ht⟩, e, rest, hderives, ?_⟩
          simp only [List.length_cons, List.length_append]
          omega
        · obtain ⟨m, hm, rfl⟩ := Finset.mem_image.mp hj
          have := (hjs m hm).append [t]
          rwa [List.length_singleton, Nat.add_comm 1, Nat.add_comm 1] at this
      · rw [Finset.card_insert_of_notMem (by simp),
          Finset.card_image_of_injective _ Nat.succ_injective, List.take_succ_cons,
          List.take_append_of_le_length hi.le, readAll_cons, hdepth, n.depth_read_opens ht]
        omega

/-- The tokens of a phrase, before the rest, balance. A conjunction or a disjunction has no
negation before it. -/
def BalancesAs (pre rest : List Token) : Phrase → Prop
  | .primary | .operand => ∀ n, Balances n pre rest
  | .conjunction | .disjunction => ∀ groups, Balances { groups } pre rest

private theorem BalancesAs.disjunction (h : BalancesAs pre rest phrase) :
    BalancesAs pre rest .disjunction := by
  intro groups
  cases phrase with
  | primary | operand => exact h { groups }
  | conjunction | disjunction => exact h groups

/-- The tokens of every phrase balance. -/
theorem Derives.exists_balances (h : Derives phrase ts e rest) :
    ∃ pre, ts = pre ++ rest ∧ BalancesAs pre rest phrase := by
  have hsign {t : Token} {us rest : List Token} {l : Literal} (hliteral : LiteralAt us l rest)
      (ht : t.kind ∉ [.not, .opening, .closing]) :
      ∃ pre, t :: us = pre ++ rest ∧ BalancesAs pre rest .primary := by
    obtain ⟨pre, rfl, -, hpre⟩ := hliteral.exists_eq_append
    refine ⟨t :: pre, rfl, fun n ↦ balances_of_other nofun ?_⟩
    exact List.forall_mem_cons.mpr ⟨ht, fun u hu ↦ (hpre u hu).other⟩
  induction h with
  | @group opening closing _ _ _ hopening hinner hclosing ih =>
    obtain ⟨pre, rfl, hpre⟩ := ih
    refine ⟨opening :: (pre ++ [closing]), by simp, fun n ↦ ?_⟩
    have hread : n.read opening.kind = { groups := n.negations :: n.groups } := by
      rw [hopening]
      rfl
    refine Balances.enclosed [closing] ?_ (.inr hopening)
      (.primary (.group hopening hinner hclosing)) ?_ (by simp [Opens, hclosing])
    · rw [hread]
      exact hpre _
    · rw [hread, readAll_cons, hclosing]
      rfl
  | comparison hkind _ hliteral => exact hsign hliteral (by simp [hkind])
  | caret hkind hliteral => exact hsign hliteral (by simp [hkind])
  | tilde hkind hliteral => exact hsign hliteral (by simp [hkind])
  | plain hliteral =>
    obtain ⟨pre, hts, hne, hpre⟩ := hliteral.exists_eq_append
    exact ⟨pre, hts, fun n ↦ balances_of_other hne fun u hu ↦ (hpre u hu).other⟩
  | @hyphen t _ _ _ _ _ hlow hkind hhigh =>
    obtain ⟨pre, rfl, -, hpre⟩ := hlow.exists_eq_append
    obtain ⟨post, rfl, -, hpost⟩ := hhigh.exists_eq_append
    refine ⟨pre ++ t :: post, by simp, fun n ↦ balances_of_other (by simp) ?_⟩
    rw [List.forall_mem_append, List.forall_mem_cons]
    exact ⟨fun u hu ↦ (hpre u hu).other, by simp [hkind], fun u hu ↦ (hpost u hu).other⟩
  | primary _ ih => exact ih
  | @not t _ _ _ hkind hinner ih =>
    obtain ⟨pre, rfl, hpre⟩ := ih
    refine ⟨t :: pre, rfl, fun n ↦ ?_⟩
    have := Balances.enclosed [] (hpre (n.read t.kind)) (.inl hkind) (.not hkind hinner)
      (by rw [hkind]; rfl) nofun
    rwa [List.append_nil] at this
  | operand _ ih =>
    obtain ⟨pre, hts, hpre⟩ := ih
    exact ⟨pre, hts, hpre.disjunction⟩
  | juxtaposed _ _ ihleft ihright =>
    obtain ⟨pre, rfl, hpre⟩ := ihleft
    obtain ⟨post, rfl, hpost⟩ := ihright
    exact ⟨pre ++ post, by simp, fun groups ↦ (hpre groups).append (hpost.disjunction groups)⟩
  | @and t _ _ _ _ _ _ hkind _ ihleft ihright =>
    obtain ⟨pre, rfl, hpre⟩ := ihleft
    obtain ⟨post, rfl, hpost⟩ := ihright
    exact ⟨pre ++ t :: post, by simp, fun groups ↦
      (hpre groups).append_sign (hpost.disjunction groups) (by simp [hkind])⟩
  | conjunction _ ih => exact ih
  | @or t _ _ _ _ _ _ hkind _ ihleft ihright =>
    obtain ⟨pre, rfl, hpre⟩ := ihleft
    obtain ⟨post, rfl, hpost⟩ := ihright
    exact ⟨pre ++ t :: post, by simp, fun groups ↦
      (hpre groups).append_sign (hpost.disjunction groups) (by simp [hkind])⟩

/-! ### Counting -/

/-- What a group or a negation holds balances behind the token that opens it. -/
theorem Derives.exists_enclosed (h : Derives .operand (t :: ts) e rest) (ht : Opens t) :
    ∃ pre post, ts = pre ++ (post ++ rest) ∧ (∀ u ∈ post, ¬ Opens u) ∧
      ∀ n : Nesting, Balances (n.read t.kind) pre (post ++ rest) := by
  have hliteral {us : List Token} {l : Literal} (hl : LiteralAt (t :: ts) l us) : False := by
    obtain ⟨u, us, hus, hkind⟩ := hl.head
    cases hus
    rcases ht with ht | ht <;> simp [ht] at hkind
  cases h with
  | not hkind hinner =>
    obtain ⟨pre, rfl, hpre⟩ := hinner.exists_balances
    exact ⟨pre, [], rfl, nofun, fun n ↦ hpre (n.read t.kind)⟩
  | primary h =>
    cases h with
    | @group _ closing _ _ _ hopening hinner hclosing =>
      obtain ⟨pre, rfl, hpre⟩ := hinner.exists_balances
      refine ⟨pre, [closing], rfl, by simp [Opens, hclosing], fun n ↦ ?_⟩
      rw [hopening]
      exact hpre (n.negations :: n.groups)
    | comparison hkind => simp [Opens, hkind] at ht
    | caret hkind => simp [Opens, hkind] at ht
    | tilde hkind => simp [Opens, hkind] at ht
    | plain hl => exact (hliteral hl).elim
    | hyphen hl => exact (hliteral hl).elim

/-- What a group or a negation contains lies deeper than its own token. -/
theorem Contains.depth_lt (h : Contains ts j i) (hi : ts[i]? = some t) (ht : Opens t)
    (n : Nesting) : (n.readAll (ts.take j)).depth < (n.readAll (ts.take i)).depth := by
  obtain ⟨hlt, ⟨u, hu, hopens⟩, e, rest, hderives, hrest⟩ := h
  obtain ⟨hj, rfl⟩ := List.getElem?_eq_some_iff.mp hu
  obtain ⟨k, rfl⟩ := Nat.exists_eq_add_of_lt hlt
  rw [List.drop_eq_getElem_cons hj] at hderives
  obtain ⟨pre, post, hdrop, hpost, hpre⟩ := hderives.exists_enclosed hopens
  have hu : (pre ++ (post ++ rest))[k]? = some t := by
    rw [← hdrop, List.getElem?_drop, ← hi]
    congr 1
    omega
  have hk : k < pre.length := by
    have hlength := congrArg List.length hdrop
    simp only [List.length_drop, List.length_append] at hlength
    by_contra hle
    rw [List.getElem?_append_right (by omega), List.getElem?_append_left (by omega)] at hu
    exact hpost t (List.mem_of_getElem? hu) ht
  rw [List.getElem?_append_left hk] at hu
  obtain ⟨js, -, hdepth⟩ := (hpre (n.readAll (ts.take j))).opened k t hu ht
  rw [depth_read_opens _ hopens] at hdepth
  rw [Nat.add_assoc, List.take_add, List.drop_eq_getElem_cons hj, hdrop, List.take_succ_cons,
    List.take_append_of_le_length hk.le, readAll_append, readAll_cons, hdepth]
  omega

/-- The nesting of a token is the depth behind it. -/
theorem nestingAt_eq (h : Accepts ts e) (hi : ts[i]? = some t) (ht : Opens t) :
    nestingAt ts i = (readAll {} (ts.take i)).depth + 1 := by
  have hfinite : {j | Contains ts j i}.Finite := (Set.finite_lt_nat i).subset fun j hj ↦ hj.1
  obtain ⟨pre, hts, hpre⟩ := Derives.exists_balances h
  rw [List.append_nil] at hts
  subst hts
  obtain ⟨js, hjs, hdepth⟩ := (hpre []).opened i t hi ht
  rw [List.append_nil] at hjs
  have hlower : js.card ≤ {j | Contains ts j i}.ncard := by
    rw [← Set.ncard_coe_finset]
    exact Set.ncard_le_ncard hjs hfinite
  -- The containing tokens stand at different depths, since each contains the ones behind it.
  have hupper : {j | Contains ts j i}.ncard ≤ (readAll {} (ts.take i)).depth := by
    rw [← Finset.card_range (depth _), ← Set.ncard_coe_finset]
    refine Set.ncard_le_ncard_of_injOn (fun j ↦ (readAll {} (ts.take j)).depth) ?_ ?_
    · intro j hj
      rw [Finset.mem_coe, Finset.mem_range]
      exact hj.depth_lt hi ht {}
    · have hlt {j k : Nat} (hj : Contains ts j i) (hk : Contains ts k i) (hjk : j < k) :
          (readAll {} (ts.take j)).depth < (readAll {} (ts.take k)).depth := by
        obtain ⟨hki, ⟨u, hu, hopens⟩, -⟩ := hk
        exact (hj.of_le hjk hki.le).depth_lt hu hopens {}
      intro j hj k hk heq
      by_contra hne
      rcases Nat.lt_or_gt_of_ne hne with hjk | hkj
      · exact Nat.ne_of_lt (hlt hj hk hjk) heq
      · exact Nat.ne_of_gt (hlt hk hj hkj) heq
  have hzero : depth {} = 0 := rfl
  rw [nestingAt]
  omega

/-- A group or a negation that has ended before a token does not contain it. -/
theorem not_contains_of_ended (h : Derives .operand (ts.drop j) e rest)
    (hended : ts.length ≤ rest.length + i) (hi : ts[i]? = some t) (ht : Opens t) :
    ¬ Contains ts j i := by
  induction i using Nat.strong_induction_on generalizing t with
  | _ i ih =>
    intro hcontains
    obtain ⟨pre, hdrop, hpre⟩ := h.exists_balances
    have hclosed := (hpre (readAll {} (ts.take j))).closed
    have hpos : 0 < pre.length := by
      rw [List.length_pos_iff]
      rintro rfl
      exact absurd (hpre { negations := 1 }).closed nofun
    obtain ⟨k, rfl⟩ := Nat.exists_eq_add_of_le hcontains.1.le
    have hlength := congrArg List.length hdrop
    rw [List.length_drop, List.length_append] at hlength
    obtain ⟨m, rfl⟩ := Nat.exists_eq_add_of_le (show pre.length ≤ k by omega)
    -- By induction, no token between the end and this one opens anything.
    have hnone : ∀ u ∈ rest.take m, ¬ Opens u := by
      intro u hu hopens
      obtain ⟨l, hl⟩ := List.mem_iff_getElem?.mp hu
      rw [List.getElem?_take] at hl
      split at hl
      · next hlt =>
        refine ih (j + (pre.length + l)) (by omega) (by omega) ?_ hopens
          (hcontains.of_le (by omega) (by omega))
        rw [← List.getElem?_drop, hdrop, List.getElem?_append_right (by omega),
          Nat.add_sub_cancel_left, hl]
      · cases hl
    have hdepth := hcontains.depth_lt hi ht {}
    have hle := depth_readAll_le (readAll { groups := (readAll {} (ts.take j)).groups } []) hnone
    rw [List.take_add, hdrop, List.take_length_add_append, readAll_append, readAll_append,
      hclosed] at hdepth
    have := depth_groups_le (readAll {} (ts.take j))
    rw [readAll_nil] at hle
    omega

/-- The tokens of an expression nest within a bound exactly if they open no more than it. -/
theorem nestingsWithin_iff {bound : Int} (h : Accepts ts e) (hbound : 0 ≤ bound) :
    NestingsWithin bound ts ↔ (nesting ts : Int) ≤ bound := by
  rw [nesting, deepest_le_iff hbound]
  refine forall₂_congr fun i t ↦ forall₂_congr fun hi hopens ↦ ?_
  rw [nestingAt_eq h hi hopens]

private theorem exists_firstBeyond {bound : Int} (h : ¬ NestingsWithin bound ts) :
    ∃ i t, FirstBeyond bound ts i t := by
  classical
  have hex : ∃ i t, ts[i]? = some t ∧ Opens t ∧ bound < nestingAt ts i := by
    simpa [NestingsWithin] using h
  obtain ⟨t, hi, hopens, hbeyond⟩ := Nat.find_spec hex
  refine ⟨Nat.find hex, t, hi, hopens, hbeyond, fun k hk u hu hopens ↦ ?_⟩
  have := Nat.find_min hex hk
  exact Int.not_lt.mp fun hlt ↦ this ⟨u, hu, hopens, hlt⟩

/-- Before the first token that nests beyond a bound nothing opens more than it allows. -/
theorem FirstBeyond.split {bound : Int} (h : FirstBeyond bound ts i t) (haccepts : Accepts ts e)
    (hbound : 0 ≤ bound) :
    ∃ before behind, ts = before ++ t :: behind ∧ (nesting before : Int) ≤ bound ∧
      bound < ((readAll {} before).read t.kind).depth := by
  obtain ⟨hi, hopens, hbeyond, hfirst⟩ := h
  obtain ⟨hlt, rfl⟩ := List.getElem?_eq_some_iff.mp hi
  refine ⟨ts.take i, ts.drop (i + 1), by simp, ?_, ?_⟩
  · rw [nesting, deepest_le_iff hbound]
    intro k u hk hu
    rw [List.getElem?_take] at hk
    split at hk
    · next hki =>
      rw [List.take_take, Nat.min_eq_left hki.le, ← nestingAt_eq haccepts hk hu]
      exact hfirst k hki u hk hu
    · cases hk
  · rwa [depth_read_opens _ hopens, ← nestingAt_eq haccepts hi hopens]

end Grammar

open Grammar

/-- Tokens that are read to the end within some limit are refused within another one at the first
token that opens more than it allows. -/
theorem Progress.resume_eq_nestingTooDeep {source : String} {maxDepth limit : Int} {position : Nat}
    {p : Progress} {before behind : List Token} {t : Token} {e : Expression}
    (h : resume source maxDepth position p (before ++ t :: behind) = .ok e)
    (hbefore : (p.nesting.deepest before : Int) ≤ max limit 0)
    (hbeyond : max limit 0 < ((p.nesting.readAll before).read t.kind).depth) :
    resume source limit position p (before ++ t :: behind) =
      .error (.nestingTooDeep limit t.position) := by
  induction before generalizing p with
  | nil =>
    rw [List.nil_append, resume_cons] at h ⊢
    obtain ⟨q, hstep, -⟩ := Outcome.bind_eq_ok_iff.mp h
    have hfollows := follows_of_step hstep
    rw [Nesting.deepest] at hbefore
    rw [Nesting.readAll_nil, ← hfollows.nesting_eq] at hbeyond
    rw [hfollows.read_eq, if_neg (by omega)]
    rfl
  | cons u before ih =>
    rw [List.cons_append, resume_cons] at h ⊢
    obtain ⟨q, hstep, hrun⟩ := Outcome.bind_eq_ok_iff.mp h
    have hfollows := follows_of_step hstep
    rw [Nesting.deepest, ← hfollows.nesting_eq] at hbefore
    rw [Nesting.readAll_cons, ← hfollows.nesting_eq] at hbeyond
    have hdepth := Nesting.depth_le_deepest q.nesting before
    rw [hfollows.read_eq_ok (by omega)]
    exact ih hrun (by omega) hbeyond

namespace Expression

/-- A text that is read within some limit on depth is read within another one exactly if none of
its negations and groups nests beyond it, and then as the same expression; a limit below zero is
as good as zero. Otherwise the first token that nests beyond it is named. What has ended before a
token does not count for its nesting. -/
theorem parse_maxDepth {text : String} {limits : Limits} {e : Expression}
    (h : parse text limits = .ok e) (d : Int) :
    let ts := (Tokenization.ofChars text.toList).tokens
    let outcome := parse text { limits with maxDepth := d }
    ((∃ e', outcome = .ok e') ↔ NestingsWithin (max d 0) ts) ∧
      (∀ e', outcome = .ok e' → e' = e) ∧
      (¬ NestingsWithin (max d 0) ts →
        ∃ i t, FirstBeyond (max d 0) ts i t ∧
          outcome = .error (.nestingTooDeep d t.position)) ∧
      ∀ i t, ts[i]? = some t → Opens t → ∀ j e' rest, Derives .operand (ts.drop j) e' rest →
        ts.length ≤ rest.length + i → ¬ Contains ts j i := by
  intro ts outcome
  obtain ⟨hlength, -, hshort, ⟨position, spaced, hstop⟩, haccepts⟩ := parse_eq_ok_iff.mp h
  have hbound : 0 ≤ max d 0 := Int.le_max_right ..
  have hresume (maxDepth : Int) : parse text { limits with maxDepth } =
      Progress.resume text maxDepth position .start ts := by
    rw [parse, if_neg (Int.not_lt.mpr hlength), ofTokenization, hstop]
    rfl
  have hread : NestingsWithin (max d 0) ts → outcome = .ok e := fun hwithin ↦
    parse_eq_ok_iff.mpr
      ⟨hlength, (nestingsWithin_iff haccepts hbound).mp hwithin, hshort, ⟨_, _, hstop⟩, haccepts⟩
  have hrefused (hnot : ¬ NestingsWithin (max d 0) ts) : ∃ i t, FirstBeyond (max d 0) ts i t ∧
      outcome = .error (.nestingTooDeep d t.position) := by
    obtain ⟨i, t, hfirst⟩ := exists_firstBeyond hnot
    obtain ⟨before, behind, hts, hbefore, hbeyond⟩ := hfirst.split haccepts hbound
    have hlimits : Progress.resume text limits.maxDepth position .start ts = .ok e := by
      rw [← hresume]
      exact h
    refine ⟨i, t, hfirst, ?_⟩
    change parse text { limits with maxDepth := d } = _
    rw [hresume, hts]
    rw [hts] at hlimits
    exact Progress.resume_eq_nestingTooDeep hlimits hbefore hbeyond
  refine ⟨⟨?_, fun hwithin ↦ ⟨e, hread hwithin⟩⟩, ?_, hrefused, ?_⟩
  · rintro ⟨e', he'⟩
    by_contra hnot
    obtain ⟨_, _, -, herror⟩ := hrefused hnot
    rw [he'] at herror
    cases herror
  · intro e' he'
    exact eq_of_accepts hshort (parse_eq_ok_iff.mp he').2.2.2.2 haccepts
  · intro i t hi hopens j e' rest hderives hended
    exact not_contains_of_ended hderives hended hi hopens

/-- A negated group before another operand is read within the usual limit. Within a limit of one it
is read exactly if nothing nests deeper. -/
theorem parse_maxDepth_negated_group :
    let text := "!(=1) (=2)"
    let e : Expression :=
      .and (.not (between ⟨1, 0, 0, [], []⟩ (.lowest 2 0 0)))
        (between ⟨2, 0, 0, [], []⟩ (.lowest 3 0 0))
    let ts := (Tokenization.ofChars text.toList).tokens
    parse text = .ok e ∧ ((∃ e', parse text { maxDepth := 1 } = .ok e') ↔ NestingsWithin 1 ts) ∧
      (¬ NestingsWithin 1 ts → ∃ i t, FirstBeyond 1 ts i t ∧
        parse text { maxDepth := 1 } = .error (.nestingTooDeep 1 t.position)) := by
  intro text e ts
  have hread : parse text = .ok e := by
    rw [← Outcome.toOption_eq_some_iff]
    decide +kernel
  obtain ⟨hiff, -, hrefused, -⟩ := parse_maxDepth hread 1
  exact ⟨hread, hiff, hrefused⟩

/-- Operands that follow each other do not nest. -/
example : (parse "(1) !2 (3) || !(4 5) !!6" { maxDepth := 2 }).isOk := by decide +kernel

end Expression

end VersionRange
