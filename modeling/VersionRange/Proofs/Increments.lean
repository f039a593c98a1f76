import VersionRange.Proofs.BuildOrder
import VersionRange.Version.Increment

/-!
# Raising build metadata

Raising build metadata reads all of its words as identifiers and writes these. The numbers and the
pre-release label stay, the last word is raised or a one is put behind it, and the other words stay
as they are unless they are digits with a needless zero in front, which they lose.
-/

namespace VersionRange

namespace Word

private theorem isWritable_ofWord {w : Word} (h : w.IsShort) :
    (Identifier.ofWord w).isWritable = true := by
  rw [Identifier.ofWord]
  split
  · next hnumeric =>
    have hdigits : Text.isDigits w.chars = true := by rw [isDigits_chars, hnumeric]
    rw [Identifier.isWritable, Text.isWritable, decide_eq_true_eq]
    exact Nat.le_trans (Text.length_numeral_numeralValue_le hdigits) (h hnumeric)
  · rfl

/-- What stands in the place of the last word once build metadata is raised: the next number, or a
one behind a word that is no number. -/
def raised (last : Word) : List Word :=
  if last.isNumeric then [ofNat (last.value + 1)] else [last, ofNat 1]

/-- Decide whether the number by which a word is raised is short enough to be written. -/
def canRaise (last : Word) : Bool := !last.isNumeric || Text.isWritable (last.value + 1)

/-- Raising the identifier that the last word denotes. -/
theorem incrementLast_ofWord (last : Word) :
    (incrementLast [.ofWord last]).map Identifier.toWord = last.raised ∧
      (incrementLast [.ofWord last]).all Identifier.isWritable = last.canRaise := by
  rw [Identifier.ofWord, raised, canRaise]
  split
  · next hnumeric => simp [hnumeric, incrementLast, Identifier.toWord, Identifier.isWritable]
  · next hnumeric =>
    have hone : Text.isWritable 1 = true := by decide
    simp [hnumeric, incrementLast, Identifier.toWord, Identifier.isWritable, hone]

end Word

/-- Only the last identifier of a label is raised. -/
theorem incrementLast_append_singleton (before : List Identifier) (last : Identifier) :
    incrementLast (before ++ [last]) = before ++ incrementLast [last] := by
  induction before with
  | nil => rfl
  | cons i before ih =>
    rw [List.cons_append, List.cons_append, ← ih]
    cases before <;> simp only [List.nil_append, List.cons_append, incrementLast]

/-- What is made of a raised label is had unless a number in the label is too long. -/
theorem writableLabel_bind {α : Type} (label : List Identifier) (make : List Identifier → α) :
    (writableLabel label >>= fun raised ↦ .ok (make raised)) =
      ifWritable (label.all Identifier.isWritable) (make label) := by
  rw [writableLabel, ifWritable, ifWritable]
  cases label.all Identifier.isWritable <;> rfl

namespace Version

variable {v : Version} {before : List Word} {last : Word}

/-- The version with its build metadata raised as the identifiers that it denotes. -/
def raisedBuild (v : Version) : Version :=
  { v with build := (incrementLast v.buildIdentifiers).map Identifier.toWord }

theorem incrementBuild_eq_ifWritable (hne : v.build ≠ []) (hshort : v.HasShortBuild) :
    v.incrementBuild =
      ifWritable ((incrementLast v.buildIdentifiers).all Identifier.isWritable) v.raisedBuild := by
  have hempty : ¬ v.build.isEmpty = true := by simpa using hne
  rw [incrementBuild, if_neg hempty, readIdentifiers_build hshort]
  exact writableLabel_bind (incrementLast v.buildIdentifiers)
    fun raised ↦ { v with build := raised.map Identifier.toWord }

/-- Raising build metadata removes the needless zeros of the words in front of the last one. -/
theorem incrementBuild_eq (hbuild : v.build = before ++ [last]) (hshort : v.HasShortBuild) :
    v.incrementBuild =
      ifWritable last.canRaise { v with build := before.map Word.unpadded ++ last.raised } := by
  have hne : v.build ≠ [] := by simp [hbuild]
  have hbefore : (before.map Identifier.ofWord).all Identifier.isWritable = true := by
    rw [List.all_map, List.all_eq_true]
    intro w hw
    exact Word.isWritable_ofWord (hshort w (by simp [hbuild, hw]))
  have hlabel : incrementLast v.buildIdentifiers =
      before.map .ofWord ++ incrementLast [.ofWord last] := by
    rw [buildIdentifiers, hbuild, List.map_append, List.map_singleton,
      incrementLast_append_singleton]
  obtain ⟨hwords, hwritable⟩ := Word.incrementLast_ofWord last
  rw [incrementBuild_eq_ifWritable hne hshort, raisedBuild, hlabel, List.all_append, hbefore,
    hwritable, Bool.true_and, List.map_append, hwords, List.map_map]
  rfl

/-- Raising build metadata keeps the numbers and the pre-release label. It keeps the words in
front of the last one exactly if none of them is a number with a needless zero in front; such
zeros are lost. The last word is raised, unless the next number is too long to be written. -/
theorem incrementBuild_keeps_words_iff (hbuild : v.build = before ++ [last])
    (hshort : v.HasShortBuild) :
    (v.incrementBuild = .ok { v with build := before ++ last.raised } ↔
      (∀ w ∈ before, ¬ w.IsPadded) ∧ last.canRaise = true) ∧
    v.incrementBuild =
      ifWritable last.canRaise { v with build := before.map Word.unpadded ++ last.raised } := by
  have hraise := incrementBuild_eq hbuild hshort
  refine ⟨?_, hraise⟩
  rw [hraise, ifWritable, ← Word.map_unpadded_eq_self_iff]
  cases last.canRaise <;> simp

/-- A zero alone is not padded, and a word that begins with one but is no number has a one put
behind it. -/
theorem incrementBuild_keeps_words_iff_name :
    let before : List Word := [⟨['b'], rfl⟩, ⟨['0'], rfl⟩]
    let last : Word := ⟨['0', 'x'], rfl⟩
    let v : Version := ⟨1, 2, 3, [.number 4], before ++ [last]⟩
    v.build = before ++ [last] ∧ v.HasShortBuild ∧ (∀ w ∈ before, ¬ w.IsPadded) ∧
      last.canRaise = true ∧
      v.incrementBuild = .ok { v with build := before ++ [last, ⟨['1'], rfl⟩] } := by
  intro before last v
  have hbuild : v.build = before ++ [last] := rfl
  have hshort : v.HasShortBuild := by decide
  have hpadded : ∀ w ∈ before, ¬ w.IsPadded := by decide
  have hraise : last.canRaise = true := by decide
  exact ⟨hbuild, hshort, hpadded, hraise,
    (incrementBuild_keeps_words_iff hbuild hshort).1.mpr ⟨hpadded, hraise⟩⟩

/-- Raising `001.5` gives `1.6` and not `001.6`. -/
theorem incrementBuild_drops_leading_zeros :
    let first : Word := ⟨['0', '0', '1'], rfl⟩
    let last : Word := ⟨['5'], rfl⟩
    let v : Version := ⟨1, 0, 0, [], [first] ++ [last]⟩
    v.HasShortBuild ∧ last.raised = [⟨['6'], rfl⟩] ∧
      v.incrementBuild = .ok { v with build := [⟨['1'], rfl⟩] ++ last.raised } ∧
      v.incrementBuild ≠ .ok { v with build := [first] ++ last.raised } := by
  intro first last v
  have hraised : v.incrementBuild = .ok { v with build := [⟨['1'], rfl⟩] ++ last.raised } := by
    rw [← Outcome.toOption_eq_some_iff]
    decide
  refine ⟨by decide, by decide, hraised, ?_⟩
  rw [hraised, Ne, Except.ok.injEq]
  decide

end Version

end VersionRange
