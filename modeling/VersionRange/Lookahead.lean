/-!
# Streams with one element of lookahead

A stream hands out the items of a source one by one and can show the next one beforehand. The
item shown is kept in a slot. Once the source has ended, by exhaustion or by an error, the stream
reports that ending for ever. An item that looks like an empty slot is not kept when shown.
-/

namespace VersionRange

/-- Why a source hands out no more items. -/
inductive Ending (ε : Type)
  | exhausted
  | failed (error : ε)
  deriving DecidableEq

/-- States from which finitely many items can be pulled before the source ends. -/
class Source (σ : Type) (α ε : outParam Type) where
  /-- The next item and the state behind it, or why there is none. -/
  pull : σ → Except (Ending ε) (α × σ)
  /-- A bound on the number of items that are left. -/
  size : σ → Nat
  /-- Decide whether an item looks like an empty slot. -/
  isVoid : α → Bool
  size_pull : ∀ {s t : σ} {item : α}, pull s = .ok (item, t) → size t < size s

/-- A source with a slot for the item shown beforehand, and the ending once it is known.
Source: `ElementStream`. -/
structure Lookahead (σ : Type) {α ε : Type} [Source σ α ε] where
  source : σ
  slot : Option α := none
  ending : Option (Ending ε) := none

namespace Lookahead

variable {σ α ε : Type} [Source σ α ε]

/-- Show the next item. Source: `ElementStream.peek` and `ElementStream._fill`. -/
def peek (s : Lookahead σ) : Except (Ending ε) α × Lookahead σ :=
  match s.ending, s.slot with
  | some ending, _ => (.error ending, s)
  | none, some item => (.ok item, s)
  | none, none =>
    match Source.pull s.source with
    | .error ending => (.error ending, { s with ending := some ending })
    | .ok (item, source) =>
      (.ok item, { s with source, slot := if Source.isVoid σ item then none else some item })

/-- Hand out the next item. Source: `ElementStream.next`. -/
def next (s : Lookahead σ) : Except (Ending ε) α × Lookahead σ :=
  match s.peek with
  | (.error ending, t) => (.error ending, t)
  | (.ok item, t) => (.ok item, { t with slot := none })

/-- A bound on the number of items that are left, the one in the slot included. -/
def size (s : Lookahead σ) : Nat := Source.size s.source + s.slot.toList.length

/-- Every item handed out is one less to come. -/
theorem size_next {s t : Lookahead σ} {item : α} (h : s.next = (.ok item, t)) :
    t.size < s.size := by
  simp only [next] at h
  split at h
  · cases h
  · next item' u hpeek =>
    injection h with _ ht
    subst ht
    simp only [peek] at hpeek
    split at hpeek
    · cases hpeek
    · next hslot =>
      injection hpeek with _ hu
      subst hu
      simp [size, hslot]
    · next hslot =>
      split at hpeek
      · cases hpeek
      · next hpull =>
        injection hpeek with _ hu
        subst hu
        have := Source.size_pull hpull
        simp [size, hslot]
        exact this

/-- Hand out all items that are left. An error of the source takes the place of the items before it,
which are lost. Source: iteration over `ElementStream`. -/
def drain (s : Lookahead σ) : Except ε (List α) × Lookahead σ :=
  match _h : s.next with
  | (.error .exhausted, t) => (.ok [], t)
  | (.error (.failed error), t) => (.error error, t)
  | (.ok item, t) =>
    match drain t with
    | (.ok items, u) => (.ok (item :: items), u)
    | (.error error, u) => (.error error, u)
termination_by s.size
decreasing_by exact size_next _h

end Lookahead

/-- A source that hands out the items of a list, some of which have no value, up to an error or
to the end of the list. -/
structure Items (α ε : Type) where
  rest : List (Except ε (Option α))

namespace Items

variable {α ε : Type}

/-- The next item of a list. -/
def pull (s : Items α ε) : Except (Ending ε) (Option α × Items α ε) :=
  match s.rest with
  | [] => .error .exhausted
  | .error error :: _ => .error (.failed error)
  | .ok item :: rest => .ok (item, ⟨rest⟩)

theorem length_lt_of_pull {s t : Items α ε} {item : Option α} (h : s.pull = .ok (item, t)) :
    t.rest.length < s.rest.length := by
  simp only [pull] at h
  split at h
  · cases h
  · cases h
  · next hrest =>
    cases h
    simp [hrest]

/-- An item without a value looks like an empty slot. -/
instance : Source (Items α ε) (Option α) ε where
  pull := pull
  size s := s.rest.length
  isVoid := Option.isNone
  size_pull := length_lt_of_pull

end Items

end VersionRange
