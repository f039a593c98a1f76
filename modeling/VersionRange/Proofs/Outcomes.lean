/-!
# Operations that may fail

A sequence of operations succeeds exactly if each of them does.
-/

namespace VersionRange.Outcome

variable {α β ε δ : Type}

theorem bind_eq_ok_iff {x : Except ε α} {f : α → Except ε β} {b : β} :
    x >>= f = .ok b ↔ ∃ a, x = .ok a ∧ f a = .ok b := by
  cases x with
  | error e => exact ⟨nofun, fun ⟨_, h, _⟩ ↦ nomatch h⟩
  | ok a => exact ⟨fun h ↦ ⟨a, rfl, h⟩, fun ⟨_, h, hf⟩ ↦ by cases h; exact hf⟩

theorem bind_eq_error_iff {x : Except ε α} {f : α → Except ε β} {e : ε} :
    x >>= f = .error e ↔ x = .error e ∨ ∃ a, x = .ok a ∧ f a = .error e := by
  cases x with
  | error e' =>
    refine ⟨fun h ↦ .inl (by cases h; rfl), ?_⟩
    rintro (h | ⟨_, h, _⟩)
    · cases h
      rfl
    · cases h
  | ok a =>
    refine ⟨fun h ↦ .inr ⟨a, rfl, h⟩, ?_⟩
    rintro (h | ⟨_, h, hf⟩)
    · cases h
    · cases h
      exact hf

theorem mapError_eq_ok_iff {x : Except ε α} {f : ε → δ} {a : α} :
    x.mapError f = .ok a ↔ x = .ok a := by
  cases x with
  | error e => exact ⟨nofun, nofun⟩
  | ok b => exact ⟨fun h ↦ by cases h; rfl, fun h ↦ by cases h; rfl⟩

theorem toOption_eq_some_iff {x : Except ε α} {a : α} : x.toOption = some a ↔ x = .ok a := by
  cases x with
  | error e => exact ⟨nofun, nofun⟩
  | ok b => rw [Except.toOption, Option.some.injEq, Except.ok.injEq]

theorem exists_of_isOk {x : Except ε α} (h : x.isOk = true) : ∃ a, x = .ok a := by
  cases x with
  | ok a => exact ⟨a, rfl⟩
  | error e => cases h

theorem mapM_cons_eq_ok_iff {f : α → Except ε β} {x : α} {xs : List α} {ys : List β} :
    (x :: xs).mapM f = .ok ys ↔ ∃ b bs, f x = .ok b ∧ xs.mapM f = .ok bs ∧ ys = b :: bs := by
  rw [List.mapM_cons]
  simp only [bind_eq_ok_iff, pure, Except.pure, Except.ok.injEq]
  constructor
  · rintro ⟨b, hb, bs, hbs, rfl⟩
    exact ⟨b, bs, hb, hbs, rfl⟩
  · rintro ⟨b, bs, hb, hbs, rfl⟩
    exact ⟨b, hb, bs, hbs, rfl⟩

/-- All items of a list are read if each of them is. -/
theorem mapM_eq_ok_iff {f : α → Except ε β} {good : α → Prop} {value : α → β}
    (h : ∀ a b, f a = .ok b ↔ good a ∧ b = value a) {xs : List α} {ys : List β} :
    xs.mapM f = .ok ys ↔ (∀ x ∈ xs, good x) ∧ ys = xs.map value := by
  induction xs generalizing ys with
  | nil => simp [pure, Except.pure, eq_comm]
  | cons x xs ih =>
    simp only [mapM_cons_eq_ok_iff, ih, h, List.forall_mem_cons, List.map_cons]
    constructor
    · rintro ⟨_, _, ⟨hx, rfl⟩, ⟨hxs, rfl⟩, rfl⟩
      exact ⟨⟨hx, hxs⟩, rfl⟩
    · rintro ⟨⟨hx, hxs⟩, rfl⟩
      exact ⟨_, _, ⟨hx, rfl⟩, ⟨hxs, rfl⟩, rfl⟩

/-- If a list cannot be read, one of its items cannot. -/
theorem exists_of_mapM_eq_error {f : α → Except ε β} {xs : List α} {e : ε}
    (h : xs.mapM f = .error e) : ∃ x ∈ xs, f x = .error e := by
  induction xs with
  | nil => cases h
  | cons x xs ih =>
    rw [List.mapM_cons, bind_eq_error_iff] at h
    obtain h | ⟨b, _, h⟩ := h
    · exact ⟨x, List.mem_cons_self, h⟩
    · obtain h | ⟨bs, _, h⟩ := bind_eq_error_iff.mp h
      · obtain ⟨y, hy, hf⟩ := ih h
        exact ⟨y, List.mem_cons_of_mem x hy, hf⟩
      · cases h

/-- Every list can be read up to its end, or up to an item that cannot be read. -/
theorem exists_readable_prefix (f : α → Except ε β) (xs : List α) :
    ∃ front ys rest, xs = front ++ rest ∧ front.mapM f = .ok ys ∧
      ∀ x ∈ rest.head?, ∃ e, f x = .error e := by
  induction xs with
  | nil => exact ⟨[], [], [], rfl, rfl, nofun⟩
  | cons x xs ih =>
    cases hx : f x with
    | error e =>
      refine ⟨[], [], x :: xs, rfl, rfl, fun y hy ↦ ?_⟩
      obtain rfl : x = y := Option.some.inj hy
      exact ⟨e, hx⟩
    | ok y =>
      obtain ⟨front, ys, rest, rfl, hfront, hrest⟩ := ih
      exact ⟨x :: front, y :: ys, rest, rfl, mapM_cons_eq_ok_iff.mpr ⟨y, ys, hx, hfront, rfl⟩,
        hrest⟩

/-- A run through a list succeeds with every step function that succeeds where another one does. -/
theorem foldlM_eq_ok_of_forall {f g : β → α → Except ε β} {xs : List α} {b c : β}
    (hstep : ∀ b a c, f b a = .ok c → g b a = .ok c) (h : xs.foldlM f b = .ok c) :
    xs.foldlM g b = .ok c := by
  induction xs generalizing b with
  | nil => exact h
  | cons x xs ih =>
    rw [List.foldlM_cons] at h ⊢
    obtain ⟨d, hx, h⟩ := bind_eq_ok_iff.mp h
    rw [hstep b x d hx]
    exact ih h

/-- If a run through a list fails, it fails at one of its items, behind those before it. -/
theorem exists_of_foldlM_eq_error {f : β → α → Except ε β} {xs : List α} {b : β} {e : ε}
    (h : xs.foldlM f b = .error e) :
    ∃ before x behind c, xs = before ++ x :: behind ∧ before.foldlM f b = .ok c ∧
      f c x = .error e := by
  induction xs generalizing b with
  | nil => cases h
  | cons x xs ih =>
    rw [List.foldlM_cons] at h
    rcases bind_eq_error_iff.mp h with hx | ⟨c, hc, h⟩
    · exact ⟨[], x, xs, b, rfl, rfl, hx⟩
    · obtain ⟨before, y, behind, d, rfl, hbefore, hy⟩ := ih h
      refine ⟨x :: before, y, behind, d, rfl, ?_, hy⟩
      rw [List.foldlM_cons, hc]
      exact hbefore

end VersionRange.Outcome
