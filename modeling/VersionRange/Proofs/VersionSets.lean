import VersionRange.Proofs.Precedence
import VersionRange.Proofs.VersionText
import VersionRange.VersionSet

/-!
# Version sets keep the first of each class

A set is what is left of the versions that were presented to it, in whatever way and however often
an operation failed in between: of the versions that tie, the first one, build metadata and all, and
these in ascending precedence. Adding and looking up find the place of a version by bisection, which
is right because the members ascend.
-/

namespace VersionRange

namespace VersionSet

open Version

variable {s : VersionSet} {presented : List Version}

/-! ### The place of a version -/

/-- The place of a version is the border between the members that precede it and the rest. -/
theorem exists_place (h : s.members.Pairwise Precedes) (v : Version) :
    ∃ lower upper, s.members = lower ++ upper ∧ s.place v = lower.length ∧
      (∀ m ∈ lower, Precedes m v) ∧ ∀ m ∈ upper, ¬ Precedes m v := by
  have hbelow : ∀ m : Version, (compare m v).isLT = true ↔ Precedes m v := fun m ↦ by
    rw [Ordering.isLT_iff_eq_lt, compare_eq_lt_iff]
  have hsorted : s.members.Pairwise fun a b ↦
      (compare b v).isLT = true → (compare a v).isLT = true :=
    h.imp fun hab hb ↦ (hbelow _).mpr (precedes_trans hab ((hbelow _).mp hb))
  obtain ⟨lower, upper, hmembers, hlower, hupper⟩ := exists_border hsorted
  refine ⟨lower, upper, hmembers, ?_, fun m hm ↦ (hbelow m).mp (hlower m hm),
    fun m hm ↦ mt (hbelow m).mpr (hupper m hm)⟩
  rw [place, hmembers]
  exact bisect_append hlower hupper

/-- Among ascending members the one in the place of a version is the only one that may tie. -/
theorem contains_iff (h : s.members.Pairwise Precedes) (v : Version) :
    s.contains v = true ↔ ∃ m ∈ s.members, Ties m v := by
  obtain ⟨lower, upper, hmembers, hplace, hlower, hupper⟩ := exists_place h v
  have hties : ∀ m : Version, (compare m v).isEq = true ↔ Ties m v := fun m ↦ by
    rw [Ordering.isEq_iff_eq_eq, compare_eq_eq_iff]
  rw [contains, Option.any_eq_true]
  constructor
  · rintro ⟨m, hm, heq⟩
    exact ⟨m, List.mem_of_getElem? hm, (hties m).mp heq⟩
  · rintro ⟨m, hm, htie⟩
    rw [hmembers, List.mem_append] at hm
    have hm := hm.resolve_left fun hm ↦ not_precedes_of_ties htie (hlower m hm)
    cases upper with
    | nil => cases hm
    | cons u upper =>
      -- A member behind `u` that ties with `v` would put `u` below `v`.
      have hu : u = m := by
        rw [hmembers, List.pairwise_append] at h
        cases hm with
        | head => rfl
        | tail _ hm =>
          have hum := (List.pairwise_cons.mp h.2.1).1 m hm
          exact absurd (precedes_of_precedes_of_ties hum htie) (hupper u List.mem_cons_self)
      refine ⟨m, ?_, (hties m).mpr htie⟩
      rw [hplace, hmembers, hu, List.getElem?_append_right (Nat.le_refl _), Nat.sub_self]
      rfl

private theorem insertIdx_append {α : Type} (a : α) (lower upper : List α) :
    (lower ++ upper).insertIdx lower.length a = lower ++ a :: upper := by
  induction lower with
  | nil => rfl
  | cons b lower ih =>
    rw [List.cons_append, List.length_cons, List.insertIdx_succ_cons, ih, List.cons_append]

/-- A version that ties with a member is not added. -/
theorem add_of_exists_ties (h : s.members.Pairwise Precedes) {v : Version}
    (htie : ∃ m ∈ s.members, Ties m v) : s.add v = (false, s) := by
  rw [add, if_pos ((contains_iff h v).mpr htie)]

/-- Any other version is put between the members below it and those above it. -/
theorem add_of_forall_not_ties (h : s.members.Pairwise Precedes) {v : Version}
    (hnew : ∀ m ∈ s.members, ¬ Ties m v) :
    ∃ lower upper, s.members = lower ++ upper ∧ s.add v = (true, ⟨lower ++ v :: upper⟩) ∧
      (∀ m ∈ lower, Precedes m v) ∧ ∀ m ∈ upper, Precedes v m := by
  obtain ⟨lower, upper, hmembers, hplace, hlower, hupper⟩ := exists_place h v
  have hcontains : ¬ s.contains v = true := by
    rw [contains_iff h]
    rintro ⟨m, hm, htie⟩
    exact hnew m hm htie
  refine ⟨lower, upper, hmembers, ?_, hlower, fun m hm ↦ ?_⟩
  · rw [add, if_neg hcontains, hplace, hmembers, insertIdx_append]
  · have hm' : m ∈ s.members := hmembers ▸ List.mem_append_right lower hm
    exact precedes_of_not_of_not (hupper m hm) (hnew m hm')

/-! ### What a set keeps -/

/-- The members of a set are the first of each class of versions presented to it, ascending. -/
structure Collects (s : VersionSet) (presented : List Version) : Prop where
  ascending : s.members.Pairwise Precedes
  covers : ∀ v ∈ presented, ∃ m ∈ s.members, Ties m v
  first : ∀ m ∈ s.members, ∃ before after, presented = before ++ m :: after ∧
    ∀ v ∈ before, ¬ Ties v m

/-- The set behind adding versions one after the other. -/
def addAll (s : VersionSet) (vs : List Version) : VersionSet := vs.foldl (fun t v ↦ (t.add v).2) s

theorem collects_empty : Collects {} [] := ⟨.nil, nofun, nofun⟩

namespace Collects

/-- A version is new exactly if no member ties with it. -/
theorem add_eq_true_iff (h : s.Collects presented) (v : Version) :
    (s.add v).1 = true ↔ ∀ m ∈ s.members, ¬ Ties m v := by
  by_cases htie : ∃ m ∈ s.members, Ties m v
  · rw [add_of_exists_ties h.ascending htie]
    obtain ⟨m, hm, htie⟩ := htie
    exact ⟨nofun, fun hnew ↦ absurd htie (hnew m hm)⟩
  · have hnew : ∀ m ∈ s.members, ¬ Ties m v := fun m hm hv ↦ htie ⟨m, hm, hv⟩
    obtain ⟨lower, upper, -, hadd, -, -⟩ := add_of_forall_not_ties h.ascending hnew
    rw [hadd]
    exact ⟨fun _ ↦ hnew, fun _ ↦ rfl⟩

/-- A member that was the first of its class stays the first when one version more is presented. -/
theorem first_append (h : s.Collects presented) (v : Version) {m : Version} (hm : m ∈ s.members) :
    ∃ before after, presented ++ [v] = before ++ m :: after ∧ ∀ w ∈ before, ¬ Ties w m := by
  obtain ⟨before, after, hpresented, hbefore⟩ := h.first m hm
  refine ⟨before, after ++ [v], ?_, hbefore⟩
  rw [hpresented, List.append_assoc, List.cons_append]

/-- One version more is presented. -/
theorem add (h : s.Collects presented) (v : Version) :
    (s.add v).2.Collects (presented ++ [v]) := by
  by_cases htie : ∃ m ∈ s.members, Ties m v
  · rw [add_of_exists_ties h.ascending htie]
    refine ⟨h.ascending, ?_, fun m ↦ h.first_append v⟩
    rw [List.forall_mem_append, List.forall_mem_singleton]
    exact ⟨h.covers, htie⟩
  · have hnew : ∀ m ∈ s.members, ¬ Ties m v := fun m hm hv ↦ htie ⟨m, hm, hv⟩
    obtain ⟨lower, upper, hmembers, hadd, hlower, hupper⟩ := add_of_forall_not_ties h.ascending hnew
    have hmem : ∀ m, m ∈ lower ++ v :: upper ↔ m = v ∨ m ∈ s.members := by
      intro m
      rw [hmembers, List.mem_append, List.mem_append, List.mem_cons, or_left_comm]
    have hascending := h.ascending
    rw [hmembers, List.pairwise_append] at hascending
    obtain ⟨hl, hu, hlu⟩ := hascending
    rw [hadd]
    refine ⟨?_, ?_, ?_⟩
    · refine List.pairwise_append.mpr ⟨hl, List.pairwise_cons.mpr ⟨hupper, hu⟩, fun m hm ↦ ?_⟩
      exact List.forall_mem_cons.mpr ⟨hlower m hm, hlu m hm⟩
    · rw [List.forall_mem_append, List.forall_mem_singleton]
      refine ⟨fun w hw ↦ ?_, v, (hmem v).mpr (.inl rfl), ⟨rfl, rfl, rfl, rfl⟩⟩
      obtain ⟨m, hm, hties⟩ := h.covers w hw
      exact ⟨m, (hmem m).mpr (.inr hm), hties⟩
    · intro m hm
      obtain rfl | hm := (hmem m).mp hm
      · -- No version presented earlier ties with the new one, since a member would tie with both.
        refine ⟨presented, [], rfl, fun w hw hties ↦ ?_⟩
        obtain ⟨m', hm', hties'⟩ := h.covers w hw
        exact hnew m' hm' (hties'.trans hties)
      · exact h.first_append v hm

/-- Versions more are presented, one after the other. -/
theorem addAll (h : s.Collects presented) (vs : List Version) :
    (s.addAll vs).Collects (presented ++ vs) := by
  induction vs generalizing s presented with
  | nil => rwa [List.append_nil]
  | cons v vs ih =>
    rw [List.append_cons]
    exact ih (h.add v)

end Collects

/-! ### Operations -/

/-- The versions that entries are read as, up to the first text that is no version. -/
def Entry.readAll : List Entry → List Version
  | [] => []
  | entry :: rest =>
    match entry.read with
    | .ok v => v :: readAll rest
    | .error _ => []

/-- An operation that adds to a set. -/
inductive Operation
  | add (entry : Entry)
  | collect (entry : Entry)
  | extend (entries : List Entry)
  deriving DecidableEq

/-- The versions that an operation presents to a set. -/
def Operation.presents : Operation → List Version
  | add entry | collect entry => Entry.readAll [entry]
  | extend entries => Entry.readAll entries

/-- The set that an operation leaves. -/
def apply (s : VersionSet) : Operation → VersionSet
  | .add entry => (s.addEntry entry).2
  | .collect entry => (s.collect entry).2
  | .extend entries => (s.extendEntries entries).2

/-- An entry that can be read is added as the version it is read as. -/
theorem addEntry_of_ok {entry : Entry} {v : Version} (h : entry.read = .ok v) :
    s.addEntry entry = (.ok (s.add v).1, (s.add v).2) := by
  rw [addEntry, h]

/-- An entry that cannot be read leaves the set as it is. -/
theorem addEntry_of_error {entry : Entry} {failure : Failure} (h : entry.read = .error failure) :
    s.addEntry entry = (.error failure, s) := by
  rw [addEntry, h]

private theorem addEntry_snd (entry : Entry) :
    (s.addEntry entry).2 = s.addAll (Entry.readAll [entry]) := by
  rw [Entry.readAll]
  cases hread : entry.read with
  | error failure =>
    rw [addEntry_of_error hread]
    rfl
  | ok v =>
    rw [addEntry_of_ok hread]
    rfl

/-- To collect is to add without an answer. -/
theorem collect_eq (s : VersionSet) (entry : Entry) :
    s.collect entry = ((s.addEntry entry).1.map fun _ ↦ (), (s.addEntry entry).2) := by
  rw [collect]
  cases s.addEntry entry with
  | mk outcome t => cases outcome <;> rfl

private theorem collect_of_ok {entry : Entry} {v : Version} (h : entry.read = .ok v) :
    s.collect entry = (.ok (), (s.add v).2) := by
  rw [collect_eq, addEntry_of_ok h]
  rfl

private theorem collect_of_error {entry : Entry} {failure : Failure}
    (h : entry.read = .error failure) : s.collect entry = (.error failure, s) := by
  rw [collect_eq, addEntry_of_error h]
  rfl

/-- Entries that can be read are added one after the other before the rest. -/
theorem extendEntries_append {good : List Entry} {vs : List Version}
    (h : good.mapM Entry.read = .ok vs) (rest : List Entry) :
    s.extendEntries (good ++ rest) = (s.addAll vs).extendEntries rest := by
  induction good generalizing s vs with
  | nil =>
    cases h
    rfl
  | cons entry good ih =>
    obtain ⟨v, vs, hv, hvs, rfl⟩ := Outcome.mapM_cons_eq_ok_iff.mp h
    rw [List.cons_append, extendEntries, collect_of_ok hv]
    exact ih hvs

theorem extendEntries_of_ok {entries : List Entry} {vs : List Version}
    (h : entries.mapM Entry.read = .ok vs) : s.extendEntries entries = (.ok (), s.addAll vs) := by
  have happend := @extendEntries_append s entries vs h []
  rwa [List.append_nil] at happend

/-- The first entry that cannot be read ends an extension; those before it stay added. -/
theorem extendEntries_append_of_error {good rest : List Entry} {bad : Entry} {vs : List Version}
    {failure : Failure} (h : good.mapM Entry.read = .ok vs) (hbad : bad.read = .error failure) :
    s.extendEntries (good ++ bad :: rest) = (.error failure, s.addAll vs) := by
  rw [extendEntries_append h, extendEntries, collect_of_error hbad]

/-- An extension leaves the set with the entries in front of the first that cannot be read. -/
theorem extendEntries_snd (entries : List Entry) :
    (s.extendEntries entries).2 = s.addAll (Entry.readAll entries) := by
  induction entries generalizing s with
  | nil => rfl
  | cons entry rest ih =>
    rw [extendEntries, Entry.readAll]
    cases hread : entry.read with
    | error failure =>
      rw [collect_of_error hread]
      rfl
    | ok v =>
      rw [collect_of_ok hread]
      exact ih

/-- An operation adds what it presents. -/
theorem apply_eq (operation : Operation) : s.apply operation = s.addAll operation.presents := by
  cases operation with
  | add entry => exact addEntry_snd entry
  | collect entry =>
    rw [apply, collect_eq]
    exact addEntry_snd entry
  | extend entries => exact extendEntries_snd entries

/-- However operations follow each other, a set collects what they present. -/
theorem Collects.foldl_apply (h : s.Collects presented) (history : List Operation) :
    (history.foldl apply s).Collects (presented ++ history.flatMap Operation.presents) := by
  induction history generalizing s presented with
  | nil => rwa [List.flatMap_nil, List.append_nil]
  | cons operation history ih =>
    rw [List.flatMap_cons, ← List.append_assoc, List.foldl_cons, apply_eq]
    exact ih (h.addAll operation.presents)

/-! ### Looking up values -/

/-- A value is found exactly if it is the text of a version that ties with a member. -/
theorem containsDatum_eq_ok_true_iff (h : s.Collects presented) (d : Datum) :
    s.containsDatum d = .ok true ↔
      ∃ text v, d = .text text ∧ Version.parse text = .ok v ∧ ∃ m ∈ s.members, Ties m v := by
  constructor
  · intro hfound
    cases d with
    | text text =>
      rw [containsDatum] at hfound
      split at hfound
      · obtain ⟨v, hv, hin⟩ := Outcome.bind_eq_ok_iff.mp hfound
        rw [Except.ok.injEq, contains_iff h.ascending] at hin
        exact ⟨text, v, rfl, hv, hin⟩
      · cases hfound
    | _ => cases hfound
  · rintro ⟨text, v, rfl, hv, hin⟩
    rw [containsDatum, if_pos (isValid_of_parse_eq_ok hv), hv]
    exact congrArg Except.ok ((contains_iff h.ascending v).mpr hin)

/-- Looking a value up fails only for a numeral that is too long. -/
theorem of_containsDatum_eq_error {d : Datum} {failure : Failure}
    (h : s.containsDatum d = .error failure) :
    ∃ count, Text.maxDigits < count ∧ failure = .tooManyDigits count := by
  cases d with
  | text text =>
    rw [containsDatum] at h
    split at h
    · next hvalid =>
      obtain h | ⟨_, _, h⟩ := Outcome.bind_eq_error_iff.mp h
      · exact of_parse_eq_error hvalid h
      · cases h
    · cases h
  | _ => cases h

/-! ### Any history -/

/-- A version set is the sorted, first-wins deduplication of what was added. From any entries that
can be read, and by any operations, some of which may fail, a set comes about whose members strictly
ascend and are the first of each class of the versions presented. Adding tells whether no member
ties; an entry that cannot be read leaves the set as it is, and an extension by such an entry leaves
what adding the ones before it leaves. A version is in the set exactly if a member ties with it, and
so is a text of such a version, and no other value. -/
theorem collects_foldl_apply {initial : List Entry} {versions : List Version}
    (h : initial.mapM Entry.read = .ok versions) (history : List Operation) :
    ∃ s₀, ofEntries initial = .ok s₀ ∧
      let s := history.foldl apply s₀
      s.Collects (versions ++ history.flatMap Operation.presents) ∧
      (∀ entry v, entry.read = .ok v → s.collect entry = (.ok (), (s.add v).2) ∧
        ∃ new, s.addEntry entry = (.ok new, (s.add v).2) ∧
          (new = true ↔ ∀ m ∈ s.members, ¬ Ties m v)) ∧
      (∀ entry failure, entry.read = .error failure →
        s.addEntry entry = (.error failure, s) ∧ s.collect entry = (.error failure, s)) ∧
      (∀ good vs, good.mapM Entry.read = .ok vs →
        s.extendEntries good = (.ok (), s.addAll vs) ∧
        ∀ bad rest failure, bad.read = .error failure →
          s.extendEntries (good ++ bad :: rest) = (.error failure, s.addAll vs)) ∧
      (∀ v, s.contains v = true ↔ ∃ m ∈ s.members, Ties m v) ∧
      ∀ d, (s.containsDatum d = .ok true ↔
          ∃ text v, d = .text text ∧ Version.parse text = .ok v ∧ ∃ m ∈ s.members, Ties m v) ∧
        ∀ failure, s.containsDatum d = .error failure →
          ∃ count, Text.maxDigits < count ∧ failure = .tooManyDigits count := by
  refine ⟨addAll {} versions, ?_, ?_⟩
  · rw [ofEntries, extendEntries_of_ok h]
  · intro s
    have hs : s.Collects (versions ++ history.flatMap Operation.presents) :=
      (collects_empty.addAll versions).foldl_apply history
    refine ⟨hs, ?_, ?_, ?_, contains_iff hs.ascending, ?_⟩
    · intro entry v hread
      exact ⟨collect_of_ok hread, _, addEntry_of_ok hread, hs.add_eq_true_iff v⟩
    · intro entry failure hread
      exact ⟨addEntry_of_error hread, collect_of_error hread⟩
    · intro good vs hgood
      exact ⟨extendEntries_of_ok hgood, fun bad rest failure hbad ↦
        extendEntries_append_of_error hgood hbad⟩
    · intro d
      exact ⟨containsDatum_eq_ok_true_iff hs d, fun failure ↦ of_containsDatum_eq_error⟩

/-- Of versions that differ in their build metadata the first one is presented before the others,
and an extension that fails presents what stands before the failure. -/
theorem collects_build_variants :
    let released (major : Nat) (build : List Word) : Version := ⟨major, 0, 0, [], build⟩
    let initial := [.text "2.0.0", .version (released 1 [⟨['a'], rfl⟩])]
    let history := [Operation.add (.text "1.0.0+b"), .collect (.text "1.0"),
      .extend [.text "0.0.0", .text "v3", .text "3.0.0"]]
    initial.mapM Entry.read = .ok [released 2 [], released 1 [⟨['a'], rfl⟩]] ∧
    ∃ s₀, ofEntries initial = .ok s₀ ∧
      (history.foldl apply s₀).Collects
        [released 2 [], released 1 [⟨['a'], rfl⟩], released 1 [⟨['b'], rfl⟩], released 0 []] := by
  intro released initial history
  have hinitial : initial.mapM Entry.read = .ok [released 2 [], released 1 [⟨['a'], rfl⟩]] := by
    rfl
  have hpresents : history.flatMap Operation.presents =
      [released 1 [⟨['b'], rfl⟩], released 0 []] := by
    decide +kernel
  obtain ⟨s₀, hs₀, hcollects, _⟩ := collects_foldl_apply hinitial history
  rw [hpresents] at hcollects
  exact ⟨hinitial, s₀, hs₀, hcollects⟩

end VersionSet

end VersionRange
