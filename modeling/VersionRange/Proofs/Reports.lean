import VersionRange.Proofs.Printing
import VersionRange.Proofs.Queries

/-!
# The commands that check and filter

A command reads its range, then its versions one after the other. To check prints a verdict on each
version before the first that cannot be read, and succeeds if the range and all versions can be read
and every version satisfies the range. To filter prints nothing before all versions are read; then
it prints the first of those that tie, as far as they satisfy the range, in ascending order, or the
last of these alone.
-/

namespace VersionRange

/-! ### Versions that are selected -/

namespace Version

/-- A version is the first one of those in a list that tie with it. -/
def IsFirst (vs : List Version) (v : Version) : Prop :=
  ∃ before after, vs = before ++ v :: after ∧ ∀ w ∈ before, ¬ Ties w v

private theorem IsFirst.mem {vs : List Version} {v : Version} (h : IsFirst vs v) : v ∈ vs := by
  obtain ⟨before, after, rfl, -⟩ := h
  simp

/-- There is one first version of those that tie. -/
theorem IsFirst.eq_of_ties {vs : List Version} {v w : Version} (hv : IsFirst vs v)
    (hw : IsFirst vs w) (h : Ties v w) : v = w := by
  obtain ⟨before, after, rfl, hbefore⟩ := hv
  obtain ⟨before', after', heq, hbefore'⟩ := hw
  rcases List.append_eq_append_iff.mp heq with ⟨between, rfl, hrest⟩ | ⟨between, rfl, hrest⟩
  · cases between with
    | nil => exact (List.cons.inj hrest).1
    | cons u between =>
      obtain rfl : v = u := (List.cons.inj hrest).1
      exact absurd h (hbefore' v (by simp))
  · cases between with
    | nil => exact (List.cons.inj hrest).1.symm
    | cons u between =>
      obtain rfl : w = u := (List.cons.inj hrest).1
      exact absurd h.symm (hbefore w (by simp))

end Version

/-- Of those that tie the first one, if it satisfies an expression, in ascending precedence. -/
structure Expression.Selects (e : Expression) (vs selected : List Version) : Prop where
  ascending : selected.Pairwise Version.Precedes
  mem_iff : ∀ v, v ∈ selected ↔ Version.IsFirst vs v ∧ Expression.admits e v = true

/-- A list and an expression determine what is selected. -/
theorem Expression.Selects.eq {e : Expression} {vs xs ys : List Version} (hx : e.Selects vs xs)
    (hy : e.Selects vs ys) : xs = ys :=
  Version.eq_of_pairwise_precedes hx.ascending hy.ascending fun v ↦
    (hx.mem_iff v).trans (hy.mem_iff v).symm

namespace VersionSet

variable {s : VersionSet} {vs : List Version}

/-- The members of a set are the first ones of the versions presented to it. -/
theorem Collects.mem_iff_isFirst (h : s.Collects vs) (v : Version) :
    v ∈ s.members ↔ Version.IsFirst vs v := by
  constructor
  · exact h.first v
  · intro hv
    obtain ⟨m, hm, hties⟩ := h.covers v hv.mem
    rwa [← Version.IsFirst.eq_of_ties (h.first m hm) hv hties]

private theorem Collects.selects_filter (h : s.Collects vs) (e : Expression) :
    e.Selects vs (s.filter e) where
  ascending := h.ascending.filter _
  mem_iff v := by rw [filter, List.mem_filter, h.mem_iff_isFirst]

end VersionSet

namespace CommandLine

/-! ### Arguments -/

variable {given flags : List String} {argument name : String}

private theorem isOption_eq_false (h : argument.toList.head? ≠ some '-') :
    isOption argument = false := by
  unfold isOption
  split
  · next heq => exact absurd (congrArg List.head? heq) h
  · rfl

private theorem ne_end_of_isOption (h : isOption argument = false) : argument ≠ "--" := by
  rintro rfl
  exact absurd h (by decide)

/-- Arguments that are no options are those of the command, in their order. -/
theorem arguments_of_forall {option : Option String} (h : ∀ a ∈ given, isOption a = false) :
    arguments option given = some (given, false) := by
  induction given with
  | nil => rfl
  | cons a given ih =>
    rw [List.forall_mem_cons] at h
    simp [arguments, ne_end_of_isOption h.1, h.1, ih h.2]

/-- The option of a command may stand anywhere among its arguments. -/
theorem arguments_append_option {option : String} {before behind : List String}
    (hoption : isOption option = true) (hend : option ≠ "--")
    (h : ∀ a ∈ before ++ behind, isOption a = false) :
    arguments (some option) (before ++ option :: behind) = some (before ++ behind, true) := by
  induction before with
  | nil =>
    rw [List.nil_append] at h
    simp [arguments, hend, hoption, arguments_of_forall h]
  | cons a before ih =>
    rw [List.cons_append, List.forall_mem_cons] at h
    simp [arguments, ne_end_of_isOption h.1, h.1, ih h.2]

/-- Options for more messages stand in front of the command. -/
theorem exists_leadingOptions (hflags : ∀ flag ∈ flags, flag = "-v" ∨ flag = "--verbose")
    (hname : isOption name = false) (rest : List String) (verbose : Bool) :
    ∃ verbose', leadingOptions verbose (flags ++ name :: rest) = some (verbose', name :: rest) := by
  induction flags generalizing verbose with
  | nil =>
    exact ⟨verbose, by simp [leadingOptions, ne_end_of_isOption hname, hname]⟩
  | cons flag flags ih =>
    rw [List.forall_mem_cons] at hflags
    obtain ⟨verbose', hrest⟩ := ih hflags.2 true
    refine ⟨verbose', ?_⟩
    rcases hflags.1 with rfl | rfl
    · exact hrest
    · exact hrest

/-- What a command answers does not depend on the options in front of it but for its messages. -/
theorem exists_run_eq (hflags : ∀ flag ∈ flags, flag = "-v" ∨ flag = "--verbose")
    (hname : isOption name = false) {rest : List String} {command : Command}
    (hcommand : Command.ofArguments? name rest = some command)
    (environment : String → Option String) :
    ∃ verbose, run (flags ++ name :: rest) environment =
      some (Invocation.report ⟨verbose, command⟩ environment) := by
  obtain ⟨verbose, hleading⟩ := exists_leadingOptions hflags hname rest false
  refine ⟨verbose, ?_⟩
  rw [run, Invocation.ofArguments?, hleading]
  simp [hcommand]

/-! ### Commands with their arguments -/

namespace Command

private theorem ofArguments?_check {range : String} {versions : List String}
    (hversions : versions ≠ []) (h : ∀ a ∈ range :: versions, isOption a = false) :
    ofArguments? "check" (range :: versions) = some (.check range versions) := by
  obtain ⟨version, versions, rfl⟩ := List.exists_cons_of_ne_nil hversions
  simp [ofArguments?, arguments_of_forall h]

private theorem ofArguments?_filter {range : String} {versions : List String}
    (h : ∀ a ∈ range :: versions, isOption a = false) :
    ofArguments? "filter" (range :: versions) = some (.filter range versions false) := by
  simp [ofArguments?, arguments_of_forall h]

private theorem ofArguments?_filter_latest {range : String} {versions before behind : List String}
    (hsplit : before ++ behind = range :: versions)
    (h : ∀ a ∈ range :: versions, isOption a = false) :
    ofArguments? "filter" (before ++ "--latest" :: behind) =
      some (.filter range versions true) := by
  rw [← hsplit] at h
  have hfound : arguments (some "--latest") (before ++ "--latest" :: behind) =
      some (range :: versions, true) := by
    rw [arguments_append_option (by decide) (by decide) h, hsplit]
  simp [ofArguments?, hfound]

end Command

/-! ### Outcomes -/

variable {text range : String} {texts : List String} {v : Version} {vs : List Version}
  {e : Expression} {failure : Failure} {limits : Limits} {environment : String → Option String}
  {verbose : Bool}

namespace Report

/-- What a report answers apart from its messages. -/
def outcome (r : Report) : Nat × List String := (r.status, r.output)

/-- A failure is told in messages alone. -/
theorem outcome_ofFailure (failure : Failure) (text : List Char) :
    (ofFailure failure text).outcome = (1, []) := by
  unfold ofFailure
  split <;> rfl

private theorem of_outcome {r : Report} {status : Nat} {output : List String}
    (h : r.outcome = (status, output)) : r.status = status ∧ r.standardOutput = printed output := by
  cases h
  exact ⟨rfl, rfl⟩

end Report

open Report

private theorem withVersion_of_ok {report : Version → Report} (h : Version.parse text = .ok v) :
    withVersion text report = report v := by
  rw [withVersion, h]

private theorem outcome_withVersion_of_error {report : Version → Report}
    (h : Version.parse text = .error failure) : (withVersion text report).outcome = (1, []) := by
  rw [withVersion, h]
  apply outcome_ofFailure

private theorem outcome_withRange_of_ok {report : Expression → Report}
    (hlimits : Limits.fromEnvironment environment = .ok limits)
    (h : Expression.parse range limits = .ok e) :
    (withRange environment verbose range report).outcome = (report e).outcome := by
  rw [withRange, hlimits]
  simp only [h]
  split <;> rfl

private theorem outcome_withRange_of_error {report : Expression → Report}
    (hlimits : Limits.fromEnvironment environment = .ok limits)
    (h : Expression.parse range limits = .error failure) :
    (withRange environment verbose range report).outcome = (1, []) := by
  rw [withRange, hlimits]
  simp only [h]
  apply outcome_ofFailure

/-! ### Verdicts -/

/-- The line that says whether a version satisfies a range. -/
def verdict (range : String) (e : Expression) (v : Version) : String :=
  v.toString ++ (if Expression.admits e v then ": satisfies " else ": does not satisfy ") ++ range

private theorem outcome_checkReport_cons_of_error (rest : List String)
    (h : Version.parse text = .error failure) :
    (checkReport range e (text :: rest)).outcome = (1, []) := by
  rw [checkReport]
  exact outcome_withVersion_of_error h

private theorem outcome_checkReport_cons_of_ok (rest : List String)
    (h : Version.parse text = .ok v) : (checkReport range e (text :: rest)).outcome =
      (if Expression.admits e v then (checkReport range e rest).status else 1,
        verdict range e v :: (checkReport range e rest).output) := by
  rw [checkReport, withVersion_of_ok h]
  rfl

/-- There is a verdict on each version in front of a text that cannot be read, and on no other. -/
theorem output_checkReport {front rest : List String} (h : front.mapM Version.parse = .ok vs)
    (hrest : ∀ text ∈ rest.head?, ∃ failure, Version.parse text = .error failure) :
    (checkReport range e (front ++ rest)).output = vs.map (verdict range e) := by
  -- By induction on the texts that can be read; what is behind them is met in the base case.
  induction front generalizing vs with
  | nil =>
    cases h
    cases rest with
    | nil => rfl
    | cons text rest =>
      obtain ⟨failure, htext⟩ := hrest text rfl
      exact congrArg Prod.snd (outcome_checkReport_cons_of_error rest htext)
  | cons text front ih =>
    obtain ⟨v, vs, hv, hvs, rfl⟩ := Outcome.mapM_cons_eq_ok_iff.mp h
    rw [List.map_cons, ← ih hvs]
    exact congrArg Prod.snd (outcome_checkReport_cons_of_ok (front ++ rest) hv)

/-- The status says whether all texts are read as versions that satisfy the range. -/
theorem status_checkReport (range : String) (e : Expression) (texts : List String) :
    ((checkReport range e texts).status = 0 ∨ (checkReport range e texts).status = 1) ∧
    ((checkReport range e texts).status = 0 ↔
      ∀ text ∈ texts, ∃ v, Version.parse text = .ok v ∧ Expression.admits e v = true) := by
  induction texts with
  | nil => exact ⟨.inl rfl, fun _ ↦ nofun, fun _ ↦ rfl⟩
  | cons text rest ih =>
    rw [List.forall_mem_cons]
    cases hv : Version.parse text with
    | error failure =>
      have hstatus : (checkReport range e (text :: rest)).status = 1 :=
        congrArg Prod.fst (outcome_checkReport_cons_of_error rest hv)
      simp [hstatus]
    | ok v =>
      have hstatus : (checkReport range e (text :: rest)).status =
          if Expression.admits e v then (checkReport range e rest).status else 1 :=
        congrArg Prod.fst (outcome_checkReport_cons_of_ok rest hv)
      rw [hstatus]
      by_cases hadmits : Expression.admits e v = true
      · simpa [hadmits] using ih
      · simp [hadmits]

private theorem outcome_check_of_ok (hlimits : Limits.fromEnvironment environment = .ok limits)
    (hrange : Expression.parse range limits = .ok e) :
    (Invocation.report ⟨verbose, .check range texts⟩ environment).outcome =
      (checkReport range e texts).outcome :=
  outcome_withRange_of_ok hlimits hrange

private theorem outcome_check_of_error (hlimits : Limits.fromEnvironment environment = .ok limits)
    (hrange : Expression.parse range limits = .error failure) :
    (Invocation.report ⟨verbose, .check range texts⟩ environment).outcome = (1, []) :=
  outcome_withRange_of_error hlimits hrange

/-! ### Selections -/

private theorem outcome_collect_cons_of_error {report : VersionSet → Report} (s : VersionSet)
    (rest : List String) (h : Version.parse text = .error failure) :
    (collect verbose report s (text :: rest)).outcome = (1, []) := by
  rw [collect]
  exact outcome_withVersion_of_error h

/-- A version goes into the set; that it is a duplicate is told in messages alone. -/
theorem outcome_collect_cons_of_ok {report : VersionSet → Report} (s : VersionSet)
    (rest : List String) (h : Version.parse text = .ok v) :
    (collect verbose report s (text :: rest)).outcome =
      (collect verbose report (s.add v).2 rest).outcome := by
  rw [collect, withVersion_of_ok h]
  dsimp only
  split <;> rfl

/-- If all texts can be read, the versions are collected. -/
theorem outcome_collect_of_ok {report : VersionSet → Report}
    (h : texts.mapM Version.parse = .ok vs) (s : VersionSet) :
    (collect verbose report s texts).outcome = (report (s.addAll vs)).outcome := by
  induction texts generalizing s vs with
  | nil =>
    cases h
    rfl
  | cons text rest ih =>
    obtain ⟨v, vs, hv, hvs, rfl⟩ := Outcome.mapM_cons_eq_ok_iff.mp h
    rw [outcome_collect_cons_of_ok s rest hv]
    exact ih hvs (s.add v).2

/-- If a text cannot be read, nothing is reported of those in front of it. -/
theorem outcome_collect_of_error {report : VersionSet → Report} (hmem : text ∈ texts)
    (h : Version.parse text = .error failure) (s : VersionSet) :
    (collect verbose report s texts).outcome = (1, []) := by
  induction texts generalizing s with
  | nil => cases hmem
  | cons first rest ih =>
    cases hfirst : Version.parse first with
    | error failure' => exact outcome_collect_cons_of_error s rest hfirst
    | ok v =>
      have hne : text ≠ first := by
        rintro rfl
        rw [h] at hfirst
        cases hfirst
      rw [outcome_collect_cons_of_ok s rest hfirst]
      exact ih (List.mem_of_ne_of_mem hne hmem) (s.add v).2

private theorem outcome_filterReport_latest_of_nil {s : VersionSet} (h : s.filter e = []) :
    (filterReport range e true s).outcome = (1, []) := by
  rw [filterReport, if_pos rfl, VersionSet.latest?_some, h]
  rfl

/-- The highest member that satisfies the range is shown alone. -/
theorem outcome_filterReport_latest_of_concat {s : VersionSet} {front : List Version}
    (h : s.filter e = front ++ [v]) :
    (filterReport range e true s).outcome = (0, [v.toString]) := by
  rw [filterReport, if_pos rfl, VersionSet.latest?_some, h, List.getLast?_concat]
  rfl

private theorem outcome_filter_of_ok {versions : List String}
    (hlimits : Limits.fromEnvironment environment = .ok limits)
    (hrange : Expression.parse range limits = .ok e)
    (hversions : versions.mapM Version.parse = .ok vs) (latest : Bool) :
    (Invocation.report ⟨verbose, .filter range versions latest⟩ environment).outcome =
      (filterReport range e latest (VersionSet.addAll {} vs)).outcome := by
  rw [Invocation.report, outcome_withRange_of_ok hlimits hrange, outcome_collect_of_ok hversions]

private theorem outcome_filter_of_error {versions : List String}
    (hlimits : Limits.fromEnvironment environment = .ok limits)
    (h : (∃ failure, Expression.parse range limits = .error failure) ∨
      ∃ text ∈ versions, ∃ failure, Version.parse text = .error failure) (latest : Bool) :
    (Invocation.report ⟨verbose, .filter range versions latest⟩ environment).outcome =
      (1, []) := by
  rw [Invocation.report]
  cases hrange : Expression.parse range limits with
  | error failure => exact outcome_withRange_of_error hlimits hrange
  | ok e =>
    rw [outcome_withRange_of_ok hlimits hrange]
    rcases h with ⟨failure, hfails⟩ | ⟨text, hmem, failure, hfails⟩
    · rw [hrange] at hfails
      cases hfails
    · exact outcome_collect_of_error hmem hfails {}

/-! ### What the commands print -/

private theorem printed_toString (vs : List Version) :
    printed (vs.map Version.toString) = lines (vs.map Version.toString) := by
  apply printed_eq_lines
  intro line hline c hc
  obtain ⟨v, -, rfl⟩ := List.mem_map.mp hline
  exact v.ne_escape_of_mem_toString hc

private theorem printed_verdict (hrange : Expression.parse range limits = .ok e)
    (vs : List Version) :
    printed (vs.map (verdict range e)) = lines (vs.map (verdict range e)) := by
  apply printed_eq_lines
  intro line hline c hc
  obtain ⟨v, -, rfl⟩ := List.mem_map.mp hline
  rw [verdict, String.toList_append, String.toList_append, List.mem_append, List.mem_append] at hc
  rcases hc with (hc | hc) | hc
  · exact v.ne_escape_of_mem_toString hc
  · rintro rfl
    split at hc <;> exact absurd hc (by decide)
  · exact Expression.ne_escape_of_parse hrange c hc

/-- The status of a check is the conjunction over its arguments: it succeeds if the range and all
versions can be read and every version satisfies the range, and otherwise its status is 1. It
prints a verdict on each version in front of the first text that cannot be read, in the order of
the arguments, and nothing if the range cannot be read. -/
theorem check_answers {versions : List String}
    (hlimits : Limits.fromEnvironment environment = .ok limits)
    (hflags : ∀ flag ∈ flags, flag = "-v" ∨ flag = "--verbose") (hversions : versions ≠ [])
    (hplain : ∀ argument ∈ range :: versions, argument.toList.head? ≠ some '-') :
    ∃ report, run (flags ++ "check" :: range :: versions) environment = some report ∧
      (report.status = 0 ∨ report.status = 1) ∧
      (report.status = 0 ↔ ∃ e, Expression.parse range limits = .ok e ∧
        ∀ text ∈ versions, ∃ v, Version.parse text = .ok v ∧ Expression.admits e v = true) ∧
      (∀ failure, Expression.parse range limits = .error failure → report.standardOutput = "") ∧
      ∀ e, Expression.parse range limits = .ok e →
        ∃ front vs rest, versions = front ++ rest ∧ front.mapM Version.parse = .ok vs ∧
          (∀ text ∈ rest.head?, ∃ failure, Version.parse text = .error failure) ∧
          report.standardOutput = lines (vs.map (verdict range e)) := by
  have hcommand := Command.ofArguments?_check hversions fun a ha ↦ isOption_eq_false (hplain a ha)
  obtain ⟨verbose, hrun⟩ := exists_run_eq hflags (by decide) hcommand environment
  refine ⟨_, hrun, ?_⟩
  cases hrange : Expression.parse range limits with
  | error failure =>
    obtain ⟨hstatus, houtput⟩ := of_outcome (outcome_check_of_error hlimits hrange)
    refine ⟨.inr hstatus, ?_, fun _ _ ↦ houtput, nofun⟩
    simp [hstatus]
  | ok e =>
    obtain ⟨hstatus, houtput⟩ := of_outcome (outcome_check_of_ok hlimits hrange)
    obtain ⟨hbinary, hzero⟩ := status_checkReport range e versions
    refine ⟨?_, ?_, nofun, ?_⟩
    · rwa [hstatus]
    · rw [hstatus, hzero]
      simp
    · rintro _ ⟨⟩
      obtain ⟨front, vs, rest, hsplit, hfront, hrest⟩ :=
        Outcome.exists_readable_prefix Version.parse versions
      refine ⟨front, vs, rest, hsplit, hfront, hrest, ?_⟩
      rw [houtput, hsplit, output_checkReport hfront hrest, printed_verdict hrange]

/-- A check that meets a text that cannot be read fails, with its verdicts on those in front. -/
theorem check_answers_malformed_argument :
    ∃ report, run ["-v", "check", "1.x", "1.2.0", "2.0.0", "1.0", "1.3.0"] (fun _ ↦ none) =
        some report ∧
      report.status = 1 ∧
      report.standardOutput = "1.2.0: satisfies 1.x\n2.0.0: does not satisfy 1.x\n" := by
  have hlimits : Limits.fromEnvironment (fun _ ↦ none) = .ok {} := by decide +kernel
  obtain ⟨report, hrun, hbinary, hzero, -, -⟩ :=
    @check_answers ["-v"] "1.x" {} (fun _ ↦ none) ["1.2.0", "2.0.0", "1.0", "1.3.0"] hlimits
      (by decide) (by decide) (by decide)
  refine ⟨report, hrun, hbinary.resolve_left fun hstatus ↦ ?_, ?_⟩
  · obtain ⟨e, -, hall⟩ := hzero.mp hstatus
    obtain ⟨v, hv, -⟩ := hall "1.0" (by decide)
    have hfails : (Version.parse "1.0").isOk = false := by decide +kernel
    rw [hv] at hfails
    cases hfails
  · have hprints : (run (["-v"] ++ ["check", "1.x", "1.2.0", "2.0.0", "1.0", "1.3.0"])
        (fun _ ↦ none)).map Report.standardOutput =
          some "1.2.0: satisfies 1.x\n2.0.0: does not satisfy 1.x\n" := by
      decide +kernel
    rw [hrun] at hprints
    exact Option.some.inj hprints

/-- A filter with and without the option for the highest version. If the range and all versions can
be read, it prints the first of those that tie, as far as they satisfy the range, in ascending
order; with the option it prints the last of these lines, or fails without a line if there is
none. If the range or a version cannot be read, both print nothing and fail. -/
theorem filter_answers {versions : List String}
    (hlimits : Limits.fromEnvironment environment = .ok limits)
    (hflags : ∀ flag ∈ flags, flag = "-v" ∨ flag = "--verbose")
    (hplain : ∀ argument ∈ range :: versions, argument.toList.head? ≠ some '-') :
    ∃ all, run (flags ++ "filter" :: range :: versions) environment = some all ∧
      ∀ before behind, before ++ behind = range :: versions →
        ∃ latest, run (flags ++ "filter" :: (before ++ "--latest" :: behind)) environment =
            some latest ∧
          (∀ e vs, Expression.parse range limits = .ok e → versions.mapM Version.parse = .ok vs →
            ∃ selected, e.Selects vs selected ∧
              all.status = 0 ∧ all.standardOutput = lines (selected.map Version.toString) ∧
              (selected = [] → latest.status = 1 ∧ latest.standardOutput = "") ∧
              ∀ front v, selected = front ++ [v] →
                latest.status = 0 ∧ latest.standardOutput = lines [v.toString]) ∧
          ((∃ failure, Expression.parse range limits = .error failure) ∨
              (∃ text ∈ versions, ∃ failure, Version.parse text = .error failure) →
            all.status = 1 ∧ all.standardOutput = "" ∧
              latest.status = 1 ∧ latest.standardOutput = "") := by
  have hoption : ∀ a ∈ range :: versions, isOption a = false :=
    fun a ha ↦ isOption_eq_false (hplain a ha)
  obtain ⟨_, hall⟩ := exists_run_eq hflags (by decide)
    (Command.ofArguments?_filter hoption) environment
  refine ⟨_, hall, fun before behind hsplit ↦ ?_⟩
  obtain ⟨_, hlatest⟩ := exists_run_eq hflags (by decide)
    (Command.ofArguments?_filter_latest hsplit hoption) environment
  refine ⟨_, hlatest, fun e vs hrange hversions ↦ ?_, fun hfails ↦ ?_⟩
  · obtain ⟨hstatus, houtput⟩ := of_outcome (outcome_filter_of_ok hlimits hrange hversions false)
    refine ⟨_, (VersionSet.collects_empty.addAll vs).selects_filter e, hstatus,
      houtput.trans (printed_toString _), fun hnil ↦ ?_, fun front v hconcat ↦ ?_⟩
    · exact of_outcome ((outcome_filter_of_ok hlimits hrange hversions true).trans
        (outcome_filterReport_latest_of_nil hnil))
    · obtain ⟨hstatus', houtput'⟩ := of_outcome
        ((outcome_filter_of_ok hlimits hrange hversions true).trans
          (outcome_filterReport_latest_of_concat hconcat))
      exact ⟨hstatus', houtput'.trans (printed_toString [v])⟩
  · obtain ⟨hstatus, houtput⟩ := of_outcome (outcome_filter_of_error hlimits hfails false)
    exact ⟨hstatus, houtput, of_outcome (outcome_filter_of_error hlimits hfails true)⟩

/-- Of the build variants of a version the first one is printed, with the option as without. -/
theorem filter_answers_build_variants :
    ∃ all latest,
      run ["filter", "<2.0.0", "1.2.0+b", "2.0.0", "1.0.0", "1.2.0+a"] (fun _ ↦ none) =
        some all ∧
      run ["filter", "<2.0.0", "1.2.0+b", "--latest", "2.0.0", "1.0.0", "1.2.0+a"]
        (fun _ ↦ none) = some latest ∧
      all.status = 0 ∧ all.standardOutput = "1.0.0\n1.2.0+b\n" ∧
      latest.status = 0 ∧ latest.standardOutput = "1.2.0+b\n" := by
  let released (major minor : Nat) (build : List Word) : Version := ⟨major, minor, 0, [], build⟩
  let below : Expression := .leaf (.bound .less (released 2 0 []))
  let vs := [released 1 2 [⟨['b'], rfl⟩], released 2 0 [], released 1 0 [],
    released 1 2 [⟨['a'], rfl⟩]]
  have hlimits : Limits.fromEnvironment (fun _ ↦ none) = .ok {} := by decide +kernel
  have hrange : Expression.parse "<2.0.0" {} = .ok below := by decide +kernel
  have hversions : ["1.2.0+b", "2.0.0", "1.0.0", "1.2.0+a"].mapM Version.parse = .ok vs := by
    decide +kernel
  obtain ⟨all, hall, hmodes⟩ :=
    @filter_answers [] "<2.0.0" {} (fun _ ↦ none) ["1.2.0+b", "2.0.0", "1.0.0", "1.2.0+a"] hlimits
      nofun (by decide)
  obtain ⟨latest, hlatest, hok, -⟩ :=
    hmodes ["<2.0.0", "1.2.0+b"] ["2.0.0", "1.0.0", "1.2.0+a"] rfl
  obtain ⟨selected, hselects, hstatus, hprints, -, hhighest⟩ := hok below vs hrange hversions
  have hselected : selected = [released 1 0 []] ++ [released 1 2 [⟨['b'], rfl⟩]] := by
    rw [hselects.eq ((VersionSet.collects_empty.addAll vs).selects_filter below)]
    decide +kernel
  obtain ⟨hstatus', hprints'⟩ := hhighest _ _ hselected
  refine ⟨all, latest, hall, hlatest, hstatus, ?_, hstatus', ?_⟩
  · rw [hprints, hselected]
    decide +kernel
  · rw [hprints']
    decide +kernel

end CommandLine

end VersionRange
