import VersionRange.CommandLine.Invocation
import VersionRange.Text.Plain
import VersionRange.VersionSet

/-!
# Reports

What the commands of the program answer: a status, lines of output and lines of messages. A
command that reads a range takes its limits from the environment first. A failure is reported
with a mark under the character of the text at which it arose. The versions shown are those that
were given, and as they could be read they can be written; the bounds of a range may be longer.
-/

namespace VersionRange.CommandLine

/-- The answer of a command. -/
structure Report where
  status : Nat := 0
  output : List String := []
  messages : List String := []
  deriving DecidableEq

namespace Report

/-- Lines as they are printed, without terminal styles and each with its end. -/
def printed (lines : List String) : String :=
  .ofList (lines.flatMap fun line ↦ Text.plain line.toList ++ ['\n'])

/-- The text for standard output. -/
def standardOutput (r : Report) : String := printed r.output

/-- The text for standard error. -/
def standardError (r : Report) : String := printed r.messages

/-- A message in front of a report. -/
def after (message : String) (r : Report) : Report := { r with messages := message :: r.messages }

/-- A command that fails with an error. Source: `echo_error`. -/
def error (message : String) : Report := { status := 1, messages := ["Error: " ++ message] }

/-- A command that fails on a text. Source: `echo_version_error`. -/
def ofFailure (failure : Failure) (text : List Char) : Report :=
  if failure.isParseFailure then
    let marker := match failure.position with
      | some position =>
        if text.isEmpty then []
        else
          [.ofList (' ' :: ' ' :: text),
            .ofList (' ' :: ' ' :: List.replicate position ' ' ++ ['^'])]
      | none => []
    { error failure.message with messages := (error failure.message).messages ++ marker }
  else error ("Unexpected error: " ++ failure.message)

end Report

open Report

/-- Read a version for a command, and report with it. Source: `_parse_or_exit`. -/
def withVersion (text : String) (report : Version → Report) : Report :=
  match Version.parse text with
  | .ok v => report v
  | .error failure => ofFailure failure (Text.trim text.toList)

/-- Read a range for a command within the limits of the environment, and report with it.
Source: `_compile_or_exit` and `Context.load_config`. -/
def withRange (environment : String → Option String) (verbose : Bool) (text : String)
    (report : Expression → Report) : Report :=
  match Limits.fromEnvironment environment with
  | .error failure => error failure.message
  | .ok limits =>
    match Expression.parse text limits with
    | .error failure => ofFailure failure text.toList
    | .ok e =>
      match verbose, Expression.write e with
      | true, .ok canonical =>
        (report e).after <| "rangever.expr.parser: Compiled range " ++
          .ofList (Text.quoted text.toList) ++ " to " ++ canonical
      | _, _ => report e

/-- Show the parts of a version. Source: `parse`. -/
def parseReport (v : Version) : Report where
  output :=
    ["Version: " ++ v.toString, "  major: " ++ toString v.major, "  minor: " ++ toString v.minor,
      "  patch: " ++ toString v.patch] ++
    (if v.prerelease.isEmpty then [] else ["  prerelease: " ++ .ofList v.prereleaseChars]) ++
    (if v.build.isEmpty then [] else ["  build: " ++ .ofList v.buildChars])

/-- The sign of an outcome of a comparison. Source: `Ordering.symbol`. -/
def orderingSymbol : Ordering → String
  | .lt => "<"
  | .eq => "="
  | .gt => ">"

/-- Show how two versions stand to each other. Source: `compare`. -/
def compareReport (a b : Version) : Report where
  output := [a.toString ++ " " ++ orderingSymbol (compare a b) ++ " " ++ b.toString]

/-- Show for each version whether it satisfies a range, up to the first text that is no version. The
status tells whether all of them do. Source: `check`. -/
def checkReport (range : String) (e : Expression) : List String → Report
  | [] => {}
  | text :: rest =>
    withVersion text fun v ↦
      let satisfied := Expression.admits e v
      let tail := checkReport range e rest
      let verdict := if satisfied then ": satisfies " else ": does not satisfy "
      { tail with
        status := if satisfied then tail.status else 1
        output := (v.toString ++ verdict ++ range) :: tail.output }

/-- Collect versions for a report, with a message for each duplicate. Part of `filter_`. -/
def collect (verbose : Bool) (report : VersionSet → Report) (s : VersionSet) :
    List String → Report
  | [] => report s
  | text :: rest =>
    withVersion text fun v ↦
      let (new, t) := s.add v
      let tail := collect verbose report t rest
      if verbose && !new then
        tail.after ("rangever.versionset: Ignoring duplicate version " ++ v.toString)
      else tail

/-- Show the members of a set that satisfy a range, or the highest of them alone.
Source: `filter_`. -/
def filterReport (range : String) (e : Expression) (latest : Bool) (s : VersionSet) : Report :=
  if latest then
    match s.latest? (some e) with
    | some v => { output := [v.toString] }
    | none => error ("No version satisfies " ++ range)
  else { output := (s.filter e).map Version.toString }

/-- Show the canonical text of a range. Source: `explain`. -/
def explainReport (range : String) (e : Expression) : Report :=
  match Expression.write e with
  | .ok canonical => { output := [canonical] }
  | .error failure => ofFailure failure range.toList

/-- The answer to an invocation. Part of `cli`. -/
def Invocation.report (i : Invocation) (environment : String → Option String) : Report :=
  match i.command with
  | .parse version => withVersion version parseReport
  | .compare first second =>
    withVersion first fun a ↦ withVersion second fun b ↦ compareReport a b
  | .check range versions =>
    withRange environment i.verbose range fun e ↦ checkReport range e versions
  | .filter range versions latest =>
    withRange environment i.verbose range fun e ↦
      collect i.verbose (filterReport range e latest) {} versions
  | .explain range =>
    withRange environment i.verbose range (explainReport range)

/-- The answer to the arguments of the program, if they are well formed. Source: `main` and
`cli`. -/
def run (given : List String) (environment : String → Option String) : Option Report :=
  (Invocation.ofArguments? given).map (·.report environment)

end VersionRange.CommandLine
