/-!
# Invocations

What the arguments of the program ask for. Options begin with a hyphen and are not the hyphen
alone; behind two hyphens nothing is an option any more. The option for more messages stands
before the command, the options of a command anywhere behind it.
-/

namespace VersionRange.CommandLine

/-- A command with its arguments. Source: `parse`, `compare`, `check`, `filter_` and `explain`. -/
inductive Command
  | parse (version : String)
  | compare (first second : String)
  | check (range : String) (versions : List String)
  | filter (range : String) (versions : List String) (latest : Bool)
  | explain (range : String)
  deriving DecidableEq

/-- A command, and whether it is to say more about what it does. Source: `cli`. -/
structure Invocation where
  verbose : Bool
  command : Command
  deriving DecidableEq

/-- Decide whether an argument is an option. -/
def isOption (argument : String) : Bool :=
  match argument.toList with
  | '-' :: _ :: _ => true
  | _ => false

/-- Decide whether an option asks for more messages; the short form may be repeated in one. -/
def isVerbose (option : String) : Bool :=
  option == "--verbose" || (option.toList.drop 1).all (· == 'v')

/-- Whether more messages are asked for, and the arguments behind the options that stand first.
Part of `cli`. -/
def leadingOptions (verbose : Bool) : List String → Option (Bool × List String)
  | [] => some (verbose, [])
  | argument :: rest =>
    if argument == "--" then some (verbose, rest)
    else if isOption argument then
      if isVerbose argument then leadingOptions true rest else none
    else some (verbose, argument :: rest)

/-- The arguments of a command that are no options, and whether an option that the command may have
is among the others. Part of `cli`. -/
def arguments (option : Option String) : List String → Option (List String × Bool)
  | [] => some ([], false)
  | argument :: rest =>
    if argument == "--" then some (rest, false)
    else if isOption argument then
      if option == some argument then (arguments option rest).map fun (found, _) ↦ (found, true)
      else none
    else (arguments option rest).map fun (found, given) ↦ (argument :: found, given)

namespace Command

/-- The command of a name with its arguments. Source: `parse`, `compare`, `check`, `filter_` and
`explain`. -/
def ofArguments? (name : String) (rest : List String) : Option Command :=
  match name with
  | "parse" =>
    match arguments none rest with
    | some ([version], _) => some (parse version)
    | _ => none
  | "compare" =>
    match arguments none rest with
    | some ([first, second], _) => some (compare first second)
    | _ => none
  | "check" =>
    match arguments none rest with
    | some (range :: version :: versions, _) => some (check range (version :: versions))
    | _ => none
  | "filter" =>
    match arguments (some "--latest") rest with
    | some (range :: versions, latest) => some (filter range versions latest)
    | _ => none
  | "explain" =>
    match arguments none rest with
    | some ([range], _) => some (explain range)
    | _ => none
  | _ => none

end Command

/-- What the arguments of the program ask for, if they are well formed. Source: `cli`. -/
def Invocation.ofArguments? (given : List String) : Option Invocation :=
  match leadingOptions false given with
  | some (verbose, name :: rest) =>
    (Command.ofArguments? name rest).map fun command ↦ { verbose, command }
  | _ => none

end VersionRange.CommandLine
