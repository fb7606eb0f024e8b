/-
  Resumable.CommandLine.Flags — what is asked for on the command line.

  A flag starts with one or two dashes.  Its value is behind an equals sign or is the next
  argument; a switch takes only the former.  Flags end at the first argument that is none, or
  behind `--`.
-/
namespace Resumable.CommandLine

/-- The flags of the command. -/
structure Flags where
  /-- The document to compile; empty or a dash for standard input. -/
  input : String := ""
  /-- The settings file; empty to look for one. -/
  settings : String := ""
  /-- The form of output; empty for the one in the settings. -/
  format : String := ""
  /-- The file to write; empty for standard output. -/
  output : String := ""
  /-- Where compiled units are kept; empty for the place in the settings. -/
  cache : String := ""
  verbose : Bool := false
  /-- Whether to browse the code. -/
  browse : Bool := false
  /-- Whether to compile one line after the other. -/
  converse : Bool := false
  deriving DecidableEq, Repr, Inhabited

/-- Why there are no flags. -/
inductive Refusal where
  /-- Help was asked for. -/
  | help
  /-- The arguments make no sense. -/
  | usage
  deriving DecidableEq, Repr, Inhabited

namespace Flags

/-- An argument. -/
inductive Argument where
  /-- The first one that is no flag. -/
  | rest
  | malformed
  | flag (name : String) (value : Option String)
  deriving DecidableEq, Repr

/-- A name and what is behind its first equals sign, which cannot be its first character. -/
def split (cs : List Char) : Argument :=
  let name := cs.take 1 ++ (cs.drop 1).takeWhile (· != '=')
  .flag (String.ofList name) (match cs.drop name.length with
    | [] => none
    | _ :: value => some (String.ofList value))

/-- What an argument is. -/
def classify (arg : String) : Argument :=
  match arg.toList with
  | ['-', '-'] => .rest
  | '-' :: '-' :: cs => named cs
  | '-' :: c :: cs => named (c :: cs)
  | _ => .rest
where
  /-- A flag behind its dashes. -/
  named (cs : List Char) : Argument :=
    match cs.head? with
    | none => .malformed
    | some c => if c == '-' || c == '=' then .malformed else split cs

/-- Sets a flag that takes a value. -/
def setText? (f : Flags) (name value : String) : Option Flags :=
  match name with
  | "in" => some { f with input := value }
  | "config" => some { f with settings := value }
  | "format" => some { f with format := value }
  | "o" => some { f with output := value }
  | "cache" => some { f with cache := value }
  | _ => none

/-- Sets a switch. -/
def setSwitch? (f : Flags) (name : String) (value : Bool) : Option Flags :=
  match name with
  | "v" => some { f with verbose := value }
  | "i" => some { f with browse := value }
  | "repl" => some { f with converse := value }
  | _ => none

/-- A truth value. -/
def truth? (s : String) : Option Bool :=
  if ["1", "t", "T", "TRUE", "true", "True"].contains s then some true
  else if ["0", "f", "F", "FALSE", "false", "False"].contains s then some false
  else none

/-- Reads arguments on top of flags. -/
def parse : List String → Flags → Except Refusal Flags
  | [], f => .ok f
  | arg :: rest, f =>
      match classify arg with
      | .rest => .ok f
      | .malformed => .error .usage
      | .flag name value =>
          if (f.setSwitch? name true).isSome then
            match (value.elim (some true) truth?).bind (f.setSwitch? name) with
            | some f => parse rest f
            | none => .error .usage
          else if (f.setText? name "").isSome then
            match value, rest with
            | some v, rest => parse rest ((f.setText? name v).getD f)
            | none, v :: rest => parse rest ((f.setText? name v).getD f)
            | none, [] => .error .usage
          else if name == "help" || name == "h" then .error .help
          else .error .usage

end Flags

end Resumable.CommandLine
