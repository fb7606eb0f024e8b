/-
  Resumable.Output.Format — the forms a compiled unit is shown in.

  A unit is written in one of six forms.  Its size is shown in the largest unit that it reaches,
  units growing by a thousand, with one place after the point below ten units and none from there
  on.
-/
import Resumable.Code.Cbor
import Resumable.Code.Json
import Resumable.Code.Outline
import Resumable.Code.Yaml
import Resumable.Program.Compile

namespace Resumable.Output

/-! ## §1. Forms. -/

/-- A form of output. -/
inductive Format where
  /-- The code as JSON. -/
  | json
  /-- The code as YAML. -/
  | yaml
  /-- The code as CBOR. -/
  | cbor
  /-- The code as an outline. -/
  | tree
  /-- The source of the resulting tree. -/
  | source
  /-- Source, code and local names together. -/
  | all
  deriving DecidableEq, Repr, Inhabited

namespace Format

/-- Every form. -/
def every : List Format := [json, yaml, cbor, tree, source, all]

/-- The name of a form. -/
def name : Format → String
  | json => "json"
  | yaml => "yaml"
  | cbor => "cbor"
  | tree => "tree"
  | source => "source"
  | all => "all"

/-- The form with a name. -/
def ofName? (s : String) : Option Format := every.find? (fun f => f.name == s)

/-- Whether a conversation can switch to a form: those that are one text. -/
def isSpoken : Format → Bool
  | json | yaml | tree | source => true
  | cbor | all => false

/-- A name is read back as its form. -/
theorem ofName?_name (f : Format) : ofName? f.name = some f := by
  cases f <;> decide

end Format

/-! ## §2. Units in a form. -/

/-- Source, code and local names under a heading each. -/
def together (o : Program.Output) : String :=
  "// rewritten source\n" ++ o.source ++
    "\n\n// executable code\n" ++ o.code.toJson ++
    "\n\n// locals: " ++ ", ".intercalate o.locals ++ "\n"

/-- The bytes of a unit in a form. -/
def write (o : Program.Output) : Format → Bytes
  | .json => Text.bytesOf (o.code.toJson ++ "\n")
  | .yaml => Text.bytesOf o.code.toYaml
  | .cbor => o.code.toCbor
  | .tree => Text.bytesOf o.code.outline
  | .source => Text.bytesOf (o.source ++ "\n")
  | .all => Text.bytesOf (together o)

/-- The bytes of a unit in the form with a name; the empty name stands for JSON. -/
def writeNamed (o : Program.Output) (name : String) : Except Failure Bytes :=
  if name.isEmpty then .ok (write o .json)
  else match Format.ofName? name with
    | some f => .ok (write o f)
    | none => .error (.plain ("unknown output format " ++ Text.quoted name))

/-! ## §3. Sizes. -/

/-- The names of the units, the smallest first. -/
def unitNames : List String := ["B", "kB", "MB", "GB", "TB", "PB", "EB"]

/-- The exponent of the largest power of a thousand that a number reaches, at most `most`. -/
def thousands : (most : Nat) → Nat → Nat
  | 0, _ => 0
  | most + 1, n => if n < 1000 then 0 else thousands most (n / 1000) + 1

/-- A number of tenths without its fraction, rounded to the nearest whole; a half goes to the even
    neighbour. -/
def wholeOfTenths (tenths : Nat) : Nat :=
  let whole := tenths / 10
  let rest := tenths % 10
  if 5 < rest || (rest == 5 && whole % 2 == 1) then whole + 1 else whole

/-- The text of a size in bytes. -/
def sizeText (bytes : Nat) : String :=
  if bytes < 10 then toString bytes ++ " B"
  else
    let exponent := thousands 6 bytes
    let unit := Nat.pow 1000 exponent
    let tenths := (20 * bytes + unit) / (2 * unit)
    let value :=
      if tenths < 100 then toString (tenths / 10) ++ "." ++ toString (tenths % 10)
      else toString (wholeOfTenths tenths)
    value ++ " " ++ unitNames.getD exponent ""

end Resumable.Output
