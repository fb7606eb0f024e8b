/-
  Resumable.Code.Encoding — how an instruction is laid out as a record.

  Every format writes an instruction as a record with the same fields in the same order; the
  formats differ only in what a text, a flag, a list or a record looks like.  `Op.encode` fixes
  the records once, and each format supplies the rest.

  Reading goes the other way: a format fills a `Record`, and `Record.op` makes the instruction
  that the command asks for.
-/
import Resumable.Code.Basic

namespace Resumable

/-! ## §1. Writing. -/

/-- What a format has to offer in order to write instructions. -/
structure Encoding (β : Type) where
  text : String → β
  flag : Bool → β
  /-- A list that was left out. -/
  missing : β
  list : List β → β
  record : List (String × β) → β

namespace Op

variable {β : Type} (w : Encoding β)

mutual

/-- An instruction as a record. -/
def encode : Op → β
  | leaf command code async =>
      w.record [("command", w.text command), ("code", w.text code), ("async", w.flag async)]
  | branch cond yes no async =>
      w.record [("command", w.text "if"), ("condCode", w.text cond),
        ("thenCode", w.list (encodeAll yes)), ("elseCode", w.list (encodeAll no)),
        ("async", w.flag async)]
  | loop cond step body async =>
      w.record [("command", w.text "for"), ("condCode", w.list (encodeAll cond)),
        ("stepCode", w.list (encodeAll step)), ("bodyCode", w.list (encodeAll body)),
        ("async", w.flag async)]
  | defun name args code async =>
      w.record [("command", w.text "defun"), ("name", w.text name),
        ("code", w.list (encodeAll code)),
        ("args", match args with
          | none => w.missing
          | some xs => w.list (xs.map w.text)),
        ("async", w.flag async)]

/-- A list of instructions as records. -/
def encodeAll : List Op → List β
  | [] => []
  | o :: rest => encode o :: encodeAll rest

end

end Op

/-- Executable code as a list of records. -/
def Code.encode {β : Type} (w : Encoding β) (code : Code) : β := w.list (Op.encodeAll w code)

/-! ## §2. Reading. -/

/-- What a field of a record holds. -/
inductive Slot where
  | text
  | flag
  /-- A list of instructions. -/
  | code
  /-- A list of names. -/
  | names
  deriving DecidableEq, Repr

/-- The fields of the record of an instruction with the given command. -/
def slots (command : String) : List (String × Slot) :=
  if command == "if" then
    [("command", .text), ("condCode", .text), ("thenCode", .code), ("elseCode", .code),
     ("async", .flag)]
  else if command == "for" then
    [("command", .text), ("condCode", .code), ("stepCode", .code), ("bodyCode", .code),
     ("async", .flag)]
  else if command == "defun" then
    [("command", .text), ("name", .text), ("code", .code), ("args", .names), ("async", .flag)]
  else [("command", .text), ("code", .text), ("async", .flag)]

/-- The content of a record while it is being read; the latest value of a field comes first. -/
structure Record where
  texts : List (String × String) := []
  codes : List (String × Code) := []
  args : Option (List String) := none
  async : Bool := false

namespace Record

/-- A text field; one that was not set is empty. -/
def text (r : Record) (field : String) : String := (r.texts.lookup field).getD ""

/-- A list field; one that was not set is empty. -/
def code (r : Record) (field : String) : Code := (r.codes.lookup field).getD []

/-- Sets a text field. -/
def setText (r : Record) (field value : String) : Record :=
  { r with texts := (field, value) :: r.texts }

/-- Sets a list field. -/
def setCode (r : Record) (field : String) (value : Code) : Record :=
  { r with codes := (field, value) :: r.codes }

/-- The instruction that a record with the given command stands for. -/
def op (r : Record) (command : String) : Op :=
  if command == "if" then
    .branch (r.text "condCode") (r.code "thenCode") (r.code "elseCode") r.async
  else if command == "for" then
    .loop (r.code "condCode") (r.code "stepCode") (r.code "bodyCode") r.async
  else if command == "defun" then
    .defun (r.text "name") r.args (r.code "code") r.async
  else .leaf command (r.text "code") r.async

end Record

end Resumable
