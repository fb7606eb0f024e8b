/-
  Resumable.Toml.Syntax — the lines of a settings document.

  Reading ends with the lines as they are written: table headers, list headers and entries.  What
  they add up to, and whether they may stand together, is decided afterwards.
-/
import Resumable.Toml.Literal

namespace Resumable.Toml

/-- A value as it is written. -/
inductive Expr where
  | literal (value : Value)
  | list (items : List Expr)
  | table (entries : List (Key × Expr))
  deriving Repr, Inhabited

/-- A line of a document. -/
inductive Line where
  /-- `[key]`: the entries that follow belong to a table. -/
  | table (key : Key)
  /-- `[[key]]`: the entries that follow belong to a new table at the end of a list. -/
  | element (key : Key)
  /-- `key = value`. -/
  | entry (key : Key) (value : Expr)
  deriving Repr, Inhabited

/-! ## §1. Characters. -/

/-- Whether a text has only characters a document may hold: no control character but tabs and
    line breaks, and a carriage return only as part of a line break. -/
def isClean : List Char → Bool
  | [] => true
  | '\r' :: rest => rest.head? == some '\n' && isClean rest
  | c :: rest => (c == '\t' || c == '\n' || (0x20 ≤ c.toNat && c.toNat != 0x7F)) && isClean rest

/-- Drops blanks. -/
def skipBlank (cs : List Char) : List Char := cs.dropWhile isBlank

/-- Drops blanks, line breaks and comments. -/
def skipLines : (comment : Bool) → List Char → List Char
  | _, [] => []
  | true, c :: rest => skipLines (!isLineEnd c) rest
  | false, c :: rest =>
      if isBlank c || isLineEnd c then skipLines false rest
      else if c == '#' then skipLines true rest
      else c :: rest

/-- Drops blanks and a comment up to the end of a line, which has to be there. -/
def endLine? (cs : List Char) : Option (List Char) :=
  match skipBlank cs with
  | [] => some []
  | c :: rest =>
      if isLineEnd c then some rest else if c == '#' then some (skipLines true rest) else none

/-! ## §2. Keys. -/

/-- One name of a key. -/
def name? (cs : List Char) : Option (String × List Char) :=
  match shortText? cs with
  | some found => some found
  | none =>
      let (name, rest) := cs.span isBare
      if name.isEmpty then none else some (String.ofList name, rest)

/-- A key, with the blanks around it; `fuel` bounds the number of names. -/
def key? : (fuel : Nat) → List Char → Option (Key × List Char)
  | 0, _ => none
  | fuel + 1, cs => do
      let (name, rest) ← name? (skipBlank cs)
      match skipBlank rest with
      | '.' :: rest => do
          let (more, rest) ← key? fuel rest
          return (name :: more, rest)
      | rest => return ([name], rest)

/-! ## §3. Values. -/

mutual

/-- A value; `fuel` bounds the number of steps. -/
def expr? : (fuel : Nat) → List Char → Option (Expr × List Char)
  | 0, _ => none
  | fuel + 1, cs =>
      match cs with
      | '[' :: rest => items? fuel rest []
      | '{' :: rest => entries? fuel rest []
      | c :: _ =>
          if c == '"' || c == '\'' then
            (text? cs).map (fun (s, rest) => (.literal (.text s), rest))
          else (literal? cs).map (fun (v, rest) => (.literal v, rest))
      | [] => none

/-- The items of a list, up to its closing bracket. -/
def items? : (fuel : Nat) → List Char → List Expr → Option (Expr × List Char)
  | 0, _, _ => none
  | fuel + 1, cs, read =>
      match skipLines false cs with
      | ']' :: rest => some (.list read.reverse, rest)
      | cs =>
          match expr? fuel cs with
          | none => none
          | some (e, rest) =>
              match skipLines false rest with
              | ',' :: rest => items? fuel rest (e :: read)
              | ']' :: rest => some (.list (e :: read).reverse, rest)
              | _ => none

/-- The entries of a table, up to its closing brace. -/
def entries? : (fuel : Nat) → List Char → List (Key × Expr) → Option (Expr × List Char)
  | 0, _, _ => none
  | fuel + 1, cs, read =>
      match skipLines false cs with
      | '}' :: rest => some (.table read.reverse, rest)
      | cs =>
          match key? fuel cs with
          | some (key, '=' :: rest) =>
              match expr? fuel (skipBlank rest) with
              | none => none
              | some (e, rest) =>
                  match skipLines false rest with
                  | ',' :: rest => entries? fuel rest ((key, e) :: read)
                  | '}' :: rest => some (.table ((key, e) :: read).reverse, rest)
                  | _ => none
          | _ => none

end

/-! ## §4. Lines. -/

/-- A line that is not blank, and what follows it. -/
def line? (fuel : Nat) (cs : List Char) : Option (Line × List Char) :=
  match cs with
  | '[' :: '[' :: rest =>
      match key? fuel rest with
      | some (key, ']' :: ']' :: rest) => some (.element key, rest)
      | _ => none
  | '[' :: rest =>
      match key? fuel rest with
      | some (key, ']' :: rest) => some (.table key, rest)
      | _ => none
  | _ =>
      match key? fuel cs with
      | some (key, '=' :: rest) =>
          (expr? fuel (skipBlank rest)).map (fun (e, rest) => (.entry key e, rest))
      | _ => none

/-- The lines of a text; `fuel` bounds their number. -/
def linesFrom? : (fuel : Nat) → List Char → Option (List Line)
  | 0, _ => none
  | fuel + 1, cs =>
      match skipLines false cs with
      | [] => some []
      | cs => do
          let (line, rest) ← line? (2 * cs.length + 2) cs
          let rest ← endLine? rest
          return line :: (← linesFrom? fuel rest)

/-- The lines of a document; a byte order mark in front is skipped. -/
def lines? (s : String) : Option (List Line) :=
  let cs := match s.toList with
    | c :: rest => if c.toNat == 0xFEFF then rest else c :: rest
    | [] => []
  if isClean cs then linesFrom? (cs.length + 1) cs else none

end Resumable.Toml
