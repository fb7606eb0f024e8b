/-
  Resumable.Source.Precedence — how tightly an expression binds.

  Levels count from the loosest to the tightest.  An expression is put in parentheses exactly
  when it binds looser than the place it stands in asks for.
-/
import Resumable.Tree.Node

namespace Resumable.Source.Precedence

def lowest : Nat := 0
def seq : Nat := 1
def assign : Nat := 2
def conditional : Nat := 3
def or : Nat := 4
def and : Nat := 5
def bitOr : Nat := 6
def bitXor : Nat := 7
def bitAnd : Nat := 8
def equality : Nat := 9
def relational : Nat := 10
def shift : Nat := 11
def additive : Nat := 12
def multiplicative : Nat := 13
def before : Nat := 14
def after : Nat := 15
def call : Nat := 16
def member : Nat := 17
def primary : Nat := 18

/-- The level of a binary operator; an operator that is not listed binds like `||`. -/
def ofBinary (op : String) : Nat :=
  match op with
  | "||" => or
  | "&&" => and
  | "|" => bitOr
  | "^" => bitXor
  | "&" => bitAnd
  | "==" | "===" | "!=" | "!==" => equality
  | "<" | ">" | "<=" | ">=" | "in" | "instanceof" => relational
  | "<<" | ">>" | ">>>" => shift
  | "+" | "-" => additive
  | "*" | "/" | "%" => multiplicative
  | _ => or

/-- The level of an expression.  A constructor without arguments binds like a call. -/
def ofNode : Node → Nat
  | .seq _ => seq
  | .assign _ _ _ => assign
  | .conditional _ _ _ => conditional
  | .binary op _ _ => ofBinary op
  | .unary .after _ _ => after
  | .unary .before _ _ => before
  | .call _ _ => call
  | .new _ args => if args.isEmpty then call else member
  | .dot _ _ | .sub _ _ => member
  | _ => primary

end Resumable.Source.Precedence
