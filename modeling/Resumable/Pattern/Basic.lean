/-
  Resumable.Pattern.Basic — patterns over characters.

  A pattern describes texts.  `Pattern.ends` lists the positions at which a match that starts at
  one of some positions can end; a text matches if a match starts anywhere in it.
-/
import Resumable.Text.Fold

namespace Resumable

/-! ## §1. Sets of characters. -/

/-- A set of characters. -/
inductive CharSet where
  | range (low high : Nat)
  | union (left right : CharSet)
  | compl (set : CharSet)
  /-- All case variants of the members of a set. -/
  | folded (set : CharSet)
  deriving Repr

namespace CharSet

/-- No character. -/
def none : CharSet := range 1 0

/-- One character. -/
def only (code : Nat) : CharSet := range code code

/-- The union of ranges. -/
def ranges (rs : List (Nat × Nat)) : CharSet :=
  rs.foldr (fun r s => union (range r.1 r.2) s) none

/-- Whether a set has a code point as a member. -/
def contains : CharSet → Nat → Bool
  | range low high, c => low ≤ c && c ≤ high
  | union a b, c => a.contains c || b.contains c
  | compl s, c => !s.contains c
  | folded s, c => (Text.variants c).any s.contains

end CharSet

/-! ## §2. Patterns. -/

/-- A condition on a position. -/
inductive Anchor where
  | textStart | textEnd | lineStart | lineEnd | wordEdge | noWordEdge
  deriving DecidableEq, Repr

/-- A pattern. -/
inductive Pattern where
  | empty
  | one (set : CharSet)
  | anchor (a : Anchor)
  /-- A group that is counted; it matches what its inside does. -/
  | group (inside : Pattern)
  | seq (first second : Pattern)
  | alt (left right : Pattern)
  /-- At least `least` and, if there is a bound, at most `most` repetitions. -/
  | times (p : Pattern) (least : Nat) (most : Option Nat)
  deriving Repr

namespace Anchor

/-- Whether a character belongs to a word. -/
def isWord (c : Char) : Bool := c.isAlphanum || c == '_'

/-- Whether the condition holds at a position. -/
def holds (a : Anchor) (text : Array Char) (i : Nat) : Bool :=
  let before : Option Char := if i = 0 then none else text[i - 1]?
  let after : Option Char := text[i]?
  let edge := before.any isWord != after.any isWord
  match a with
  | textStart => i == 0
  | textEnd => i == text.size
  | lineStart => before.all (· == '\n')
  | lineEnd => after.all (· == '\n')
  | wordEdge => edge
  | noWordEdge => !edge

end Anchor

namespace Pattern

/-- Some positions together with those reached from the newest of them by at most `n` steps.  A
    step goes from positions to positions; where nothing new is reached, no further step does. -/
def within (step : List Nat → List Nat) : (n : Nat) → (seen newest : List Nat) → List Nat
  | 0, seen, _ => seen
  | n + 1, seen, newest =>
      let next := ((step newest).filter (fun i => !seen.contains i)).eraseDups
      if next.isEmpty then seen else within step n (seen ++ next) next

/-- The positions reached by exactly `n` steps. -/
def exactly (step : List Nat → List Nat) : (n : Nat) → List Nat → List Nat
  | 0, ps => ps
  | n + 1, ps => if ps.isEmpty then [] else exactly step n (step ps)

/-- The positions at which a match that starts at one of the given positions can end.  A text has
    one position more than characters, so that more steps than it has characters reach nothing
    new. -/
def ends (text : Array Char) : Pattern → List Nat → List Nat
  | empty, ps => ps
  | one s, ps => (ps.filter (fun i => text[i]?.any (fun c => s.contains c.toNat))).map (· + 1)
  | anchor a, ps => ps.filter (a.holds text)
  | group p, ps => ends text p ps
  | seq p q, ps => ends text q (ends text p ps)
  | alt p q, ps => (ends text p ps ++ ends text q ps).eraseDups
  | times p least most, ps =>
      let start := exactly (ends text p) least ps
      within (ends text p) (most.elim text.size (· - least)) start start

/-- Whether a match starts anywhere in a text. -/
def isIn (p : Pattern) (s : String) : Bool :=
  let text := s.toList.toArray
  !(ends text p (List.range (text.size + 1))).isEmpty

/-! ## §3. Limits. -/

/-- How deep counted repetitions may be nested: the product of their counts stays within `n`.  One
    without an upper bound counts with its lower one, and none at all ends the product. -/
def repeatsWithin : Pattern → (n : Nat) → Bool
  | times p least most, n =>
      let m := most.getD least
      if most == some 0 then true
      else if m > n then false
      else p.repeatsWithin (if m > 0 then n / m else n)
  | seq p q, n | alt p q, n => p.repeatsWithin n && q.repeatsWithin n
  | group p, n => p.repeatsWithin n
  | _, _ => true

/-- Whether a pattern spells a word. -/
def isSpelling : Pattern → Bool
  | seq p q => p.isSpelling && q.isSpelling
  | one (.range low high) | one (.folded (.range low high)) => low == high
  | _ => false

/-- Whether a pattern is a choice between single characters. -/
def isChoiceOfOne : Pattern → Bool
  | alt p q => p.isChoiceOfOne && q.isChoiceOfOne
  | one _ => true
  | _ => false

/-- What joins patterns into a larger one. -/
inductive Joint where
  | sequence | choice
  deriving DecidableEq, Repr

/-- How deep a pattern is nested, as a part of one with the given joint.  A row of patterns with
    one joint is one level, whatever its length; a word or a choice between characters is as deep
    as a single character. -/
def depth : (joint : Option Joint) → Pattern → Nat
  | _, empty | _, one _ | _, anchor _ => 1
  | _, group p | _, times p _ _ => depth none p + 1
  | joint, seq p q =>
      let row := max (depth (some .sequence) p) (depth (some .sequence) q)
      if joint == some .sequence || (seq p q).isSpelling then row else row + 1
  | joint, alt p q =>
      let row := max (depth (some .choice) p) (depth (some .choice) q)
      if joint == some .choice || (alt p q).isChoiceOfOne then row else row + 1

/-- The number of steps of a pattern with its repetitions written out. -/
def size : Pattern → Nat
  | empty | one _ | anchor _ => 1
  | group p => p.size + 2
  | seq p q => p.size + q.size
  | alt p q => p.size + q.size + 1
  | times p 0 none => p.size + 2
  | times p least none => least * p.size + 1
  | times p least (some most) => max 1 (most * p.size + (most - least))

/-- The depth that a pattern may have. -/
def maxDepth : Nat := 1000

/-- The size that a pattern may have. -/
def maxSize : Nat := 3355443

/-- Whether a pattern is small enough to be used. -/
def isUsable (p : Pattern) : Bool := p.depth none ≤ maxDepth && p.size ≤ maxSize

end Pattern

end Resumable
