/-
  Resumable.Convention — which names may suspend.

  A convention tells from a name whether calling it may suspend the program.
-/
import Resumable.Pattern.Parser

namespace Resumable

/-- A rule for names. -/
inductive Convention where
  /-- Names that start with one of some texts; an empty text matches nothing. -/
  | startsWith (texts : List String)
  /-- Names that are listed. -/
  | oneOf (names : List String)
  /-- Names in which a pattern is found. -/
  | pattern (p : Pattern)
  /-- Names that one of some conventions matches. -/
  | anyOf (conventions : List Convention)

namespace Convention

mutual

/-- Whether a name may suspend. -/
def isAsync : Convention → String → Bool
  | startsWith texts, x => texts.any (fun t => !t.isEmpty && t.toList.isPrefixOf x.toList)
  | oneOf names, x => names.contains x
  | pattern p, x => p.isIn x
  | anyOf cs, x => anyAsync cs x

/-- Whether one of some conventions matches. -/
def anyAsync : List Convention → String → Bool
  | [], _ => false
  | c :: rest, x => c.isAsync x || anyAsync rest x

end

/-- What the names of host primitives usually start with. -/
def usualStart : String := "async"

/-- The names of the callbacks a runtime passes in. -/
def usualMarkers : List String := ["$$success", "$$fail", "$$callBack"]

/-- The usual convention. -/
def usual : Convention := anyOf [startsWith [usualStart], oneOf usualMarkers]

end Convention

end Resumable
