/-
  Resumable.Tree.Traverse — reading a tree from top to bottom.

  `children` lists the direct operands of a node in the order in which they are evaluated, so a
  do loop's body comes before its condition.  `inspect` is the depth-first walk over them: it
  lists every node it meets and goes below a node only where `enter` allows it.
-/
import Resumable.Tree.Node

namespace Resumable.Node

/-! ## §1. Direct operands. -/

/-- The operands that are there. -/
def present (nodes : List Node) : List Node :=
  nodes.filter (fun n => !n.isAbsent)

/-- The direct operands in evaluation order; empty positions are left out. -/
def children : Node → List Node
  | absent | name _ | num _ | string _ | atom _ | regexp _ _ | breakTo _ | continueTo _
  | debugger => []
  | array es => present es
  | object ps => present (ps.map (·.2))
  | call c as => present (c :: as)
  | new c as => present (c :: as)
  | binary _ l r => present [l, r]
  | unary _ _ e => present [e]
  | assign _ t v => present [t, v]
  | dot b _ => present [b]
  | sub b i => present [b, i]
  | conditional t y n => present [t, y, n]
  | seq es => present es
  | function _ _ b => present b
  | stat e => present [e]
  | var ds => present (ds.map (·.2))
  | const ds => present (ds.map (·.2))
  | block b => present b
  | ifElse c y n => present [c, y, n]
  | forLoop i c s b => present [i, c, s, b]
  | forIn i o b => present [i, o, b]
  | whileLoop c b => present [c, b]
  | doLoop c b => present [b, c]
  | label _ b => present [b]
  | ret v => present [v]
  | throw v => present [v]
  | tryCatch b h f => present (b ++ (h.map (·.2)).getD [] ++ f.getD [])
  | switch d cs => present (d :: cs.flatMap (fun c => c.1 :: c.2))
  | withObject o b => present [o, b]
  | defun _ _ b => present b
  | toplevel b => present b
  | splice ns => present ns

/-! ## §2. The depth-first walk. -/

mutual

/-- Every node met on a depth-first walk in evaluation order, the root first.  The walk goes
    below a node only if `enter` holds of it. -/
def inspect (enter : Node → Bool) : Node → List Node
  | absent => []
  | n@(array es) => n :: if enter n then inspectAll enter es else []
  | n@(object ps) => n :: if enter n then inspectFields enter ps else []
  | n@(call c as) => n :: if enter n then inspect enter c ++ inspectAll enter as else []
  | n@(new c as) => n :: if enter n then inspect enter c ++ inspectAll enter as else []
  | n@(binary _ l r) => n :: if enter n then inspect enter l ++ inspect enter r else []
  | n@(unary _ _ e) => n :: if enter n then inspect enter e else []
  | n@(assign _ t v) => n :: if enter n then inspect enter t ++ inspect enter v else []
  | n@(dot b _) => n :: if enter n then inspect enter b else []
  | n@(sub b i) => n :: if enter n then inspect enter b ++ inspect enter i else []
  | n@(conditional t y e) =>
      n :: if enter n then inspect enter t ++ inspect enter y ++ inspect enter e else []
  | n@(seq es) => n :: if enter n then inspectAll enter es else []
  | n@(function _ _ b) => n :: if enter n then inspectAll enter b else []
  | n@(stat e) => n :: if enter n then inspect enter e else []
  | n@(var ds) => n :: if enter n then inspectFields enter ds else []
  | n@(const ds) => n :: if enter n then inspectFields enter ds else []
  | n@(block b) => n :: if enter n then inspectAll enter b else []
  | n@(ifElse c y e) =>
      n :: if enter n then inspect enter c ++ inspect enter y ++ inspect enter e else []
  | n@(forLoop i c s b) =>
      n :: if enter n then
        inspect enter i ++ inspect enter c ++ inspect enter s ++ inspect enter b
      else []
  | n@(forIn i o b) =>
      n :: if enter n then inspect enter i ++ inspect enter o ++ inspect enter b else []
  | n@(whileLoop c b) => n :: if enter n then inspect enter c ++ inspect enter b else []
  | n@(doLoop c b) => n :: if enter n then inspect enter b ++ inspect enter c else []
  | n@(label _ b) => n :: if enter n then inspect enter b else []
  | n@(ret v) => n :: if enter n then inspect enter v else []
  | n@(throw v) => n :: if enter n then inspect enter v else []
  | n@(tryCatch b h f) =>
      n :: if enter n then
        inspectAll enter b ++
          (match h with
          | none => []
          | some (_, hb) => inspectAll enter hb) ++
          (match f with
          | none => []
          | some fb => inspectAll enter fb)
      else []
  | n@(switch d cs) => n :: if enter n then inspect enter d ++ inspectCases enter cs else []
  | n@(withObject o b) => n :: if enter n then inspect enter o ++ inspect enter b else []
  | n@(defun _ _ b) => n :: if enter n then inspectAll enter b else []
  | n@(toplevel b) => n :: if enter n then inspectAll enter b else []
  | n@(splice ns) => n :: if enter n then inspectAll enter ns else []
  | n => [n]

/-- The walk over a list of nodes. -/
def inspectAll (enter : Node → Bool) : List Node → List Node
  | [] => []
  | n :: rest => inspect enter n ++ inspectAll enter rest

/-- The walk over the values of named fields. -/
def inspectFields (enter : Node → Bool) : List (String × Node) → List Node
  | [] => []
  | (_, n) :: rest => inspect enter n ++ inspectFields enter rest

/-- The walk over switch clauses. -/
def inspectCases (enter : Node → Bool) : List (Node × List Node) → List Node
  | [] => []
  | (t, b) :: rest => inspect enter t ++ inspectAll enter b ++ inspectCases enter rest

end

end Resumable.Node
