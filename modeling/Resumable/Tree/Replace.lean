/-
  Resumable.Tree.Replace — replacing nodes of a tree.

  A step looks at a node and either puts another in its place, in which case the walk does not go
  below it, or leaves it, in which case the node is rebuilt from what its operands became.  The step
  may have effects, so the order of the visits is part of the definition: operands go left to right,
  except that a switch visits its clauses before its discriminant and a try statement its `finally`
  before its handler.
-/
import Resumable.Tree.Node

namespace Resumable.Node

variable {m : Type → Type} [Monad m]

mutual

/-- Replaces nodes from the root down.  `step n` is a replacement for `n`, or `none` to rebuild `n`
    from what its operands became.  Empty positions stay empty. -/
def replaceM (step : Node → m (Option Node)) : Node → m Node
  | absent => pure absent
  | n@(name _) | n@(num _) | n@(string _) | n@(atom _) | n@(regexp _ _)
  | n@(breakTo _) | n@(continueTo _) | n@debugger => do return (← step n).getD n
  | n@(array es) => do
      match ← step n with
      | some r => return r
      | none => return array (← replaceAllM step es)
  | n@(object ps) => do
      match ← step n with
      | some r => return r
      | none => return object (← replaceFieldsM step ps)
  | n@(call c as) => do
      match ← step n with
      | some r => return r
      | none => return call (← replaceM step c) (← replaceAllM step as)
  | n@(new c as) => do
      match ← step n with
      | some r => return r
      | none => return new (← replaceM step c) (← replaceAllM step as)
  | n@(binary op l r) => do
      match ← step n with
      | some r => return r
      | none => return binary op (← replaceM step l) (← replaceM step r)
  | n@(unary side op e) => do
      match ← step n with
      | some r => return r
      | none => return unary side op (← replaceM step e)
  | n@(assign op t v) => do
      match ← step n with
      | some r => return r
      | none => return assign op (← replaceM step t) (← replaceM step v)
  | n@(dot b f) => do
      match ← step n with
      | some r => return r
      | none => return dot (← replaceM step b) f
  | n@(sub b i) => do
      match ← step n with
      | some r => return r
      | none => return sub (← replaceM step b) (← replaceM step i)
  | n@(conditional t y e) => do
      match ← step n with
      | some r => return r
      | none => return conditional (← replaceM step t) (← replaceM step y) (← replaceM step e)
  | n@(seq es) => do
      match ← step n with
      | some r => return r
      | none => return seq (← replaceAllM step es)
  | n@(function f ps b) => do
      match ← step n with
      | some r => return r
      | none => return function f ps (← replaceAllM step b)
  | n@(stat e) => do
      match ← step n with
      | some r => return r
      | none => return stat (← replaceM step e)
  | n@(var ds) => do
      match ← step n with
      | some r => return r
      | none => return var (← replaceFieldsM step ds)
  | n@(const ds) => do
      match ← step n with
      | some r => return r
      | none => return const (← replaceFieldsM step ds)
  | n@(block b) => do
      match ← step n with
      | some r => return r
      | none => return block (← replaceAllM step b)
  | n@(ifElse c y e) => do
      match ← step n with
      | some r => return r
      | none => return ifElse (← replaceM step c) (← replaceM step y) (← replaceM step e)
  | n@(forLoop i c s b) => do
      match ← step n with
      | some r => return r
      | none =>
          return forLoop (← replaceM step i) (← replaceM step c) (← replaceM step s)
            (← replaceM step b)
  | n@(forIn i o b) => do
      match ← step n with
      | some r => return r
      | none => return forIn (← replaceM step i) (← replaceM step o) (← replaceM step b)
  | n@(whileLoop c b) => do
      match ← step n with
      | some r => return r
      | none => return whileLoop (← replaceM step c) (← replaceM step b)
  | n@(doLoop c b) => do
      match ← step n with
      | some r => return r
      | none => return doLoop (← replaceM step c) (← replaceM step b)
  | n@(label l b) => do
      match ← step n with
      | some r => return r
      | none => return label l (← replaceM step b)
  | n@(ret v) => do
      match ← step n with
      | some r => return r
      | none => return ret (← replaceM step v)
  | n@(throw v) => do
      match ← step n with
      | some r => return r
      | none => return throw (← replaceM step v)
  | n@(tryCatch b h f) => do
      match ← step n with
      | some r => return r
      | none =>
          let b' ← replaceAllM step b
          let f' ← replaceFinalizerM step f
          let h' ← replaceHandlerM step h
          return tryCatch b' h' f'
  | n@(switch d cs) => do
      match ← step n with
      | some r => return r
      | none =>
          let cs' ← replaceCasesM step cs
          return switch (← replaceM step d) cs'
  | n@(withObject o b) => do
      match ← step n with
      | some r => return r
      | none => return withObject (← replaceM step o) (← replaceM step b)
  | n@(defun f ps b) => do
      match ← step n with
      | some r => return r
      | none => return defun f ps (← replaceAllM step b)
  | n@(toplevel b) => do
      match ← step n with
      | some r => return r
      | none => return toplevel (← replaceAllM step b)
  | n@(splice ns) => do
      match ← step n with
      | some r => return r
      | none => return splice (← replaceAllM step ns)

/-- Replaces nodes in every tree of a list. -/
def replaceAllM (step : Node → m (Option Node)) : List Node → m (List Node)
  | [] => pure []
  | n :: rest => return (← replaceM step n) :: (← replaceAllM step rest)

/-- Replaces nodes in the values of named fields. -/
def replaceFieldsM (step : Node → m (Option Node)) :
    List (String × Node) → m (List (String × Node))
  | [] => pure []
  | (k, n) :: rest => return (k, ← replaceM step n) :: (← replaceFieldsM step rest)

/-- Replaces nodes in the body of a catch clause, if there is one. -/
def replaceHandlerM (step : Node → m (Option Node)) :
    Option (String × List Node) → m (Option (String × List Node))
  | none => pure none
  | some (x, b) => return some (x, ← replaceAllM step b)

/-- Replaces nodes in a `finally` list, if there is one. -/
def replaceFinalizerM (step : Node → m (Option Node)) :
    Option (List Node) → m (Option (List Node))
  | none => pure none
  | some b => return some (← replaceAllM step b)

/-- Replaces nodes in switch clauses, in each test before its body. -/
def replaceCasesM (step : Node → m (Option Node)) :
    List (Node × List Node) → m (List (Node × List Node))
  | [] => pure []
  | (t, b) :: rest =>
      return (← replaceM step t, ← replaceAllM step b) :: (← replaceCasesM step rest)

end

/-- Replaces nodes by a step without effects. -/
def replace (step : Node → Option Node) (n : Node) : Node :=
  Id.run (n.replaceM (fun k => pure (step k)))

/-- The nodes a step is called on, in order. -/
def replaceVisits (step : Node → Option Node) (n : Node) : List Node :=
  ((n.replaceM (m := StateM (List Node)) (fun k => do
    modify (· ++ [k])
    return step k)).run []).2

end Resumable.Node
