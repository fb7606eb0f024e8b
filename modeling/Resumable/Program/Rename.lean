/-
  Resumable.Program.Rename — references to declared names, redirected.

  Constructs that are copied and not split still have to read declared names from the container.
  `rename` copies a node with every such reference redirected.  Outside function literals a `var`
  becomes assignments to the container, just as a split one does.  Inside a function literal its
  parameters and its own `var` names hide the declared ones.
-/
import Resumable.Program.Scope
import Resumable.Program.Vars

namespace Resumable.Program

/-- Where a reference stands: the names hidden there, and whether a function literal is around
    it. -/
structure Surroundings where
  hidden : List String := []
  inFunction : Bool := false
  deriving Repr, Inhabited

namespace Surroundings

/-- The inside of a function literal. -/
def enter (s : Surroundings) (params : List String) (body : List Node) : Surroundings :=
  { hidden := s.hidden ++ params ++ Node.varsAll body, inFunction := true }

end Surroundings

/-- A list of assignments as one expression. -/
def assignments : List Node → Node
  | [e] => e
  | es => .seq es

/-- A reference to a name. -/
def renameName (s : Surroundings) (x : String) : StateM Scope Node := do
  if s.hidden.contains x then return .name x else return (← get).resolve x

open Node in
mutual

/-- Copies a node with references to declared names redirected to the container. -/
def rename (s : Surroundings) : Node → StateM Scope Node
  | absent => pure absent
  | name x => renameName s x
  | n@(num _) | n@(string _) | n@(atom _) | n@(regexp _ _)
  | n@(breakTo _) | n@(continueTo _) | n@debugger => pure n
  | array es => do return array (← renameAll s es)
  | object ps => do return object (← renameFields s ps)
  | call c as => do return call (← rename s c) (← renameAll s as)
  | new c as => do return new (← rename s c) (← renameAll s as)
  | binary op l r => do return binary op (← rename s l) (← rename s r)
  | unary side op e => do return unary side op (← rename s e)
  | assign op t v => do return assign op (← rename s t) (← rename s v)
  | dot b f => do return dot (← rename s b) f
  | sub b i => do return sub (← rename s b) (← rename s i)
  | conditional t y n => do return conditional (← rename s t) (← rename s y) (← rename s n)
  | seq es => do return seq (← renameAll s es)
  | function f ps b => do return function f ps (← renameAll (s.enter ps b) b)
  | stat e => do return stat (← rename s e)
  | var ds => do
      if s.inFunction then return var (← renameFields s ds)
      else return stat (assignments (← localize s ds))
  | const ds => do return const (← renameFields s ds)
  | block b => do return block (← renameAll s b)
  | ifElse c y n => do return ifElse (← rename s c) (← rename s y) (← rename s n)
  | forLoop (var ds) c st b => do
      let init ←
        if s.inFunction then var <$> renameFields s ds
        else assignments <$> localize s ds
      return forLoop init (← rename s c) (← rename s st) (← rename s b)
  | forLoop i c st b => do
      return forLoop (← rename s i) (← rename s c) (← rename s st) (← rename s b)
  | Node.forIn (var [(x, i)]) o b => do
      let init ←
        if s.inFunction then (fun i => var [(x, i)]) <$> rename s i
        else (fun scope => scope.field x) <$> get
      return Node.forIn init (← rename s o) (← rename s b)
  | Node.forIn i o b => do return Node.forIn (← rename s i) (← rename s o) (← rename s b)
  | whileLoop c b => do return whileLoop (← rename s c) (← rename s b)
  | doLoop c b => do return doLoop (← rename s c) (← rename s b)
  | label l b => do return label l (← rename s b)
  | ret v => do return ret (← rename s v)
  | Node.throw v => do return Node.throw (← rename s v)
  | Node.tryCatch b h f => do
      let b ← renameAll s b
      let f ← renameFinalizer s f
      let h ← renameHandler s h
      return Node.tryCatch b h f
  | switch d cs => do
      let cs ← renameCases s cs
      return switch (← rename s d) cs
  | withObject o b => do return withObject (← rename s o) (← rename s b)
  | defun f ps b => do return defun f ps (← renameAll s b)
  | toplevel b => do return toplevel (← renameAll s b)
  | splice ns => do return splice (← renameAll s ns)

/-- Copies the nodes of a list. -/
def renameAll (s : Surroundings) : List Node → StateM Scope (List Node)
  | [] => pure []
  | n :: rest => return (← rename s n) :: (← renameAll s rest)

/-- Copies the values of named fields. -/
def renameFields (s : Surroundings) : List (String × Node) → StateM Scope (List (String × Node))
  | [] => pure []
  | (k, n) :: rest => return (k, ← rename s n) :: (← renameFields s rest)

/-- Turns `var` bindings into assignments to the container; a binding without a value gets
    null. -/
def localize (s : Surroundings) : List (String × Node) → StateM Scope (List Node)
  | [] => pure []
  | (x, i) :: rest => do
      modify (·.declare x)
      let value ← if i.isAbsent then pure Node.null else rename s i
      let here := assign "" ((← get).field x) value
      return here :: (← localize s rest)

/-- Copies a catch clause. -/
def renameHandler (s : Surroundings) :
    Option (String × List Node) → StateM Scope (Option (String × List Node))
  | none => pure none
  | some (x, b) => return some (x, ← renameAll s b)

/-- Copies a `finally` list. -/
def renameFinalizer (s : Surroundings) : Option (List Node) → StateM Scope (Option (List Node))
  | none => pure none
  | some b => return some (← renameAll s b)

/-- Copies switch clauses. -/
def renameCases (s : Surroundings) :
    List (Node × List Node) → StateM Scope (List (Node × List Node))
  | [] => pure []
  | (t, b) :: rest => return (← rename s t, ← renameAll s b) :: (← renameCases s rest)

end

end Resumable.Program
