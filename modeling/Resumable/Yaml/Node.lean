/-
  Resumable.Yaml.Node — the structure of a document.

  A document is a tree of scalars, sequences and mappings.  An alias refers to an anchored node
  by number; since an anchor is known from the start of its node on, an alias inside the node may
  refer to the node itself, so following aliases can go round in circles.
-/
import Resumable.Yaml.Tag
import Resumable.Yaml.Token

namespace Resumable.Yaml

/-! ## §1. Nodes and documents. -/

/-- A node of a document.  Lines count from one. -/
inductive Node where
  | scalar (tag : Tag) (value : String) (style : ScalarStyle) (line : Nat)
  | sequence (tag : Tag) (items : List Node) (line : Nat)
  | mapping (tag : Tag) (entries : List (Node × Node)) (line : Nat)
  /-- A reference by name to the anchored node of the given number. -/
  | reference (anchor : Nat) (name : String) (line : Nat)
  deriving Repr, Inhabited

namespace Node

/-- The line a node starts on. -/
def line : Node → Nat
  | scalar _ _ _ l => l
  | sequence _ _ l => l
  | mapping _ _ l => l
  | reference _ _ l => l

/-- Whether the node is a null written out, not behind an alias. -/
def isNull : Node → Bool
  | scalar tag _ _ _ => tag == Tag.null
  | _ => false

mutual

/-- The number of nodes, aliases not followed. -/
def size : Node → Nat
  | scalar _ _ _ _ => 1
  | sequence _ items _ => sizeAll items + 1
  | mapping _ entries _ => sizeEntries entries + 1
  | reference _ _ _ => 1

/-- The number of nodes of a list. -/
def sizeAll : List Node → Nat
  | [] => 0
  | n :: rest => n.size + sizeAll rest

/-- The number of nodes of mapping entries. -/
def sizeEntries : List (Node × Node) → Nat
  | [] => 0
  | (k, v) :: rest => k.size + v.size + sizeEntries rest

end

end Node

/-- A document: its root and its anchored nodes. -/
structure Document where
  root : Node
  /-- The anchored nodes by number. -/
  anchors : List (Nat × Node) := []
  deriving Repr, Inhabited

namespace Document

/-- The node an anchor number stands for. -/
def anchored? (d : Document) (anchor : Nat) : Option Node :=
  (d.anchors.find? (fun a => a.1 == anchor)).map (·.2)

/-- The node itself, or the one an alias refers to. -/
def follow (d : Document) : Node → Node
  | n@(.reference a _ _) => (d.anchored? a).getD n
  | n => n

/-- The tag of a node, an alias having that of its target. -/
def tagOf (d : Document) (n : Node) : Tag :=
  match d.follow n with
  | .scalar tag _ _ _ => tag
  | .sequence tag _ _ => tag
  | .mapping tag _ _ => tag
  | .reference _ _ _ => ""

end Document

/-! ## §2. Reading nodes from tokens. -/

/-- The state of a reader. -/
structure Reader where
  scanner : Scanner
  /-- Tag handles and what they stand for. -/
  handles : List (String × String) := []
  /-- Anchor names, the latest definition first. -/
  names : List (String × Nat) := []
  /-- Anchored nodes that have been read. -/
  anchors : List (Nat × Node) := []

/-- A reading step. -/
abbrev Read := StateT Reader (Except SyntaxError)

namespace Reader

/-- The next token, which stays in place. -/
def peek : Read Token := do
  let r ← get
  let (t, scanner) ← Scanner.peek.run r.scanner
  set { r with scanner }
  return t

/-- Takes the next token away. -/
def skip : Read Unit := do
  let r ← get
  let (_, scanner) ← Scanner.skip.run r.scanner
  set { r with scanner }

/-- The next token after taking the current one away. -/
def next : Read Token := do skip; peek

/-- Registers an anchor under a fresh number. -/
def register (name : String) : Read Nat := do
  let r ← get
  let number := r.names.length
  set { r with names := (name, number) :: r.names }
  return number

/-- Records the node of an anchor. -/
def record (anchor : Option Nat) (n : Node) : Read Node := do
  match anchor with
  | some a => modify (fun r => { r with anchors := (a, n) :: r.anchors })
  | none => pure ()
  return n

/-- The properties in front of a node. -/
structure Properties where
  anchor : Option Nat := none
  /-- The tag in full, empty if there is none. -/
  tag : String := ""
  /-- Whether an anchor or a tag was given. -/
  given : Bool := false

/-- The meaning of a tag token. -/
def fullTag (name : TagName) (place : Mark) : Read String := do
  if name.handle.isEmpty then return name.suffix
  else
    let handles := (← get).handles ++ [("!", "!"), ("!!", Tag.standard)]
    match handles.lookup name.handle with
    | some stem => return stem ++ name.suffix
    | none => throw (.badProperty place)

/-- Reads an anchor and a tag in either order, and the token after them. -/
def properties (t : Token) : Read (Properties × Token) := do
  match t.kind with
  | .anchor name =>
      let anchor ← register name
      let t ← next
      match t.kind with
      | .tag name =>
          let tag ← fullTag name t.mark
          return ({ anchor := some anchor, tag, given := true }, ← next)
      | _ => return ({ anchor := some anchor, given := true }, t)
  | .tag name =>
      let tag ← fullTag name t.mark
      let t ← next
      match t.kind with
      | .anchor name =>
          let anchor ← register name
          return ({ anchor := some anchor, tag, given := true }, ← next)
      | _ => return ({ tag, given := true }, t)
  | _ => return ({}, t)

/-- A tag as it is kept: the given one in short form, or the default. -/
def keptTag (p : Properties) (default : Tag) : Tag :=
  if p.tag.isEmpty || p.tag == "!" then default else Tag.short p.tag

/-- The node of a scalar. -/
def scalarNode (p : Properties) (value : String) (style : ScalarStyle) (line : Nat) : Node :=
  let default :=
    if style != .plain then Tag.str
    else if value == "<<" then Tag.merge
    else Tag.ofPlain value
  .scalar (keptTag p default) value style line

/-- A node that was left out. -/
def emptyNode (mark : Mark) : Node := scalarNode {} "" .plain (mark.line + 1)

mutual

/-- Reads a node.  `block` allows block collections, `indentless` also a sequence at the column
    of the enclosing mapping.  The fuel bounds the recursion. -/
def node : (fuel : Nat) → (block indentless : Bool) → Read Node
  | 0, _, _ => throw .tooDeep
  | fuel + 1, block, indentless => do
      let first ← peek
      let line := first.mark.line + 1
      match first.kind with
      | .reference name =>
          match (← get).names.find? (fun a => a.1 == name) with
          | some (_, number) => skip; return .reference number name line
          | none => throw (.unknownAnchor name)
      | _ =>
          let (p, t) ← properties first
          match t.kind with
          | .scalar value style => skip; record p.anchor (scalarNode p value style line)
          | .flowSequenceStart =>
              skip
              let items ← flowItems fuel true
              record p.anchor (.sequence (keptTag p Tag.seq) items line)
          | .flowMappingStart =>
              skip
              let entries ← flowEntries fuel true
              record p.anchor (.mapping (keptTag p Tag.map) entries line)
          | kind =>
              if kind == .blockEntry && indentless then
                let items ← indentlessItems fuel
                record p.anchor (.sequence (keptTag p Tag.seq) items line)
              else if kind == .blockSequenceStart && block then
                skip
                let items ← blockItems fuel
                record p.anchor (.sequence (keptTag p Tag.seq) items line)
              else if kind == .blockMappingStart && block then
                skip
                let entries ← blockEntries fuel
                record p.anchor (.mapping (keptTag p Tag.map) entries line)
              else if p.given then record p.anchor (scalarNode p "" .plain line)
              else throw (.unexpectedToken t.mark)

/-- Reads the entries of a block sequence up to its end. -/
def blockItems : (fuel : Nat) → Read (List Node)
  | 0 => throw .tooDeep
  | fuel + 1 => do
      let t ← peek
      match t.kind with
      | .blockEntry =>
          let after ← next
          let item ←
            if after.kind == .blockEntry || after.kind == .blockEnd then pure (emptyNode t.mark)
            else node fuel true false
          return item :: (← blockItems fuel)
      | .blockEnd => skip; return []
      | _ => throw (.unexpectedToken t.mark)

/-- Reads the entries of a sequence that is not indented below its mapping. -/
def indentlessItems : (fuel : Nat) → Read (List Node)
  | 0 => throw .tooDeep
  | fuel + 1 => do
      let t ← peek
      match t.kind with
      | .blockEntry =>
          let after ← next
          let item ←
            if after.kind == .blockEntry || after.kind == .key || after.kind == .value ||
                after.kind == .blockEnd then pure (emptyNode t.mark)
            else node fuel true false
          return item :: (← indentlessItems fuel)
      | _ => return []

/-- Reads the entries of a block mapping up to its end. -/
def blockEntries : (fuel : Nat) → Read (List (Node × Node))
  | 0 => throw .tooDeep
  | fuel + 1 => do
      let t ← peek
      match t.kind with
      | .key =>
          let after ← next
          let key ←
            if after.kind == .key || after.kind == .value || after.kind == .blockEnd then
              pure (emptyNode t.mark)
            else node fuel true true
          let v ← peek
          let value ←
            if v.kind == .value then do
              let after ← next
              if after.kind == .key || after.kind == .value || after.kind == .blockEnd then
                pure (emptyNode v.mark)
              else node fuel true true
            else pure (emptyNode v.mark)
          return (key, value) :: (← blockEntries fuel)
      | .blockEnd => skip; return []
      | _ => throw (.unexpectedToken t.mark)

/-- Reads the items of a flow sequence up to its end; `first` tells whether no comma is due. -/
def flowItems : (fuel : Nat) → (first : Bool) → Read (List Node)
  | 0, _ => throw .tooDeep
  | fuel + 1, first => do
      let t ← peek
      if t.kind == .flowSequenceEnd then skip; return []
      else
        let t ←
          if first then pure t
          else if t.kind == .flowEntry then next
          else throw (.unexpectedToken t.mark)
        if t.kind == .flowSequenceEnd then skip; return []
        else if t.kind == .key then
          let entry ← flowPair fuel
          return .mapping Tag.map [entry] (t.mark.line + 1) :: (← flowItems fuel false)
        else
          let item ← node fuel false false
          return item :: (← flowItems fuel false)

/-- Reads a single pair inside a flow sequence, from its key token on. -/
def flowPair : (fuel : Nat) → Read (Node × Node)
  | 0 => throw .tooDeep
  | fuel + 1 => do
      let t ← next
      let key ←
        if t.kind == .value || t.kind == .flowEntry || t.kind == .flowSequenceEnd then do
          skip
          pure (emptyNode t.mark)
        else node fuel false false
      let v ← peek
      let value ←
        if v.kind == .value then do
          let after ← next
          if after.kind == .flowEntry || after.kind == .flowSequenceEnd then
            pure (emptyNode after.mark)
          else node fuel false false
        else pure (emptyNode v.mark)
      return (key, value)

/-- Reads the entries of a flow mapping up to its end; `first` tells whether no comma is due. -/
def flowEntries : (fuel : Nat) → (first : Bool) → Read (List (Node × Node))
  | 0, _ => throw .tooDeep
  | fuel + 1, first => do
      let t ← peek
      if t.kind == .flowMappingEnd then skip; return []
      else
        let t ←
          if first then pure t
          else if t.kind == .flowEntry then next
          else throw (.unexpectedToken t.mark)
        if t.kind == .flowMappingEnd then skip; return []
        else if t.kind == .key then
          let after ← next
          let key ←
            if after.kind == .value || after.kind == .flowEntry ||
                after.kind == .flowMappingEnd then pure (emptyNode after.mark)
            else node fuel false false
          let v ← peek
          let value ←
            if v.kind == .value then do
              let after ← next
              if after.kind == .flowEntry || after.kind == .flowMappingEnd then
                pure (emptyNode after.mark)
              else node fuel false false
            else pure (emptyNode v.mark)
          return (key, value) :: (← flowEntries fuel false)
        else
          let key ← node fuel false false
          let v ← peek
          return (key, emptyNode v.mark) :: (← flowEntries fuel false)

end

/-! ## §3. Documents. -/

/-- Reads the directives in front of a document. -/
def directives : (fuel : Nat) → (versioned : Bool) → Read Unit
  | 0, _ => throw .tooDeep
  | fuel + 1, versioned => do
      let t ← peek
      match t.kind with
      | .directive (.version major minor) =>
          if versioned || major != 1 || minor != 1 then throw (.badDirective t.mark)
          else skip; directives fuel true
      | .directive (.tagHandle handle stem) =>
          if (← get).handles.any (fun h => h.1 == handle) then throw (.badDirective t.mark)
          else
            modify (fun r => { r with handles := r.handles ++ [(handle, stem)] })
            skip
            directives fuel versioned
      | _ => pure ()

/-- Whether no node can start with the token, so that the document is empty. -/
def endsDocument : TokenKind → Bool
  | .directive _ | .documentStart | .documentEnd | .streamEnd => true
  | _ => false

/-- Reads the first document; `none` if there is none.  What follows its root node is looked at
    only as far as the scanner looks ahead. -/
def document (fuel : Nat) : Read (Option Document) := do
  let t ← peek
  match t.kind with
  | .streamEnd => return none
  | .directive _ | .documentStart =>
      directives fuel false
      let t ← peek
      if t.kind != .documentStart then throw (.unexpectedToken t.mark)
      else
        let t ← next
        let root ← if endsDocument t.kind then pure (emptyNode t.mark) else node fuel true false
        finish root
  | _ => finish (← node fuel true false)
where
  finish (root : Node) : Read (Option Document) := do
    let _ ← peek
    return some { root, anchors := (← get).anchors }

end Reader

/-- The first document of a text; `none` if the text holds none. -/
def Document.parse (bytes : Bytes) : Except SyntaxError (Option Document) := do
  let input := Input.ofBytes bytes
  let fuel := 4 * input.chars.length + 16
  let (d, _) ← (Reader.document fuel).run { scanner := .ofInput input }
  return d

end Resumable.Yaml
