/-
  Resumable.Proofs.Source.Grammar — how the tokens of an expression are read.

  `Derives` is the grammar of expressions as the language has it, one rule for each way of putting
  an expression together, and one goal for each of its nonterminals.  A rule that only passes on
  what binds tighter is a pair of `Lifts`.  What a sequence is read as is a matter of the list of
  its members, so `commas` gives a list.

  Two constructs have a body of statements or of properties, a function and an object literal.
  They stay open: `opens` says which tokens are read as which of them, and nothing is assumed of it
  but that they start with the word or the brace that they start with.

  Line breaks are blanks here.  The language does not let a line end between an operand and the
  increment behind it, so more texts are read here, and that each is read in one way says more.

  A slash divides where the grammar lets it stand (`Divides`), and opens a regular expression
  anywhere else.  So the text of an expression is read in one go: `Lexed` takes the tokens off,
  and `Reads` says that they derive the expression.
-/
import Mathlib.Tactic.ByContra
import Resumable.Tree.Node
import Resumable.Proofs.Source.Tokens

namespace Resumable.Reading

/-! ## §1. Words and marks. -/

/-- The words that are no names. -/
def reservedWords : List String :=
  ["break", "case", "catch", "class", "const", "continue", "debugger", "default", "delete", "do",
    "else", "enum", "export", "extends", "false", "finally", "for", "function", "if", "import",
    "in", "instanceof", "new", "null", "return", "super", "switch", "this", "throw", "true", "try",
    "typeof", "var", "void", "while", "with"]

/-- The words that are literals. -/
def literalWords : List String := ["null", "true", "false"]

/-- The binary operators, from the ones that bind loosest to the ones that bind tightest. -/
def tiers : List (List String) :=
  [["||"], ["&&"], ["|"], ["^"], ["&"], ["==", "!=", "===", "!=="],
    ["<", ">", "<=", ">=", "instanceof", "in"], ["<<", ">>", ">>>"], ["+", "-"], ["*", "/", "%"]]

theorem tier_lt {op : String} {k : Nat} (h : op ∈ tiers.getD k []) : k < 10 := by
  by_contra hk
  have hnone : tiers[k]? = none := List.getElem?_eq_none (Nat.le_of_not_lt hk)
  simp [List.getD_eq_getElem?_getD, hnone] at h

/-- The operators in front of an operand. -/
def operatorsBefore : List String :=
  ["delete", "void", "typeof", "++", "--", "+", "-", "~", "!"]

/-- The operators behind an operand. -/
def operatorsAfter : List String := ["++", "--"]

/-- What may stand in front of the sign of an assignment. -/
def assignments : List String := ["", "*", "/", "%", "+", "-", "<<", ">>", ">>>", "&", "^", "|"]

/-- The token of an operator: some operators are words. -/
def operator (op : String) : Token :=
  if ["in", "instanceof", "delete", "void", "typeof"].contains op then .word op else .mark op

/-- Expressions between commas; a single one stands for itself. -/
def sequence : List Node → Node
  | [e] => e
  | es => .seq es

/-! ## §2. Derivations. -/

/-- What can be derived. -/
inductive Goal where
  | expression
  /-- The members of an expression, between commas. -/
  | commas
  | assignment
  | conditional
  /-- A binary expression with operators of a tier or of a tighter one. -/
  | tier (k : Nat)
  | unary
  /-- An operand with an increment or a decrement behind it. -/
  | updated
  | leftHand
  | call
  /-- A constructor that may have no arguments. -/
  | construction
  | member
  | primary
  | arguments
  /-- The elements of an array; one that is left out is absent. -/
  | elements
  deriving DecidableEq, Repr

/-- What is also derived by another goal. -/
inductive Lifts : Goal → Goal → Prop
  | primary : Lifts .primary .member
  | member : Lifts .member .construction
  | construction : Lifts .construction .leftHand
  | call : Lifts .call .leftHand
  | leftHand : Lifts .leftHand .updated
  | updated : Lifts .updated .unary
  | unary : Lifts .unary (.tier tiers.length)
  | tier (k : Nat) : Lifts (.tier (k + 1)) (.tier k)
  | binary : Lifts (.tier 0) .conditional
  | conditional : Lifts .conditional .assignment

/-- How a goal derives nodes from tokens. -/
inductive Derives (opens : List Token → Node → Prop) : Goal → List Token → List Node → Prop
  | lift {g g' : Goal} {ts : List Token} {e : Node} (h : Lifts g g')
      (d : Derives opens g ts [e]) : Derives opens g' ts [e]
  | expression {ts : List Token} {es : List Node} (d : Derives opens .commas ts es) :
      Derives opens .expression ts [sequence es]
  | lastMember {ts : List Token} {e : Node} (d : Derives opens .assignment ts [e]) :
      Derives opens .commas ts [e]
  | members {ts us : List Token} {e : Node} {es : List Node}
      (first : Derives opens .assignment ts [e]) (others : Derives opens .commas us es) :
      Derives opens .commas (ts ++ .mark "," :: us) (e :: es)
  | assign {op : String} {ts us : List Token} {t v : Node} (h : op ∈ assignments)
      (target : Derives opens .leftHand ts [t]) (value : Derives opens .assignment us [v]) :
      Derives opens .assignment (ts ++ .mark (op ++ "=") :: us) [.assign op t v]
  | choice {ts us ws : List Token} {t y n : Node} (test : Derives opens (.tier 0) ts [t])
      (yes : Derives opens .assignment us [y]) (no : Derives opens .assignment ws [n]) :
      Derives opens .conditional (ts ++ .mark "?" :: (us ++ .mark ":" :: ws))
        [.conditional t y n]
  | binary {op : String} {k : Nat} {ts us : List Token} {l r : Node}
      (h : op ∈ tiers.getD k []) (left : Derives opens (.tier k) ts [l])
      (right : Derives opens (.tier (k + 1)) us [r]) :
      Derives opens (.tier k) (ts ++ operator op :: us) [.binary op l r]
  | before {op : String} {ts : List Token} {e : Node} (h : op ∈ operatorsBefore)
      (operand : Derives opens .unary ts [e]) :
      Derives opens .unary (operator op :: ts) [.unary .before op e]
  | after {op : String} {ts : List Token} {e : Node} (h : op ∈ operatorsAfter)
      (operand : Derives opens .leftHand ts [e]) :
      Derives opens .updated (ts ++ [.mark op]) [.unary .after op e]
  | call {g : Goal} {ts us : List Token} {c : Node} {es : List Node} (h : g = .call ∨ g = .member)
      (callee : Derives opens g ts [c]) (args : Derives opens .arguments us es) :
      Derives opens .call (ts ++ us) [.call c es]
  | dot {g : Goal} {ts : List Token} {b : Node} (f : String) (h : g = .call ∨ g = .member)
      (base : Derives opens g ts [b]) :
      Derives opens g (ts ++ [.mark ".", .word f]) [.dot b f]
  | sub {g : Goal} {ts us : List Token} {b i : Node} (h : g = .call ∨ g = .member)
      (base : Derives opens g ts [b]) (index : Derives opens .expression us [i]) :
      Derives opens g (ts ++ .mark "[" :: (us ++ [.mark "]"])) [.sub b i]
  | new {ts us : List Token} {c : Node} {es : List Node} (callee : Derives opens .member ts [c])
      (args : Derives opens .arguments us es) :
      Derives opens .member (.word "new" :: (ts ++ us)) [.new c es]
  | newBare {ts : List Token} {c : Node} (callee : Derives opens .construction ts [c]) :
      Derives opens .construction (.word "new" :: ts) [.new c []]
  | noArguments : Derives opens .arguments [.mark "(", .mark ")"] []
  | arguments {ts : List Token} {es : List Node} (d : Derives opens .commas ts es) :
      Derives opens .arguments (.mark "(" :: (ts ++ [.mark ")"])) es
  | this : Derives opens .primary [.word "this"] [.name "this"]
  | name {x : String} (h : x ∉ reservedWords) : Derives opens .primary [.word x] [.name x]
  | atom {w : String} (h : w ∈ literalWords) : Derives opens .primary [.word w] [.atom w]
  | num (x : String) : Derives opens .primary [.num x] [.num x]
  | string (s : String) : Derives opens .primary [.string s] [.string s]
  | regexp (p f : String) : Derives opens .primary [.regexp p f] [.regexp p f]
  | array {ts : List Token} {es : List Node} (d : Derives opens .elements ts es) :
      Derives opens .primary (.mark "[" :: (ts ++ [.mark "]"])) [.array es]
  | parens {ts : List Token} {e : Node} (d : Derives opens .expression ts [e]) :
      Derives opens .primary (.mark "(" :: (ts ++ [.mark ")"])) [e]
  | opened {t : Token} {ts : List Token} {n : Node}
      (h : t = .word "function" ∨ t = .mark "\x7b") (ho : opens (t :: ts) n) :
      Derives opens .primary (t :: ts) [n]
  | noElements : Derives opens .elements [] []
  | lastElement {ts : List Token} {e : Node} (d : Derives opens .assignment ts [e]) :
      Derives opens .elements ts [e]
  | hole {ts : List Token} {es : List Node} (others : Derives opens .elements ts es) :
      Derives opens .elements (.mark "," :: ts) (.absent :: es)
  | element {ts us : List Token} {e : Node} {es : List Node}
      (first : Derives opens .assignment ts [e]) (others : Derives opens .elements us es) :
      Derives opens .elements (ts ++ .mark "," :: us) (e :: es)

/-! ## §3. Texts. -/

/-- Whether a slash behind some tokens divides: an expression can go on with one there. -/
def Divides (opens : List Token → Node → Prop) (front : List Token) : Prop :=
  ∃ slash after e, (slash = .mark "/" ∨ slash = .mark "/=") ∧
    Derives opens .expression (front ++ slash :: after) [e]

/-- The tokens of a text that stands behind other tokens. -/
inductive Lexed (opens : List Token → Node → Prop) :
    List Token → List Char → List Token → Prop
  | done {front : List Token} : Lexed opens front [] []
  | blank {front ts : List Token} {cs rest : List Char} {divides : Bool}
      (hd : divides = true ↔ Divides opens front) (h : scan divides cs = some (none, rest))
      (others : Lexed opens front rest ts) : Lexed opens front cs ts
  | token {front ts : List Token} {t : Token} {cs rest : List Char} {divides : Bool}
      (hd : divides = true ↔ Divides opens front) (h : scan divides cs = some (some t, rest))
      (others : Lexed opens (front ++ [t]) rest ts) : Lexed opens front cs (t :: ts)

/-- A text is read as an expression. -/
def Reads (opens : List Token → Node → Prop) (text : String) (e : Node) : Prop :=
  ∃ ts, Lexed opens [] text.toList ts ∧ Derives opens .expression ts [e]

section

variable {opens : List Token → Node → Prop} {front ts us : List Token} {cs : List Char}

/-- A text has one list of tokens at most. -/
theorem Lexed.unique (h : Lexed opens front cs ts) (h' : Lexed opens front cs us) : ts = us := by
  induction h generalizing us with
  | done =>
    cases h' with
    | done => rfl
    | blank _ hs => cases hs
    | token _ hs => cases hs
  | blank hd hs _ ih =>
    cases h' with
    | done => cases hs
    | blank hd' hs' others' =>
      cases Bool.eq_iff_iff.mpr (hd.trans hd'.symm)
      cases hs.symm.trans hs'
      exact ih others'
    | token hd' hs' =>
      cases Bool.eq_iff_iff.mpr (hd.trans hd'.symm)
      cases hs.symm.trans hs'
  | token hd hs _ ih =>
    cases h' with
    | done => cases hs
    | blank hd' hs' =>
      cases Bool.eq_iff_iff.mpr (hd.trans hd'.symm)
      cases hs.symm.trans hs'
    | token hd' hs' others' =>
      cases Bool.eq_iff_iff.mpr (hd.trans hd'.symm)
      cases hs.symm.trans hs'
      rw [ih others']

end

end Resumable.Reading
