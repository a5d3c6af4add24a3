import SheetFormula.Number.Basic
import SheetFormula.Operator

/-!
Expressions: the tree of a formula. Every node carries a label with its text, its mark for the debugger
and the tokens that it covers. The text of an operation is its operator, of a call the function name, of
a reference or a name its spelling, of a string its value.
-/

set_option autoImplicit false

namespace SheetFormula

/-- The first and the last token that a node covers, as indices into the tokens of the formula. -/
structure Span where
  start : Int
  stop : Int
deriving DecidableEq, Repr, Inhabited

/-- What every node carries. -/
structure Label where
  text : String
  debug : Bool
  span : Span
deriving DecidableEq, Repr, Inhabited

/-- What a leaf stands for. A string, a reference and a name have their text in the label. -/
inductive Atom where
  | number (value : Number)
  | string
  | boolean (value : Bool)
  | reference
  | symbol
  | empty
  | other (kind : String)
deriving DecidableEq, Repr, Inhabited

/-- A node with its children. A unary operation is written before its operand or, with `suffix`, after
it. -/
inductive Expr where
  | leaf (label : Label) (atom : Atom)
  | unary (label : Label) (suffix : Bool) (operand : Expr)
  | binary (label : Label) (left right : Expr)
  | call (label : Label) (arguments : List Expr)
  | array (label : Label) (rows : List (List Expr))
deriving Repr, Inhabited

namespace Expr

/-- The kinds of nodes. -/
inductive Kind where
  | number
  | string
  | boolean
  | reference
  | symbol
  | empty
  | unary
  | binary
  | call
  | array
  | other (name : String)
deriving DecidableEq, Repr, Inhabited

/-- The name of a kind in listings. -/
def Kind.name : Kind → String
  | .number => "NUMBER"
  | .string => "STRING"
  | .boolean => "BOOLEAN"
  | .reference => "REFERENCE"
  | .symbol => "SYMBOL"
  | .empty => "EMPTY"
  | .unary => "UNARY_OPERATION"
  | .binary => "BIN_OPERATION"
  | .call => "FUNCALL"
  | .array => "ARRAY"
  | .other name => name

/-- The kind of a given name. -/
def Kind.ofName (name : String) : Kind :=
  ([.number, .string, .boolean, .reference, .symbol, .empty, .unary, .binary, .call, .array].find?
    (·.name == name)).getD (.other name)

/-- Nodes of this kind have no children. -/
def Kind.isLeaf : Kind → Bool
  | .unary | .binary | .call | .array => false
  | _ => true

def label : Expr → Label
  | .leaf l _ => l
  | .unary l _ _ => l
  | .binary l _ _ => l
  | .call l _ => l
  | .array l _ => l

def kind : Expr → Kind
  | .leaf _ (.number _) => .number
  | .leaf _ .string => .string
  | .leaf _ (.boolean _) => .boolean
  | .leaf _ .reference => .reference
  | .leaf _ .symbol => .symbol
  | .leaf _ .empty => .empty
  | .leaf _ (.other name) => .other name
  | .unary .. => .unary
  | .binary .. => .binary
  | .call .. => .call
  | .array .. => .array

def text (e : Expr) : String :=
  e.label.text

def debug (e : Expr) : Bool :=
  e.label.debug

def span (e : Expr) : Span :=
  e.label.span

/-- The node with another label. -/
def withLabel : Expr → Label → Expr
  | .leaf _ a, l => .leaf l a
  | .unary _ s e, l => .unary l s e
  | .binary _ a b, l => .binary l a b
  | .call _ as, l => .call l as
  | .array _ rs, l => .array l rs

/-- The node with another text. -/
def withText (e : Expr) (text : String) : Expr :=
  e.withLabel { e.label with text }

/-- The node marked for the debugger; its tokens begin with the marker's. -/
def marked (e : Expr) (index : Int) : Expr :=
  e.withLabel { e.label with debug := true, span := ⟨index, e.span.stop⟩ }

/-- A text that names a range, not a single cell. -/
def namesRange (text : String) : Bool :=
  text.toList.contains ':'

/-- A reference to a range. -/
def isRange : Expr → Bool
  | .leaf l .reference => namesRange l.text
  | _ => false

/-- A unary or binary operation. -/
def isOperation : Expr → Bool
  | .unary .. | .binary .. => true
  | _ => false

/-- A sign and its operand. -/
def isSigned : Expr → Bool
  | .unary _ suffix _ => !suffix
  | _ => false

/-- How tightly a node holds together. -/
def priority : Expr → Nat
  | .binary l _ _ => Operator.priority l.text
  | .unary l suffix _ => if suffix then Operator.priority l.text else Operator.signPriority
  | _ => Operator.atomPriority

mutual

/-- The nodes of a tree, each before its children. -/
def nodes : Expr → List Expr
  | .leaf l a => [.leaf l a]
  | .unary l s e => .unary l s e :: nodes e
  | .binary l a b => .binary l a b :: (nodes a ++ nodes b)
  | .call l as => .call l as :: nodesOfList as
  | .array l rs => .array l rs :: nodesOfRows rs

def nodesOfList : List Expr → List Expr
  | [] => []
  | e :: es => nodes e ++ nodesOfList es

def nodesOfRows : List (List Expr) → List Expr
  | [] => []
  | r :: rs => nodesOfList r ++ nodesOfRows rs

end

mutual

/-- Equality of trees up to the tokens that they cover. Numbers compare by value, and a node of another
kind equals nothing. -/
def same : Expr → Expr → Bool
  | .leaf l a, .leaf l' a' =>
    l.debug == l'.debug &&
      match a, a' with
      | .number v, .number v' => v.same v'
      | .boolean v, .boolean v' => v == v'
      | .string, .string => l.text == l'.text
      | .reference, .reference => l.text == l'.text
      | .symbol, .symbol => l.text == l'.text
      | .empty, .empty => true
      | _, _ => false
  | .unary l s e, .unary l' s' e' =>
    l.debug == l'.debug && l.text == l'.text && s == s' && same e e'
  | .binary l a b, .binary l' a' b' =>
    l.debug == l'.debug && l.text == l'.text && same a a' && same b b'
  | .call l as, .call l' as' => l.debug == l'.debug && l.text == l'.text && sameList as as'
  | .array l rs, .array l' rs' => l.debug == l'.debug && sameRows rs rs'
  | _, _ => false

def sameList : List Expr → List Expr → Bool
  | [], [] => true
  | e :: es, e' :: es' => same e e' && sameList es es'
  | _, _ => false

def sameRows : List (List Expr) → List (List Expr) → Bool
  | [], [] => true
  | r :: rs, r' :: rs' => sameList r r' && sameRows rs rs'
  | _, _ => false

end

end Expr

end SheetFormula
