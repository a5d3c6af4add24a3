import SheetFormula.Expr.Formula
import SheetFormula.Grouping
import SheetFormula.Layout.Document
import SheetFormula.Signature.Standard

/-!
Formulas over several lines. Each call, array and binary operation is a choice between one line and one
line for each part; arguments that are declared to repeat in groups stay together where there is room.
-/

set_option autoImplicit false

namespace SheetFormula

/-- How formulas are laid out. -/
structure Style where
  registry : Registry := .standard
  /-- How far each level is set in. -/
  indent : Nat := 2

namespace Style

open Document

/-- The width of a line where none is asked for. -/
def defaultWidth : Int := 80

/-- A document in parentheses where they are needed. -/
def parenthesize (needed : Bool) (d : Document) : Document :=
  if needed then text "(" ++ d ++ text ")" else d

/-- A document with the debugger's mark, if the node has one. -/
def mark (debug operation : Bool) (d : Document) : Document :=
  if debug then
    if operation then text "?(" ++ d ++ text ")" else text "?" ++ d
  else d

/-- A separator and a line break. -/
def breakAfter (separator : String) : Document :=
  text separator ++ line

/-- A binary operation, broken after the operator. -/
def operation (style : Style) (op : String) (left right : Document) : Document :=
  choose (concat [left, text (" " ++ op ++ " "), right])
    (concat [left, text (" " ++ op), nest style.indent (line ++ right)])

/-- Lines between two brackets, set in when broken. -/
def bracketed (style : Style) (opening closing separator : String) (flat broken : List Document) :
    Document :=
  choose (concat [text opening, join (text (separator ++ " ")) flat, text closing])
    (concat [text opening, nest style.indent (line ++ join (breakAfter separator) broken), line,
      text closing])

/-- The arguments of one group, on one line if there is room. -/
def group (arguments : List Document) : Document :=
  choose (join (text ", ") arguments) (join (breakAfter ",") arguments)

/-- The lines of the arguments of a call. Where several arguments repeat, whole groups of them share a
line, and so do as many arguments just before the first of them. -/
def argumentLines (style : Style) (name : String) (arguments : List Document) : List Document :=
  match style.registry.get? name with
  | none => arguments
  | some s =>
    if s.repeatingCount < 2 then arguments
    else
      let size := s.repeatingCount.toNat
      let start := s.repeatingStart?.getD 0
      let start := if size ≤ start then start - size else start
      let (whole, rest) := groups (size - 1) (arguments.drop start)
      arguments.take start ++ whole.map group ++ rest

/-- A call; without arguments it is never broken. -/
def call (style : Style) (name : String) (arguments : List Document) : Document :=
  match arguments with
  | [] => text (name ++ "()")
  | arguments =>
    style.bracketed (name ++ "(") ")" "," arguments (style.argumentLines name arguments)

mutual

/-- The document of an expression. -/
def document (style : Style) : Expr → Document
  | .leaf l a => mark l.debug false (text (Expr.atomText l.text a))
  | .unary l suffix e =>
    mark l.debug true
      (if suffix then
        parenthesize (Expr.suffixedNeedsParens e) (document style e) ++ text l.text
       else text l.text ++ parenthesize (Expr.signedNeedsParens e) (document style e))
  | .binary l a b =>
    mark l.debug true
      (style.operation l.text (parenthesize (Expr.leftNeedsParens l.text a) (document style a))
        (parenthesize (Expr.rightNeedsParens l.text b) (document style b)))
  | .call l as => mark l.debug false (style.call l.text (documents style as))
  | .array l rs =>
    let rows := rowDocuments style rs
    mark l.debug false (style.bracketed "\x7b" "\x7d" ";" rows rows)

/-- The documents of expressions. -/
def documents (style : Style) : List Expr → List Document
  | [] => []
  | e :: es => document style e :: documents style es

/-- The documents of the rows of an array. -/
def rowDocuments (style : Style) : List (List Expr) → List Document
  | [] => []
  | r :: rs => join (text ", ") (documents style r) :: rowDocuments style rs

end

/-- The page of a formula, which begins with an equals sign and has lines of at most `width` columns
where it can. -/
def page (style : Style) (width : Int) (e : Expr) : Page :=
  let p := (style.document e).render (if width ≤ 0 then defaultWidth else width) 1
  { p with text := "=" ++ p.text }

/-- A formula laid out in lines of at most `width` columns where it can be. -/
def prettify (style : Style) (width : Int) (e : Expr) : String :=
  (style.page width e).text

end Style

end SheetFormula
