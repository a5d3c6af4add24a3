import SheetFormula.Word

/-!
Documents: texts that can be laid out in several ways. A choice has a flat form, written where the line
has room for it, and a broken one. Main definitions: `Document.room`, how much of a line a document
takes, and `Document.render`, which commits each choice as it comes to it.
-/

set_option autoImplicit false

namespace SheetFormula

/-- A text with line breaks, indentation and choices between two forms. -/
inductive Document where
  | empty
  | text (s : String)
  | line
  | append (first second : Document)
  | choose (flat broken : Document)
  | nest (indent : Int) (body : Document)
deriving Repr, Inhabited

namespace Document

instance : Append Document := ⟨append⟩

/-- The documents one after another. -/
def concat : List Document → Document
  | [] => .empty
  | d :: ds => d ++ concat ds

/-- The documents with a separator between each two. -/
def join (separator : Document) : List Document → Document
  | [] => .empty
  | [d] => d
  | d :: ds => d ++ (separator ++ join separator ds)

/-- What is kept when documents are put together holds of documents joined. -/
theorem join_of_append {p : Document → Prop} {separator : Document} {ds : List Document}
    (empty : p .empty) (append : ∀ {a b}, p a → p b → p (a ++ b)) (hseparator : p separator)
    (h : ∀ d ∈ ds, p d) : p (join separator ds) := by
  induction ds with
  | nil => exact empty
  | cons d ds ih =>
    obtain ⟨hd, hds⟩ := List.forall_mem_cons.mp h
    cases ds with
    | nil => exact hd
    | cons d' ds => exact append hd (append hseparator (ih hds))

/-- What a document leaves of the room on a line. -/
inductive Room where
  | over
  | left (columns : Nat)
  | broken
deriving DecidableEq, Repr

/-- What is left of `columns` after the document: nothing if it is too wide, all the rest of the line if
it breaks the line before that. In a flat document lines do not break and choices are flat; elsewhere a
choice is measured by its broken form. -/
def room (flat : Bool) : Document → Nat → Room
  | .empty, columns => .left columns
  | .text s, columns => if s.length ≤ columns then .left (columns - s.length) else .over
  | .line, columns => if flat then .left columns else .broken
  | .append a b, columns =>
    match room flat a columns with
    | .left columns => room flat b columns
    | r => r
  | .choose f b, columns => if flat then room flat f columns else room flat b columns
  | .nest _ d, columns => room flat d columns

/-- A document still to be written, flat or not. -/
structure Pending where
  flat : Bool
  document : Document
deriving Repr

/-- The documents fit into the rest of the line, or a line break comes before it is full. -/
def fitsAll : List Pending → Nat → Bool
  | [], _ => true
  | p :: rest, columns =>
    match p.document.room p.flat columns with
    | .over => false
    | .left columns => fitsAll rest columns
    | .broken => true

/-- A document fits flat before all that is still to be written. -/
def fits (columns : Int) (d : Document) (rest : List Pending) : Bool :=
  decide (0 ≤ columns) && fitsAll (⟨true, d⟩ :: rest) columns.toNat

/-- Why a line cannot begin where it should: left of the margin, or further right than any line goes. -/
inductive Misplacement where
  | leftOfMargin
  | tooFarRight
deriving DecidableEq, Repr

/-- The greatest indentation of a line. -/
def greatestIndent : Int := 0x1000000000000

/-- What is wrong with an indentation. -/
def Misplacement.ofIndent? (indent : Int) : Option Misplacement :=
  if indent < 0 then some .leftOfMargin
  else if greatestIndent < indent then some .tooFarRight
  else none

/-- What has been written: the text, the column reached, and the first line that could not begin where
it should. -/
structure Page where
  text : String
  column : Int
  misplaced : Option Misplacement := none
deriving DecidableEq, Repr

/-- Writes a text on the current line. -/
def Page.write (p : Page) (s : String) : Page :=
  { p with text := p.text ++ s, column := p.column + s.length }

/-- Begins a new line with an indentation, if it can begin there. -/
def Page.breakLine (p : Page) (indent : Int) : Page :=
  match Misplacement.ofIndent? indent with
  | none => { p with
      text := p.text ++ "\n" ++ String.ofList (List.replicate indent.toNat ' ')
      column := indent }
  | some m => { text := p.text ++ "\n", column := indent, misplaced := p.misplaced.or (some m) }

/-- Writes a document, with `rest` to follow. The room on a line and the indentation of a new one are
words. -/
def write (width : Int) : Document → Int → Bool → List Pending → Page → Page
  | .empty, _, _, _, page => page
  | .text s, _, _, _, page => page.write s
  | .line, indent, flat, _, page => if flat then page else page.breakLine (Word.wrap indent)
  | .append a b, indent, flat, rest, page =>
    write width b indent flat rest (write width a indent flat (⟨flat, b⟩ :: rest) page)
  | .choose f b, indent, flat, rest, page =>
    if flat || fits (Word.wrap (width - page.column)) f rest then write width f indent true rest page
    else write width b indent false rest page
  | .nest n d, indent, flat, rest, page => write width d (indent + n) flat rest page

/-- The page that a document fills, with lines of at most `width` columns where it can, the first line
beginning in a given column. -/
def render (d : Document) (width column : Int) : Page :=
  write width d 0 false [] { text := "", column }

end Document

end SheetFormula
