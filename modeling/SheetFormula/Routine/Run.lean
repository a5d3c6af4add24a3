import SheetFormula.Fault
import SheetFormula.Number.Basic
import SheetFormula.Routine.Basic

/-!
Running a routine. The surroundings supply cells, ranges, named values and functions, each in a monad of
their own choice, so that a run is the sequence of the requests it makes. Once a mark for the debugger
has been passed, in this run or before it, every later request says so.
-/

set_option autoImplicit false

namespace SheetFormula

/-- Values that a run handles. What the surroundings bring in may be foreign. -/
inductive Value (α : Type) where
  | number (value : Number)
  | text (value : String)
  | boolean (value : Bool)
  | empty
  | matrix (rows : List (List (Value α)))
  | foreign (value : α)
deriving Repr, Inhabited

/-- What surroundings may fail to supply. -/
inductive Resource where
  | cell
  | range
  | symbol
deriving DecidableEq, Repr

/-- The word for a resource in complaints. -/
def Resource.name : Resource → String
  | .cell => "cell reference"
  | .range => "range"
  | .symbol => "named value"

/-- The complaint about a resource that is not supplied. -/
def Resource.complaint (r : Resource) : String :=
  "no " ++ r.name ++ " resolver: missing resolver"

/-- The value is the one that stands for an argument left out. -/
def Value.isEmpty {α : Type} : Value α → Bool
  | .empty => true
  | _ => false

/-- Why a run gives no value. A literal is missing where a formula runs the routine of another one that
has more of them. -/
inductive Failure (ε : Type) where
  | fault (f : Fault)
  | missing (resource : Resource)
  | raised (error : ε)
  | missingLiteral
deriving DecidableEq, Repr

/-- The surroundings of a run: each request is told whether the debugger has been reached, and a request
for a cell or range whether it wants the bare reference. -/
structure Surroundings (m : Type → Type) (ε α : Type) where
  cell : Option (Bool → String → Bool → m (Except ε (Value α))) := none
  range : Option (Bool → String → Bool → m (Except ε (Value α))) := none
  symbol : Option (Bool → String → m (Except ε (Value α))) := none
  function : String → Option (Bool → List (Value α) → m (Except ε (Value α))) := fun _ => none
  /-- Called with the formula in normal form at each mark for the debugger. -/
  onDebug : Option (String → m Unit) := none

/-- The literals of the formula that is run. -/
structure Inputs where
  dependencies : List String
  numbers : List Number
  strings : List String
  symbols : List String
deriving DecidableEq, Repr

namespace Run

variable {m : Type → Type} {ε α : Type}

/-- The slots filled so far, the last one first. -/
abbrev Slots (α : Type) := List (Nat × Value α)

/-- The value of an operand, if the literal or the slot exists. -/
def operand? (inputs : Inputs) (slots : Slots α) : Operand → Option (Value α)
  | .slot index => slots.lookup index
  | .number index => inputs.numbers[index]?.map .number
  | .string index => inputs.strings[index]?.map .text
  | .boolean value => some (.boolean value)
  | .empty => some .empty

/-- The values of operands, if they all exist. -/
def operands? (inputs : Inputs) (slots : Slots α) : List Operand → Option (List (Value α))
  | [] => some []
  | o :: os =>
    match operand? inputs slots o, operands? inputs slots os with
    | some v, some vs => some (v :: vs)
    | _, _ => none

/-- A request to the surroundings, if they can be asked and the literal exists. -/
def request [Monad m] {β : Type} (resource : Resource) (ask : Option (β → m (Except ε (Value α))))
    (literal : Option β) : m (Except (Failure ε) (Value α)) :=
  match ask, literal with
  | none, _ => pure (.error (.missing resource))
  | some _, none => pure (.error .missingLiteral)
  | some ask, some literal => do
    match ← ask literal with
    | .ok value => pure (.ok value)
    | .error e => pure (.error (.raised e))

/-- A call of a function by name. -/
def callFunction [Monad m] (function : Option (List (Value α) → m (Except ε (Value α))))
    (name : String) (arguments : Option (List (Value α))) : m (Except (Failure ε) (Value α)) :=
  match function, arguments with
  | none, _ =>
    pure (.error (.fault ⟨.unknownFunction, .noImplementation name, -1, "", none⟩))
  | some _, none => pure (.error .missingLiteral)
  | some function, some arguments => do
    match ← function arguments with
    | .ok value => pure (.ok value)
    | .error e => pure (.error (.raised e))

/-- The slot that an instruction fills and its value; nothing for a mark. -/
def value [Monad m] (env : Surroundings m ε α) (inputs : Inputs) (debugging : Bool)
    (slots : Slots α) : Instruction → Option (Nat × m (Except (Failure ε) (Value α)))
  | .cell slot index bare =>
    some (slot, request .cell (env.cell.map fun f s => f debugging s bare)
      inputs.dependencies[index]?)
  | .range slot index bare =>
    some (slot, request .range (env.range.map fun f s => f debugging s bare)
      inputs.dependencies[index]?)
  | .symbol slot index =>
    some (slot, request .symbol (env.symbol.map fun f s => f debugging s) inputs.symbols[index]?)
  | .call slot name arguments =>
    some (slot, callFunction ((env.function name).map fun f => f debugging) name
      (operands? inputs slots arguments))
  | .array slot columns cells =>
    some (slot, pure <| match operands? inputs slots cells with
      | some values => .ok (.matrix (rowsOf columns values))
      | none => .error .missingLiteral)
  | .debug => none

/-- Runs code from an instruction's position on and gives the value of `result`. At a mark, `onMark` is
told its position before the surroundings are. -/
def code [Monad m] (env : Surroundings m ε α) (inputs : Inputs) (normalForm : String)
    (onMark : Nat → m Unit) (result : Operand) :
    Nat → Bool → Slots α → List Instruction → m (Except (Failure ε) (Value α))
  | _, _, slots, [] =>
    match operand? inputs slots result with
    | some v => pure (.ok v)
    | none => pure (.error .missingLiteral)
  | position, debugging, slots, i :: rest =>
    match value env inputs debugging slots i with
    | none => do
      onMark position
      match env.onDebug with
      | some f => f normalForm
      | none => pure ()
      code env inputs normalForm onMark result (position + 1) true slots rest
    | some (slot, ask) => do
      match ← ask with
      | .ok v =>
        code env inputs normalForm onMark result (position + 1) debugging ((slot, v) :: slots) rest
      | .error e => pure (.error e)

end Run

/-- Runs a routine on the literals of a formula; `debugging` tells whether the debugger has been reached
before. -/
def Routine.run {m : Type → Type} [Monad m] {ε α : Type} (r : Routine)
    (env : Surroundings m ε α) (inputs : Inputs) (normalForm : String) (debugging : Bool)
    (onMark : Nat → m Unit) : m (Except (Failure ε) (Value α)) :=
  Run.code env inputs normalForm onMark r.result 0 debugging [] r.code

end SheetFormula
