import SheetFormula.Cache
import SheetFormula.Expr.Parser
import SheetFormula.Routine.Generate
import SheetFormula.Routine.Literals
import SheetFormula.Routine.Run
import SheetFormula.Signature.Standard

/-!
The compiler: from the text of a formula to something that can be run. Routines are kept in a store under
the key of their formula, and a formula whose key is in the store takes the routine from there without
being read again. A refused formula leaves the store as it was.
-/

set_option autoImplicit false

namespace SheetFormula

/-- A routine with the number under which it was built; no two routines of a store share one. -/
structure Built where
  serial : Nat
  routine : Routine
deriving DecidableEq, Repr

/-- The routines at hand, and how many have been built. -/
structure Store where
  cache : Cache Built
  built : Nat := 0
deriving DecidableEq, Repr

namespace Store

/-- A store without routines that keeps at most `capacity` of them, if that is positive. -/
def ofCapacity (capacity : Int) : Store := { cache := .ofCapacity capacity }

def size (s : Store) : Nat :=
  s.cache.size

/-- Looks for a key; a hit counts as a use. -/
def has (s : Store) (key : String) : Bool × Store :=
  let (found, cache) := s.cache.get? key
  (found.isSome, { s with cache })

def clear (s : Store) : Store :=
  { s with cache := s.cache.clear }

end Store

/-- What a compiler notes down for its maintainers. -/
inductive Trace where
  | compiled (key : String) (instructions : Nat)
  | refused (formula : String) (fault : Fault)
  | marker (key : String) (instruction : Nat)
deriving DecidableEq, Repr

/-- A note as one line. -/
def Trace.text : Trace → String
  | .compiled key instructions =>
    "DEBUG compiled routine key=" ++ key ++ " instructions=" ++ toString instructions
  | .refused formula fault =>
    "DEBUG bad expression formula=" ++ formula ++ " error=" ++ fault.message
  | .marker key instruction =>
    "DEBUG debug marker reached key=" ++ key ++ " instruction=" ++ toString instruction

/-- A formula that has been through the compiler. -/
structure Compiled where
  tokens : List Token
  literals : Literals
  outcome : Except Fault Built

namespace Compiled

def isBad (f : Compiled) : Bool :=
  match f.outcome with
  | .ok _ => false
  | .error _ => true

def fault? (f : Compiled) : Option Fault :=
  match f.outcome with
  | .ok _ => none
  | .error fault => some fault

def built? (f : Compiled) : Option Built :=
  f.outcome.toOption

/-- The structural key of a good formula, the text of a bad one. -/
def normalForm (f : Compiled) : String :=
  match f.outcome with
  | .ok _ => f.literals.key
  | .error _ => Token.spell f.tokens

def inputs (f : Compiled) : Inputs where
  dependencies := f.literals.dependencies
  numbers := f.literals.numbers
  strings := f.literals.strings
  symbols := f.literals.symbols

/-- Runs a formula; `debugging` tells whether the debugger has been reached before. A bad formula asks for
nothing and fails with its fault. -/
def run {m : Type → Type} [Monad m] {ε α : Type} (f : Compiled) (env : Surroundings m ε α)
    (debugging : Bool) (note : Trace → m Unit) : m (Except (Failure ε) (Value α)) :=
  match f.outcome with
  | .error fault => pure (.error (.fault fault))
  | .ok built =>
    built.routine.run env f.inputs f.normalForm debugging fun i =>
      note (.marker built.routine.key i)

/-- The formula, or a complaint that quotes its text where it is bad. -/
def require (f : Compiled) (formula : String) : Except String Compiled :=
  match f.fault? with
  | none => .ok f
  | some fault => .error ("compiler: Compile(" ++ Text.quoted formula ++ "): " ++ fault.message)

end Compiled

/-- What decides how formulas are compiled. Compilers that share a store must agree on all of it. -/
structure Compiler where
  registry : Registry := .standard
  targeting : Targeting := .standard
  locale : Locale := .canonical

namespace Compiler

/-- Refuses a whole formula that is an open range or nothing at all. No formula is read as either. -/
def checkRoot : Expr → Except Fault Unit
  | .binary l _ _ => if l.text = ":" then .error (.bad .unexpectedRange l.span.start "") else .ok ()
  | .leaf l .empty => .error (.bad .emptyExpression l.span.start "")
  | _ => .ok ()

/-- Reads tokens and generates their routine. -/
def build (c : Compiler) (key : String) (tokens : List Token) : Except Fault Routine := do
  let root ← Expr.ofTokens { locale := c.locale } tokens
  checkRoot root
  Routine.ofExpr c.registry c.targeting key root

/-- The routine for a key, built from the tokens if it is not at hand. -/
def routine (c : Compiler) (s : Store) (key : String) (tokens : List Token) :
    Except Fault Built × Store × List Trace :=
  match s.cache.get? key with
  | (some built, cache) => (.ok built, { s with cache }, [])
  | (none, cache) =>
    match c.build key tokens with
    | .error fault => (.error fault, { s with cache }, [])
    | .ok routine =>
      let ((built, _), cache) := cache.add key ⟨s.built, routine⟩
      (.ok built, ⟨cache, s.built + 1⟩, [.compiled key routine.code.length])

/-- The routine for a formula, unless one of its numbers cannot be read. -/
def outcome (c : Compiler) (s : Store) (literals : Literals) (tokens : List Token) :
    Except Fault Built × Store × List Trace :=
  match literals.unreadable with
  | some text => (.error (.bad (.unreadableNumber text) (-1) ""), s, [])
  | none => c.routine s literals.key tokens

/-- Compiles a list of tokens. -/
def compileTokens (c : Compiler) (s : Store) (tokens : List Token) :
    Compiled × Store × List Trace :=
  let literals := Literals.ofTokens c.locale tokens
  let (outcome, s, notes) := c.outcome s literals tokens
  let f : Compiled := ⟨tokens, literals, outcome⟩
  match outcome with
  | .ok _ => (f, s, notes)
  | .error fault => (f, s, notes ++ [.refused f.normalForm fault])

/-- Compiles the text of a formula. -/
def compile (c : Compiler) (s : Store) (formula : String) : Compiled × Store × List Trace :=
  c.compileTokens s (Token.rangeTokenize c.locale formula)

/-- Drops the routine of a formula from the store and tells whether there was one. -/
def forget (c : Compiler) (s : Store) (formula : String) : Bool × Store :=
  let literals := Literals.ofTokens c.locale (Token.rangeTokenize c.locale formula)
  let (removed, cache) := s.cache.erase literals.key
  (removed, { s with cache })

end Compiler

end SheetFormula
