import SheetFormula.Expr.Transform
import SheetFormula.Main
import SheetFormula.Proofs.Acceptance
import SheetFormula.Proofs.Cells
import SheetFormula.Proofs.Declarations
import SheetFormula.Proofs.Delimiting
import SheetFormula.Proofs.Depth
import SheetFormula.Proofs.Independence
import SheetFormula.Proofs.Joining
import SheetFormula.Proofs.Linkage
import SheetFormula.Proofs.Locales
import SheetFormula.Proofs.OneLine
import SheetFormula.Proofs.Overhang
import SheetFormula.Proofs.Parentheses
import SheetFormula.Proofs.Placement
import SheetFormula.Proofs.Readability
import SheetFormula.Proofs.Recency
import SheetFormula.Proofs.Relabelling
import SheetFormula.Proofs.Runs
import SheetFormula.Proofs.Sharing
import SheetFormula.Proofs.SingleUse
import SheetFormula.Proofs.Storage
import SheetFormula.Proofs.Targets
import SheetFormula.Proofs.Tightening
import SheetFormula.Proofs.Viability
import SheetFormula.Signature.Declaration
