import SheetFormula.Signature.Registry

/-!
The functions that are declared in every sheet.
-/

set_option autoImplicit false

namespace SheetFormula.Registry

/-- The common functions. -/
def standardSignatures : List Signature :=
  [
    .describe "SUM" [
      { name := "value1"
        types := [.scalar .number, .rangeOf .number]
        description :=
          "The first number or range to add together." },
      { name := "value2"
        types := [.scalar .number, .rangeOf .number]
        repeating := true
        description :=
          "Additional numbers or ranges to add to value1." }],
    .describe "PI" [],
    .describe "RAND" [],
    .describe "AVERAGE" [
      { name := "value1"
        types := [.scalar .number, .rangeOf .number]
        description :=
          "The first value or range to consider when calculating the average value." },
      { name := "value2"
        types := [.scalar .number, .rangeOf .number]
        repeating := true
        description :=
          "Additional values or ranges to consider when calculating the average value." }],
    .describe "MIN" [
      { name := "value1"
        types := [.scalar .number, .rangeOf .number]
        description :=
          "The first value or range to consider when calculating the minimum value." },
      { name := "value2"
        types := [.scalar .number, .rangeOf .number]
        repeating := true
        description :=
          "Additional values or ranges to consider when calculating the minimum value." }],
    .describe "MAX" [
      { name := "value1"
        types := [.scalar .number, .rangeOf .number]
        description :=
          "The first value or range to consider when calculating the maximum value." },
      { name := "value2"
        types := [.scalar .number, .rangeOf .number]
        repeating := true
        description :=
          "Additional values or ranges to consider when calculating the maximum value." }],
    .describe "COUNT" [
      { name := "value1"
        types := [.scalar .number, .scalar .any, .rangeOf .number]
        description :=
          "The first value or range to consider when counting." },
      { name := "value2"
        types := [.scalar .number, .scalar .any, .rangeOf .number]
        repeating := true
        description :=
          "Additional values or ranges to consider when counting." }],
    .describe "SUMIFS" [
      { name := "sum_range"
        types := [.range]
        description :=
          "The range to sum." },
      { name := "criteria_range1"
        types := [.range]
        description :=
          "The range to check against criterion1." },
      { name := "criterion1"
        types := [.scalar .string]
        description :=
          "The pattern or test to apply to criteria_range1." },
      { name := "criteria_range2"
        types := [.range]
        repeating := true
        description :=
          "Additional ranges to check." },
      { name := "criterion2"
        types := [.scalar .string]
        repeating := true
        description :=
          "Additional criteria to check." }],
    .describe "COUNTIFS" [
      { name := "criteria_range1"
        types := [.range]
        description :=
          "The range to check against criterion1." },
      { name := "criterion1"
        types := [.scalar .string]
        description :=
          "The pattern or test to apply to criteria_range1." },
      { name := "criteria_range2"
        types := [.range]
        repeating := true
        description :=
          "Additional ranges to check." },
      { name := "criterion2"
        types := [.scalar .string]
        repeating := true
        description :=
          "Additional criteria to check." }],
    .describe "IF" [
      { name := "logical_expression"
        types := [.scalar .boolean]
        description :=
          "An expression or reference to a cell containing an expression that represents some logical value." },
      { name := "value_if_true"
        types := [.scalar .any]
        description :=
          "The value the function returns if logical_expression is TRUE." },
      { name := "value_if_false"
        types := [.scalar .any]
        fallback := some "FALSE"
        description :=
          "The value the function returns if logical_expression is FALSE." }],
    .describe "IFS" [
      { name := "condition1"
        types := [.scalar .boolean]
        description :=
          "The first condition to be evaluated." },
      { name := "value1"
        types := [.scalar .any]
        description :=
          "The returned value if condition1 is TRUE." },
      { name := "condition2"
        types := [.scalar .boolean]
        repeating := true
        description :=
          "Additional conditions to be evaluated if the previous ones are FALSE." },
      { name := "value2"
        types := [.scalar .any]
        repeating := true
        description :=
          "Additional values to be returned if their corresponding conditions are TRUE." }],
    .describe "SWITCH" [
      { name := "expression"
        types := [.scalar .any]
        description :=
          "The value to be checked." },
      { name := "case"
        types := [.scalar .any]
        repeating := true
        description :=
          "The cases to be checked against expression." },
      { name := "value"
        types := [.scalar .any]
        repeating := true
        description :=
          "The corresponding values to be returned if their case matches expression." },
      { name := "default"
        types := [.scalar .any]
        optional := true
        description :=
          "An optional default value to be returned if none of the cases match expression." }],
    .describe "AND" [
      { name := "logical_expression1"
        types := [.scalar .boolean, .rangeOf .boolean]
        description :=
          "An expression or reference to a cell containing an expression that represents some logical value." },
      { name := "logical_expression2"
        types := [.scalar .boolean, .rangeOf .boolean]
        repeating := true
        description :=
          "More expressions that represent logical values." }],
    .describe "OR" [
      { name := "logical_expression1"
        types := [.scalar .boolean, .rangeOf .boolean]
        description :=
          "An expression or reference to a cell containing an expression that represents some logical value." },
      { name := "logical_expression2"
        types := [.scalar .boolean, .rangeOf .boolean]
        repeating := true
        description :=
          "More expressions that represent logical values." }],
    .describe "NOT" [
      { name := "logical_expression"
        types := [.scalar .boolean]
        description :=
          "An expression or reference to a cell holding an expression that represents some logical value." }],
    .describe "CONCATENATE" [
      { name := "string1"
        types := [.scalar .string, .rangeOf .string]
        description :=
          "The initial string." },
      { name := "string2"
        types := [.scalar .string, .rangeOf .string]
        repeating := true
        description :=
          "More strings to append in sequence." }],
    .describe "CELL" [
      { name := "info_type"
        types := [.scalar .string]
        description :=
          "The type of information requested." },
      { name := "reference"
        types := [.reference]
        description :=
          "The reference to the cell." }],
    .describe "ISERROR" [
      { name := "value"
        types := [.scalar .any]
        description :=
          "The value to be verified as an error type." }],
    .describe "ROW" [
      { name := "cell_reference"
        types := [.reference]
        optional := true
        description :=
          "The cell whose row number will be returned." }],
    .describe "COLUMN" [
      { name := "cell_reference"
        types := [.reference]
        optional := true
        description :=
          "The cell whose column number will be returned." }],
    .describe "VLOOKUP" [
      { name := "search_key"
        types := [.scalar .string, .scalar .number, .scalar .boolean]
        description :=
          "The value to search for." },
      { name := "range"
        types := [.range]
        description :=
          "The range to consider for the search." },
      { name := "index"
        types := [.scalar .number]
        description :=
          "The column index of the value to be returned." },
      { name := "is_sorted"
        types := [.scalar .boolean]
        fallback := some "TRUE"
        description :=
          "Indicates whether the column to be searched is sorted." }],
    .describe "INDEX" [
      { name := "reference"
        types := [.range]
        description :=
          "The range of cells from which the values are returned." },
      { name := "row"
        types := [.scalar .number]
        fallback := some "0"
        description :=
          "The index of the row to be returned." },
      { name := "column"
        types := [.scalar .number]
        fallback := some "0"
        description :=
          "The index of the column to be returned." }],
    .describe "OFFSET" [
      { name := "cell_reference"
        types := [.reference]
        description :=
          "The starting point from which to count the offset rows and columns." },
      { name := "offset_rows"
        types := [.scalar .number]
        description :=
          "The number of rows to offset by." },
      { name := "offset_columns"
        types := [.scalar .number]
        description :=
          "The number of columns to offset by." },
      { name := "height"
        types := [.scalar .number]
        optional := true
        description :=
          "The number of rows of the range to return starting at the offset target." },
      { name := "width"
        types := [.scalar .number]
        optional := true
        description :=
          "The number of columns of the range to return starting at the offset target." }],
    .describe "NOW" [],
    .describe "TODAY" []
  ]

/-- The registry of the common functions. -/
def standard : Registry :=
  ofList standardSignatures

end SheetFormula.Registry
