import SheetFormula.Proofs.Generation
import SheetFormula.Proofs.Scan
import SheetFormula.Signature.Standard

/-!
Generated code uses every value once. Its instructions fill the slots one after the other, an instruction
takes only slots that are filled before it, and each slot is taken exactly once, by a later instruction or
as the result. The literals of the formula are taken once each, and references and named values are asked
for in their order. All this is said of the code between two states of the counters, with the values that
still wait to be taken (`Generate.Tidy`), so that it carries over from the parts of a tree to the whole.
-/

set_option autoImplicit false

namespace SheetFormula

/-! ### What instructions fill and take -/

namespace Instruction

/-- The slot that the instruction fills; a mark fills none. -/
def slot? : Instruction → Option Nat
  | .cell slot _ _ => some slot
  | .range slot _ _ => some slot
  | .symbol slot _ => some slot
  | .call slot _ _ => some slot
  | .array slot _ _ => some slot
  | .debug => none

/-- The values that the instruction takes. -/
def operands : Instruction → List Operand
  | .call _ _ arguments => arguments
  | .array _ _ cells => cells
  | _ => []

/-- The reference for which the instruction asks. -/
def dependency? : Instruction → Option Nat
  | .cell _ index _ => some index
  | .range _ index _ => some index
  | _ => none

/-- The named value for which the instruction asks. -/
def symbol? : Instruction → Option Nat
  | .symbol _ index => some index
  | _ => none

/-- If the instruction builds an array, its cells make full rows of at least one. -/
def IsGrid : Instruction → Prop
  | .array _ columns cells => 1 ≤ columns ∧ columns ∣ cells.length
  | _ => True

end Instruction

/-- All values that the routine takes: those of its instructions and the result. -/
def Routine.operands (r : Routine) : List Operand :=
  r.code.flatMap Instruction.operands ++ [r.result]

/-! ### Indices that are given out -/

/-- The indices run from the first bound up to the second. -/
def Consecutive (indices : List Nat) (low high : Nat) : Prop :=
  low ≤ high ∧ indices = List.range' low (high - low)

theorem Consecutive.nil (n : Nat) : Consecutive [] n n :=
  ⟨Nat.le_refl n, by simp⟩

theorem Consecutive.singleton (n : Nat) : Consecutive [n] n (n + 1) :=
  ⟨Nat.le_succ n, by simp⟩

theorem Consecutive.append {is js : List Nat} {low middle high : Nat}
    (hi : Consecutive is low middle) (hj : Consecutive js middle high) :
    Consecutive (is ++ js) low high := by
  obtain ⟨hlow, rfl⟩ := hi
  obtain ⟨hhigh, rfl⟩ := hj
  refine ⟨Nat.le_trans hlow hhigh, ?_⟩
  have hmiddle : middle = low + (middle - low) := by omega
  have hlength : high - low = (middle - low) + (high - middle) := by omega
  rw [hlength, ← List.range'_append_1, ← hmiddle]

/-- Of the indices, those from the first bound up to the second are counted once, and no others. -/
def Once (count : Nat → Nat) (low high : Nat) : Prop :=
  low ≤ high ∧ ∀ i, count i = if low ≤ i ∧ i < high then 1 else 0

theorem Once.zero (n : Nat) : Once (fun _ => 0) n n := by
  refine ⟨Nat.le_refl n, fun i => ?_⟩
  rw [if_neg (by omega)]

theorem Once.add {count count' : Nat → Nat} {low middle high : Nat} (h : Once count low middle)
    (h' : Once count' middle high) : Once (fun i => count i + count' i) low high := by
  obtain ⟨hlow, hcount⟩ := h
  obtain ⟨hhigh, hcount'⟩ := h'
  refine ⟨Nat.le_trans hlow hhigh, fun i => ?_⟩
  simp only [hcount, hcount']
  split_ifs <;> omega

/-- Every slot that an instruction takes is filled before it, by code that came first or by an earlier
instruction. -/
def ReadyAfter (first code : List Instruction) : Prop :=
  ∀ before i after, code = before ++ i :: after → ∀ s, .slot s ∈ i.operands →
    s ∈ (first ++ before).filterMap Instruction.slot?

theorem ReadyAfter.nil (first : List Instruction) : ReadyAfter first [] := by
  intro before i after h
  simp at h

theorem readyAfter_singleton {first : List Instruction} {i : Instruction}
    (h : ∀ s, .slot s ∈ i.operands → s ∈ first.filterMap Instruction.slot?) :
    ReadyAfter first [i] := by
  intro before j after hsplit s hs
  obtain ⟨rfl, hj⟩ | ⟨rest, -, hnil⟩ := List.append_eq_cons_iff.mp hsplit.symm
  · obtain ⟨rfl, -⟩ := List.cons.inj hj
    simpa using h s hs
  · simp at hnil

theorem ReadyAfter.mono {first code : List Instruction} (h : ReadyAfter [] code) :
    ReadyAfter first code := by
  intro before i after hsplit s hs
  rw [List.filterMap_append]
  exact List.mem_append_right _ (h before i after hsplit s hs)

theorem ReadyAfter.append {code code' : List Instruction} (h : ReadyAfter [] code)
    (h' : ReadyAfter code code') : ReadyAfter [] (code ++ code') := by
  intro before i after hsplit s hs
  obtain ⟨middle, rfl, hcode'⟩ | ⟨middle, rfl, hi⟩ := List.append_eq_append_iff.mp hsplit
  · exact h' middle i after hcode' s hs
  · obtain ⟨rfl, hi⟩ | ⟨more, rfl, -⟩ := List.append_eq_cons_iff.mp hi.symm
    · simpa using h' [] i after hi.symm s hs
    · exact h before i more rfl s hs

namespace Generate

variable {registry : Registry} {targeting : Targeting} {context : Context} {c d e : Counters}
  {code code' : List Instruction} {results results' : List Operand}

/-- How often the code takes a value, with those that wait. -/
def uses (code : List Instruction) (results : List Operand) (o : Operand) : Nat :=
  (code.flatMap Instruction.operands ++ results).count o

theorem uses_append (o : Operand) :
    uses (code ++ code') (results ++ results') o = uses code results o + uses code' results' o := by
  simp only [uses, List.flatMap_append, List.count_append]
  omega

/-- What the code between two states of the counters does. The results wait to be taken. -/
structure Tidy (c : Counters) (code : List Instruction) (results : List Operand) (d : Counters) :
    Prop where
  fills : Consecutive (code.filterMap Instruction.slot?) (c.slots + 1) (d.slots + 1)
  reads : Once (fun i => uses code results (.slot i)) (c.slots + 1) (d.slots + 1)
  numbers : Once (fun i => uses code results (.number i)) c.numbers d.numbers
  strings : Once (fun i => uses code results (.string i)) c.strings d.strings
  dependencies : Consecutive (code.filterMap Instruction.dependency?) c.dependencies d.dependencies
  symbols : Consecutive (code.filterMap Instruction.symbol?) c.symbols d.symbols
  ready : ReadyAfter [] code
  grids : ∀ i ∈ code, i.IsGrid

theorem Tidy.nil (c : Counters) : Tidy c [] [] c where
  fills := .nil _
  reads := .zero _
  numbers := .zero _
  strings := .zero _
  dependencies := .nil _
  symbols := .nil _
  ready := .nil _
  grids := List.forall_mem_nil _

theorem Tidy.append (h : Tidy c code results d) (h' : Tidy d code' results' e) :
    Tidy c (code ++ code') (results ++ results') e where
  fills := by
    rw [List.filterMap_append]
    exact h.fills.append h'.fills
  reads := by
    simp only [uses_append]
    exact h.reads.add h'.reads
  numbers := by
    simp only [uses_append]
    exact h.numbers.add h'.numbers
  strings := by
    simp only [uses_append]
    exact h.strings.add h'.strings
  dependencies := by
    rw [List.filterMap_append]
    exact h.dependencies.append h'.dependencies
  symbols := by
    rw [List.filterMap_append]
    exact h.symbols.append h'.symbols
  ready := h.ready.append h'.ready.mono
  grids := List.forall_mem_append.mpr ⟨h.grids, h'.grids⟩

/-- A result that is a slot has been filled. -/
theorem Tidy.mem_fills (h : Tidy c code results d) {s : Nat} (hs : .slot s ∈ results) :
    s ∈ code.filterMap Instruction.slot? := by
  have hused : 0 < uses code results (.slot s) :=
    List.count_pos_iff.mpr (List.mem_append_right _ hs)
  obtain ⟨-, hreads⟩ := h.reads
  obtain ⟨-, hfills⟩ := h.fills
  simp only [hreads] at hused
  rw [hfills, List.mem_range'_1]
  split at hused <;> omega

theorem once_singleton {operand : Nat → Operand} (h : Function.Injective operand) (n : Nat) :
    Once (fun i => [operand n].count (operand i)) n (n + 1) := by
  refine ⟨Nat.le_succ n, fun i => ?_⟩
  by_cases hi : n = i
  · subst hi
    simp
  · rw [if_neg (by omega)]
    simp [h.eq_iff, hi]

theorem once_slot (n : Nat) : Once (fun i => [Operand.slot n].count (.slot i)) n (n + 1) :=
  once_singleton (fun _ _ => Operand.slot.inj) n

/-- An instruction that takes all that waits leaves its slot instead. -/
theorem Tidy.emit (h : Tidy c code results d) {instruction : Nat → Instruction}
    (hslot : ∀ s, (instruction s).slot? = some s)
    (hoperands : ∀ s, (instruction s).operands = results)
    (hdependency : ∀ s, (instruction s).dependency? = none)
    (hsymbol : ∀ s, (instruction s).symbol? = none) (hgrid : ∀ s, (instruction s).IsGrid) :
    Tidy c (emit code d instruction).code [(emit code d instruction).result]
      (emit code d instruction).counters := by
  have huses (o : Operand) : uses (code ++ [instruction (d.slots + 1)]) [.slot (d.slots + 1)] o =
      uses code results o + [Operand.slot (d.slots + 1)].count o := by
    simp only [uses, List.flatMap_append, List.flatMap_singleton, hoperands, List.count_append]
  exact {
    fills := by
      simpa [Generate.emit, hslot] using h.fills.append (.singleton (d.slots + 1))
    reads := by
      simpa only [Generate.emit, huses] using h.reads.add (once_slot (d.slots + 1))
    numbers := by simpa [Generate.emit, huses] using h.numbers
    strings := by simpa [Generate.emit, huses] using h.strings
    dependencies := by simpa [Generate.emit, hdependency] using h.dependencies
    symbols := by simpa [Generate.emit, hsymbol] using h.symbols
    ready := h.ready.append (readyAfter_singleton fun s hs => h.mem_fills (hoperands _ ▸ hs))
    grids := List.forall_mem_append.mpr ⟨h.grids, List.forall_mem_singleton.mpr (hgrid _)⟩ }

theorem Tidy.call (h : Tidy c code results d) (name : String) :
    Tidy c (Generate.emit code d (.call · name results)).code
      [(Generate.emit code d (.call · name results)).result]
      (Generate.emit code d (.call · name results)).counters :=
  h.emit (fun _ => rfl) (fun _ => rfl) (fun _ => rfl) (fun _ => rfl) fun _ => trivial

theorem Tidy.announce {p : Piece} (h : Tidy c p.code [p.result] p.counters) (l : Label) :
    Tidy c (announce l p).code [(announce l p).result] (announce l p).counters := by
  unfold Generate.announce
  split
  · have hmark : Tidy c [.debug] [] c :=
      { Tidy.nil c with
        ready := readyAfter_singleton (by simp [Instruction.operands])
        grids := List.forall_mem_singleton.mpr trivial }
    exact hmark.append h
  · exact h

/-- An instruction that takes nothing, as the code of a leaf. -/
theorem tidy_request {i : Instruction} (hslot : i.slot? = some (c.slots + 1))
    (hoperands : i.operands = []) (hgrid : i.IsGrid) (hslots : d.slots = c.slots + 1)
    (hnumbers : d.numbers = c.numbers) (hstrings : d.strings = c.strings)
    (hdependencies : Consecutive i.dependency?.toList c.dependencies d.dependencies)
    (hsymbols : Consecutive i.symbol?.toList c.symbols d.symbols) :
    Tidy c [i] [.slot (c.slots + 1)] d where
  fills := by simpa [hslot, hslots] using Consecutive.singleton (c.slots + 1)
  reads := by simpa [uses, hoperands, hslots] using once_slot (c.slots + 1)
  numbers := by simpa [uses, hoperands, hnumbers] using Once.zero c.numbers
  strings := by simpa [uses, hoperands, hstrings] using Once.zero c.strings
  dependencies := by cases h : i.dependency? <;> simpa [h] using hdependencies
  symbols := by cases h : i.symbol? <;> simpa [h] using hsymbols
  ready := readyAfter_singleton (by simp [hoperands])
  grids := List.forall_mem_singleton.mpr hgrid

theorem tidy_of_leaf {l : Label} {atom : Atom} {p : Piece} (h : leaf l atom context c = .ok p) :
    Tidy c p.code [p.result] p.counters := by
  cases atom with
  | number value =>
    cases h
    exact { Tidy.nil c with numbers := once_singleton (fun _ _ => Operand.number.inj) c.numbers }
  | string =>
    cases h
    exact { Tidy.nil c with strings := once_singleton (fun _ _ => Operand.string.inj) c.strings }
  | boolean value =>
    cases h
    exact { Tidy.nil c with }
  | empty =>
    cases h
    exact { Tidy.nil c with }
  | reference =>
    simp only [leaf] at h
    split at h <;> cases h <;>
      exact tidy_request rfl rfl trivial rfl rfl rfl (.singleton _) (.nil _)
  | symbol =>
    cases h
    exact tidy_request rfl rfl trivial rfl rfl rfl (.nil _) (.singleton _)
  | other kind => cases h

theorem Sequence.tidy {contexts : Nat → Context} {position : Nat} {es : List Expr} {ps : Pieces}
    (h : Sequence registry targeting contexts position c es ps)
    (hes : ∀ e ∈ es, ∀ context c p, expr registry targeting context c e = .ok p →
      Tidy c p.code [p.result] p.counters) :
    Tidy c ps.code ps.results ps.counters := by
  induction h with
  | nil position c => exact .nil c
  | cons head tail ih =>
    obtain ⟨he, hes⟩ := List.forall_mem_cons.mp hes
    exact (he _ _ _ head).append (ih hes)

theorem Sequence.length_results {contexts : Nat → Context} {position : Nat} {es : List Expr}
    {ps : Pieces} (h : Sequence registry targeting contexts position c es ps) :
    ps.results.length = es.length := by
  induction h with
  | nil position c => rfl
  | cons head tail ih => simp [ih]

theorem dvd_length_flatten {α : Type} {n : Nat} {rs : List (List α)}
    (h : ∀ r ∈ rs, r.length = n) : n ∣ rs.flatten.length := by
  induction rs with
  | nil => exact Nat.dvd_zero n
  | cons r rs ih =>
    obtain ⟨hr, hrs⟩ := List.forall_mem_cons.mp h
    rw [List.flatten_cons, List.length_append]
    exact Nat.dvd_add (hr ▸ Nat.dvd_refl _) (ih hrs)

/-- The cells of rows of one length make full rows. -/
theorem isGrid_of_rows {l : Label} {V : Vocabulary} {rs : List (List Expr)}
    (hsound : (Expr.array l rs).Sound V) (hrows : ∀ r ∈ rs, r.length = (rs.headD []).length)
    {cells : List Operand} (hcells : cells.length = rs.flatten.length) (slot : Nat) :
    (Instruction.array slot (rs.headD []).length cells).IsGrid := by
  obtain ⟨-, hne, hfull⟩ := hsound
  obtain ⟨r, rs, rfl⟩ := List.exists_cons_of_ne_nil hne
  refine ⟨?_, ?_⟩
  · exact List.length_pos_iff.mpr (hfull r List.mem_cons_self).1
  · rw [hcells]
    exact dvd_length_flatten hrows

/-- The code of a well-formed tree uses every value once. -/
theorem tidy_of_expr {V : Vocabulary} {tree : Expr} {p : Piece}
    (hformed : tree.WellFormed V) (h : expr registry targeting context c tree = .ok p) :
    Tidy c p.code [p.result] p.counters := by
  induction tree generalizing context c p with
  | leaf l atom =>
    obtain ⟨q, hq, rfl⟩ := expr_leaf_eq_ok h
    exact (tidy_of_leaf hq).announce l
  | unary l suffix e ih =>
    obtain ⟨q, hq, rfl⟩ := expr_unary_eq_ok h
    have hoperand := ih ((Expr.wellFormed_unary ..).mp hformed).2 hq
    exact (hoperand.call _).announce l
  | binary l a b iha ihb =>
    obtain ⟨name, q, r, -, hq, hr, rfl⟩ := expr_binary_eq_ok h
    obtain ⟨-, ha, hb⟩ := (Expr.wellFormed_binary ..).mp hformed
    have hoperands := (iha ha hq).append (ihb hb hr)
    exact (hoperands.call name).announce l
  | call l as ih =>
    obtain ⟨qs, hqs, rfl⟩ := expr_call_eq_ok h
    have has := ((Expr.wellFormed_call ..).mp hformed).2
    have harguments := hqs.tidy fun a ha _ _ _ => ih a ha (has a ha)
    exact (harguments.call _).announce l
  | array l rs ih =>
    obtain ⟨qs, hqs, hrows, rfl⟩ := expr_array_eq_ok h
    obtain ⟨hsound, hrs⟩ := (Expr.wellFormed_array ..).mp hformed
    have hcells : Tidy c qs.code qs.results qs.counters := by
      refine hqs.tidy fun e he _ _ _ => ?_
      obtain ⟨r, hr, he⟩ := List.mem_flatten.mp he
      exact ih r hr e he (hrs r hr e he)
    exact (hcells.emit (fun _ => rfl) (fun _ => rfl) (fun _ => rfl) (fun _ => rfl)
      (isGrid_of_rows hsound hrows hqs.length_results)).announce l

/-- Counters that have moved on by some contents count the literals among them. -/
theorem Counters.Advances.eq_length {cs : List (String × Atom)} (h : Counters.Advances {} cs d) :
    d.numbers = (Inputs.ofContents cs).numbers.length ∧
      d.strings = (Inputs.ofContents cs).strings.length ∧
      d.dependencies = (Inputs.ofContents cs).dependencies.length ∧
      d.symbols = (Inputs.ofContents cs).symbols.length := by
  -- one content of each kind is left over, so no counter can have run past the end
  have hserves := h.2 (Inputs.ofContents (cs ++ _))
    [("", .number default), ("", .string), ("", .reference), ("", .symbol)] ⟨rfl, rfl, rfl, rfl⟩
  have hnumbers := congrArg List.length hserves.numbers
  have hstrings := congrArg List.length hserves.strings
  have hdependencies := congrArg List.length hserves.dependencies
  have hsymbols := congrArg List.length hserves.symbols
  simp only [Inputs.ofContents, List.filterMap_append, List.length_drop, List.length_append,
    List.filterMap_cons, List.filterMap_nil, List.length_cons, List.length_nil]
    at hnumbers hstrings hdependencies hsymbols ⊢
  omega

end Generate

namespace Routine

/-- The routine of a tree uses every value once. -/
structure SingleUse (root : Expr) (r : Routine) : Prop where
  /-- Slots are filled one after the other, each by one instruction. -/
  fills : r.code.filterMap Instruction.slot? = List.range' 1 r.slots
  /-- What an instruction takes from a slot is put there by an earlier one. -/
  ready : ∀ before i after, r.code = before ++ i :: after → ∀ s, .slot s ∈ i.operands →
    ∃ j ∈ before, j.slot? = some s
  reads : ∀ s, r.operands.count (.slot s) = if 1 ≤ s ∧ s ≤ r.slots then 1 else 0
  numbers : ∀ i, r.operands.count (.number i) = if i < (root.nodesOf .number).length then 1 else 0
  strings : ∀ i, r.operands.count (.string i) = if i < (root.nodesOf .string).length then 1 else 0
  dependencies : r.code.filterMap Instruction.dependency? =
    List.range (root.nodesOf .reference).length
  symbols : r.code.filterMap Instruction.symbol? = List.range (root.nodesOf .symbol).length
  grids : ∀ slot columns cells, .array slot columns cells ∈ r.code →
    1 ≤ columns ∧ columns ∣ cells.length

/-- Whatever the functions and the rule for their declarations, the code for a tree of the parser fills
its slots in order, takes each slot and each literal once, and asks for references and named values in the
order in which they stand. -/
theorem singleUse_of_ofTokens {reading : Reading} {tokens : List Token} {root : Expr}
    {registry : Registry} {targeting : Targeting} {key : String} {routine : Routine}
    (hroot : Expr.ofTokens reading tokens = .ok root)
    (hroutine : Routine.ofExpr registry targeting key root = .ok routine) :
    routine.SingleUse root := by
  obtain ⟨p, hp, hroutine⟩ := Generate.eq_ok_of_bind hroutine
  cases hroutine
  have htidy := Generate.tidy_of_expr (Expr.wellFormed_of_ofTokens hroot) hp
  obtain ⟨hnumbers, hstrings, hdependencies, hsymbols⟩ :=
    (Generate.advances_of_expr hp).eq_length
  simp only [Expr.ofContents_contents, List.length_map] at hnumbers hstrings hdependencies hsymbols
  have huses (o : Operand) : (Routine.operands ⟨key, p.code, p.result, p.counters.slots⟩).count o =
      Generate.uses p.code [p.result] o := rfl
  exact {
    fills := by simpa using htidy.fills.2
    ready := by
      intro before i after hsplit s hs
      simpa using htidy.ready before i after hsplit s hs
    reads := by
      intro s
      simpa [huses, Nat.lt_succ_iff] using htidy.reads.2 s
    numbers := by
      intro i
      simpa [huses, hnumbers] using htidy.numbers.2 i
    strings := by
      intro i
      simpa [huses, hstrings] using htidy.strings.2 i
    dependencies := by simpa [hdependencies, List.range_eq_range'] using htidy.dependencies.2
    symbols := by simpa [hsymbols, List.range_eq_range'] using htidy.symbols.2
    grids := fun slot columns cells hmem => htidy.grids _ hmem }

/-- Of a formula with a range, an omitted argument, a mark for the debugger and an array. -/
theorem singleUse_of_marked_sum :
    let tokens := Token.rangeTokenize .canonical "=SUM(A1:B2,,?x)*\x7b1,-2;\"s\",3%\x7d"
    let code : List Instruction :=
      [.range 1 0 false, .debug, .symbol 2 0, .call 3 "SUM" [.slot 1, .empty, .slot 2],
        .call 4 "UMINUS" [.number 1], .call 5 "UNARY.PERCENT" [.number 2],
        .array 6 2 [.number 0, .slot 4, .string 0, .slot 5], .call 7 "MULTIPLY" [.slot 3, .slot 6]]
    ∃ root, Expr.ofTokens {} tokens = .ok root ∧
      Routine.ofExpr .standard .standard "sum" root = .ok ⟨"sum", code, .slot 7, 7⟩ ∧
      SingleUse root ⟨"sum", code, .slot 7, 7⟩ := by
  intro tokens code
  have hroutine : (Expr.ofTokens {} tokens).bind (Routine.ofExpr .standard .standard "sum") =
      .ok ⟨"sum", code, .slot 7, 7⟩ := by
    decide +kernel
  obtain ⟨root, hroot, hroutine⟩ := Generate.eq_ok_of_bind hroutine
  exact ⟨root, hroot, hroutine, singleUse_of_ofTokens hroot hroutine⟩

end Routine

end SheetFormula
