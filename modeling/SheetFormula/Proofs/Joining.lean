import SheetFormula.Proofs.Association
import SheetFormula.Proofs.Ranges

/-!
The two places where ranges are put together agree. Before a formula is read its tokens are fused, and
the parser joins two references around a colon that the fusion has left apart. No terminal of a formula
that is read is a colon, so that each colon among its tokens stands in such a join
(`Terminal.Colonless`). The fusion takes some of these joins away from the parser and finds nothing
else, and so the terminals are the same but for their places (`Terminal.recast_fuseRanges`).
-/

set_option autoImplicit false

namespace SheetFormula

/-! ### Formulas without a colon of their own -/

namespace Parser

variable {t : Terminal} {stage next : Stage}

/-- A colon is taken neither as a sign nor as an operator after an operand. -/
theorem Moves.ne_colon (h : Moves t stage next) (hrole : t.role = .operator) : t.text ≠ ":" := by
  have hopens {frames : List Frame} {next : Stage} (h : Opens t frames next) : t.text ≠ ":" := by
    intro htext
    cases h with
    | sign role sign => simp [htext, Operator.isSign] at sign
    | _ => simp_all
  cases h with
  | operand opens => exact hopens opens
  | argument opens => exact hopens opens
  | suffix role suffix =>
    intro htext
    simp [htext, Operator.isSuffix] at suffix
  | operation role binds =>
    intro htext
    simp [htext, Operator.priority] at binds
  | _ => simp_all

theorem Reaches.ne_colon {terminals : List Terminal} (h : Reaches stage terminals next) :
    ∀ t ∈ terminals, t.role = .operator → t.text ≠ ":" := by
  induction h with
  | refl stage => exact List.forall_mem_nil _
  | step moves reaches ih => exact List.forall_mem_cons.mpr ⟨moves.ne_colon, ih⟩

end Parser

/-! ### Fused tokens -/

namespace Token

/-- No colon begins the tokens, so that nothing before them is joined to them. -/
def Detached (tokens : List Token) : Prop :=
  ∀ t ∈ tokens.head?, t.isOperator ":" = false

variable {t u v : Token} {tokens rest : List Token}

theorem Detached.rangeEnd? (h : Detached tokens) (hspaces : ∀ t ∈ tokens, t.kind ≠ .space)
    (left : Token) : rangeEnd? left tokens = none := by
  rw [Option.eq_none_iff_forall_not_mem]
  rintro ⟨right, rest⟩ hsome
  obtain ⟨-, colon, hcolon, rfl⟩ := (rangeEnd?_eq_some_iff hspaces).mp hsome
  rw [h colon rfl] at hcolon
  cases hcolon

/-- What begins the fused tokens and is no reference began the tokens. -/
theorem head_of_fuseRanges (hspaces : ∀ u ∈ tokens, u.kind ≠ .space)
    (h : fuseRanges tokens = t :: rest) (hkind : t.kind ≠ .reference) : tokens.head? = some t := by
  rcases fuseRanges_eq_cons hspaces h with ⟨more, rfl, -⟩ | ⟨l, colon, r, more, -, -, -, rfl, -⟩
  · rfl
  · exact absurd rfl hkind

theorem Detached.fuseRanges (h : Detached tokens) (hspaces : ∀ t ∈ tokens, t.kind ≠ .space) :
    Detached (fuseRanges tokens) := by
  intro t ht
  by_contra hcolon
  rw [Bool.not_eq_false] at hcolon
  have hkind : t.kind ≠ .reference := by
    intro hkind
    simp [isOperator, hkind] at hcolon
  have hhead := head_of_fuseRanges hspaces (List.cons_head?_tail ht).symm hkind
  rw [h t hhead] at hcolon
  cases hcolon

/-- Two tokens that fit are one range. -/
theorem fuseRanges_of_fit (hspaces : ∀ w ∈ u :: v :: tokens, w.kind ≠ .space)
    (hcolon : u.isOperator ":" = true) (hfit : Fit t v) :
    fuseRanges (t :: u :: v :: tokens) = range t v :: fuseRanges tokens :=
  fuseRanges_range ((rangeEnd?_eq_some_iff hspaces).mpr ⟨hfit, u, hcolon, rfl⟩)

/-- Two tokens that do not fit stay apart, and so does their colon. -/
theorem fuseRanges_of_not_fit (hspaces : ∀ w ∈ u :: v :: tokens, w.kind ≠ .space)
    (hcolon : u.isOperator ":" = true) (hfit : ¬ Fit t v) (h : Detached tokens) :
    fuseRanges (t :: u :: v :: tokens) = t :: u :: v :: fuseRanges tokens := by
  have hleft : rangeEnd? t (u :: v :: tokens) = none := by
    rw [Option.eq_none_iff_forall_not_mem]
    rintro ⟨right, rest⟩ hsome
    obtain ⟨hright, _, _, heq⟩ := (rangeEnd?_eq_some_iff hspaces).mp hsome
    cases heq
    exact hfit hright
  have hoperator : u.kind = .operator := by
    simp only [isOperator, Bool.and_eq_true, beq_iff_eq] at hcolon
    exact hcolon.1
  have hright := h.rangeEnd? (fun w hw => hspaces w (by simp [hw])) v
  rw [fuseRanges_cons hleft, fuseRanges_cons (rangeEnd?_operator hoperator _),
    fuseRanges_cons hright]

/-- A parenthesis takes part in no range, and neither does the token before it. -/
theorem fuseRanges_of_leftParen (hspaces : ∀ w ∈ u :: tokens, w.kind ≠ .space)
    (hparen : u.kind = .leftParen) :
    fuseRanges (t :: u :: tokens) = t :: u :: fuseRanges tokens := by
  have hdetached : Detached (u :: tokens) := by
    rintro w ⟨⟩
    simp [isOperator, hparen]
  have hnone : Token.rangeEnd? u tokens = none := by
    rw [Token.rangeEnd?, leftEdge?, hparen]
  rw [fuseRanges_cons (hdetached.rangeEnd? hspaces t), fuseRanges_cons hnone]

end Token

namespace Terminal

/-- None of the terminals is a colon. -/
def Colonless (terminals : List Terminal) : Prop :=
  ∀ t ∈ terminals, t.role = .operator → t.text ≠ ":"

theorem colonless_of_ofTokens {reading : Reading} {tokens : List Token} {root : Expr}
    (h : Expr.ofTokens reading tokens = .ok root) : Colonless (ofTokens reading.locale tokens) := by
  obtain ⟨left, frames, hreaches, -⟩ := Parser.reaches_of_run (Parser.run_of_ofTokens h)
  have hrest := hreaches.ne_colon
  rcases Parser.dropEquals_cases (ofTokens reading.locale tokens) with heq | ⟨t, heq, -, htext⟩
  · rwa [heq] at hrest
  · rw [Colonless, heq]
    exact List.forall_mem_cons.mpr ⟨fun _ => by simp [htext], hrest⟩

/-- A colon that no reference stands before is a terminal, so that none begins the tokens. -/
theorem Colonless.detached {locale : Locale} {tokens : List Indexed}
    (h : Colonless (ofIndexed locale tokens)) : Token.Detached (tokens.map Prod.fst) := by
  intro t ht
  cases tokens with
  | nil => cases ht
  | cons u tokens =>
    obtain rfl : u.1 = t := by simpa using ht
    by_contra hcolon
    simp only [Bool.not_eq_false, Token.isOperator, Bool.and_eq_true, beq_iff_eq] at hcolon
    have halone : Alone u.1 (tokens.map Prod.fst) := by
      constructor
      · intro v rest _
        simp [startsCall, hcolon.1]
      · intro v w rest _
        simp [joins, hcolon.1]
    rw [ofIndexed_alone halone] at h
    refine h (ofToken locale u) List.mem_cons_self ?_ hcolon.2
    simp [ofToken, roleOf, hcolon.1]

variable {locale : Locale} {t : Token} {tokens : List Token}

/-- A token that begins no call is a terminal by itself before tokens that are detached. -/
theorem alone_of_detached (h : Token.Detached tokens)
    (hcall : ∀ u rest, tokens = u :: rest → startsCall t u = false) : Alone t tokens := by
  refine ⟨hcall, ?_⟩
  rintro u v rest rfl
  simp [joins, h u rfl]

/-- A token that is a terminal by itself stays one before the fused tokens. -/
theorem Alone.fuseRanges (halone : Alone t tokens) (hspaces : ∀ u ∈ tokens, u.kind ≠ .space)
    (h : Token.Detached tokens) : Alone t (Token.fuseRanges tokens) := by
  apply alone_of_detached (h.fuseRanges hspaces)
  intro u rest heq
  by_contra hcall
  have hparen : u.kind = .leftParen := by
    simp only [startsCall, Bool.not_eq_false, Bool.and_eq_true, beq_iff_eq] at hcall
    exact hcall.1.2
  have hhead := Token.head_of_fuseRanges hspaces heq (by simp [hparen])
  exact hcall (halone.1 u tokens.tail (List.cons_head?_tail hhead).symm)

/-! ### Terminals up to their places -/

theorem exists_of_map_fst {xs : List Indexed} (h : xs.map Prod.fst = t :: tokens) :
    ∃ i more, xs = (t, i) :: more ∧ more.map Prod.fst = tokens := by
  obtain ⟨⟨_, i⟩, more, rfl, rfl, hmore⟩ := List.map_eq_cons_iff.mp h
  exact ⟨i, more, rfl, hmore⟩

variable (g : Casting)

/-- A token makes the same terminal at every place. -/
theorem recast_ofToken (t : Token) (index index' : Nat) :
    (ofToken locale (t, index)).recast g = (ofToken locale (t, index')).recast g := by
  have hname : (nameLeaf t.text index).recast g = (nameLeaf t.text index').recast g := by
    unfold nameLeaf
    split
    · simp [leaf]
    · split <;> simp [leaf]
  unfold ofToken roleOf Terminal.recast
  cases t.kind with
  | number =>
    dsimp only
    cases Literal.number? locale t.text with
    | some value => simp [leaf]
    | none => rfl
  | symbol => simp [hname]
  | _ => simp [leaf]

/-- Where no terminal is a colon, the fused tokens make the same terminals at other places. -/
theorem recast_fuseRanges {xs ys : List Indexed} (hspaces : ∀ t ∈ xs, t.1.kind ≠ .space)
    (hcolon : Colonless (ofIndexed locale xs))
    (hfuse : ys.map Prod.fst = Token.fuseRanges (xs.map Prod.fst)) :
    (ofIndexed locale ys).map (Terminal.recast g) =
      (ofIndexed locale xs).map (Terminal.recast g) := by
  induction xs using terminalInduction generalizing ys with
  | nil =>
    rw [List.map_nil, Token.fuseRanges, List.map_eq_nil_iff] at hfuse
    rw [hfuse]
  | call t u xs hcall ih =>
    rw [ofIndexed_call hcall] at hcolon ⊢
    obtain ⟨-, hcolon⟩ := List.forall_mem_cons.mp hcolon
    have hparen : u.1.kind = .leftParen := by
      simp only [startsCall, Bool.and_eq_true, beq_iff_eq] at hcall
      exact hcall.1.2
    rw [List.map_cons, List.map_cons, Token.fuseRanges_of_leftParen
      (by simpa using (List.forall_mem_cons.mp hspaces).2) hparen] at hfuse
    obtain ⟨i, more, rfl, hmore⟩ := exists_of_map_fst hfuse
    obtain ⟨j, ys, rfl, hys⟩ := exists_of_map_fst hmore
    rw [ofIndexed_call (t := (t.1, i)) (u := (u.1, j)) hcall, List.map_cons, List.map_cons,
      ih (fun v hv => hspaces v (by simp [hv])) hcolon hys]
    rfl
  | join t u v xs hjoin ih =>
    rw [ofIndexed_join hjoin] at hcolon ⊢
    obtain ⟨-, hcolon⟩ := List.forall_mem_cons.mp hcolon
    have hdetached := Colonless.detached hcolon
    have hxs : ∀ w ∈ xs, w.1.kind ≠ .space := fun w hw => hspaces w (by simp [hw])
    have hrest : ∀ w ∈ xs.map Prod.fst, w.kind ≠ .space := by simpa using hxs
    have hright : ∀ w ∈ u.1 :: v.1 :: xs.map Prod.fst, w.kind ≠ .space := by
      simpa using (List.forall_mem_cons.mp hspaces).2
    have hoperator : u.1.isOperator ":" = true := by
      simp only [joins, Bool.and_eq_true] at hjoin
      exact hjoin.1.2
    rw [List.map_cons, List.map_cons, List.map_cons] at hfuse
    by_cases hfit : Token.Fit t.1 v.1
    · -- the fusion has put the two together
      rw [Token.fuseRanges_of_fit hright hoperator hfit] at hfuse
      obtain ⟨i, ys, rfl, hys⟩ := exists_of_map_fst hfuse
      have halone : Alone (Token.range t.1 v.1) (ys.map Prod.fst) := by
        rw [hys]
        refine alone_of_detached (hdetached.fuseRanges hrest) ?_
        intro w rest _
        simp [startsCall, Token.range]
      rw [ofIndexed_alone (t := (Token.range t.1 v.1, i)) halone, List.map_cons, List.map_cons,
        ih hxs hcolon hys]
      simp [ofToken, joined, roleOf, Token.range, Terminal.recast, leaf]
    · -- the fusion has left them to the parser
      rw [Token.fuseRanges_of_not_fit hright hoperator hfit hdetached] at hfuse
      obtain ⟨i, more, rfl, hmore⟩ := exists_of_map_fst hfuse
      obtain ⟨j, last, rfl, hlast⟩ := exists_of_map_fst hmore
      obtain ⟨k, ys, rfl, hys⟩ := exists_of_map_fst hlast
      rw [ofIndexed_join (t := (t.1, i)) (u := (u.1, j)) (v := (v.1, k)) hjoin, List.map_cons,
        List.map_cons, ih hxs hcolon hys]
      simp [joined, Terminal.recast, leaf]
  | alone t xs halone ih =>
    rw [ofIndexed_alone halone] at hcolon ⊢
    obtain ⟨-, hcolon⟩ := List.forall_mem_cons.mp hcolon
    have hdetached := Colonless.detached hcolon
    have hxs := (List.forall_mem_cons.mp hspaces).2
    have hrest : ∀ w ∈ xs.map Prod.fst, w.kind ≠ .space := by simpa using hxs
    rw [List.map_cons, Token.fuseRanges_cons (hdetached.rangeEnd? hrest t.1)] at hfuse
    obtain ⟨i, ys, rfl, hys⟩ := exists_of_map_fst hfuse
    have halone' : Alone t.1 (ys.map Prod.fst) := by
      rw [hys]
      exact halone.fuseRanges hrest hdetached
    rw [ofIndexed_alone (t := (t.1, i)) halone', List.map_cons, List.map_cons, ih hxs hcolon hys,
      recast_ofToken g t.1 i t.2]

end Terminal

/-! ### Trees -/

namespace Expr

/-- A tree that equals itself is made of such trees. -/
theorem forall_nodes_of_same_self {e : Expr} (h : same e e = true) :
    ∀ n ∈ e.nodes, same n n = true := by
  induction e with
  | leaf l atom => exact (forall_nodes_leaf l atom).mpr h
  | unary l suffix e ih =>
    have hparts := h
    simp only [same, Bool.and_eq_true] at hparts
    exact (forall_nodes_unary l suffix e).mpr ⟨h, ih hparts.2⟩
  | binary l a b iha ihb =>
    have hparts := h
    simp only [same, Bool.and_eq_true] at hparts
    exact (forall_nodes_binary l a b).mpr ⟨h, iha hparts.1.2, ihb hparts.2⟩
  | call l as ih =>
    have hparts := h
    simp only [same, Bool.and_eq_true, sameList_iff, List.forall₂_same] at hparts
    exact (forall_nodes_call l as).mpr ⟨h, fun e he => ih e he (hparts.2 e he)⟩
  | array l rs ih =>
    have hparts := h
    simp only [same, Bool.and_eq_true, sameRows_iff, List.forall₂_same] at hparts
    exact (forall_nodes_array l rs).mpr ⟨h, fun r hr e he => ih r hr e he (hparts.2 r hr e he)⟩

/-- A tree equals itself exactly where none of its numbers is a NaN. -/
theorem same_self_iff {e : Expr} (h : e.WellFormed .known) :
    same e e = true ↔ ∀ n ∈ e.nodesOf .number, n.numberValue ≠ .nan := by
  constructor
  · intro hsame n hn hnan
    obtain ⟨hmem, hkind⟩ := List.mem_filter.mp hn
    have hself := forall_nodes_of_same_self hsame n hmem
    cases n with
    | leaf l atom =>
      cases atom with
      | number value =>
        obtain rfl : value = .nan := hnan
        simp [same, Number.same] at hself
      | _ => simp [kind] at hkind
    | _ => simp [kind] at hkind
  · intro hnan
    refine same_self (V := .regular) (fun _ _ hatom => hatom) fun n hn => ?_
    have hsound := h n hn
    cases n with
    | leaf l atom =>
      cases atom with
      | number value => exact hnan (.leaf l (.number value)) (List.mem_filter.mpr ⟨hn, rfl⟩)
      | other kind => exact absurd rfl (hsound kind)
      | empty => exact hsound
      | _ => trivial
    | _ => exact hsound

variable {reading : Reading} {tokens : List Token} {root : Expr}

/-- The fused tokens are read as the same tree, at other places. -/
theorem exists_ofTokens_fuseRanges (h : ofTokens reading tokens = .ok root) :
    ∃ fused, ofTokens reading (Token.fuseRanges tokens) = .ok fused ∧
      fused.unplaced = root.unplaced := by
  let g : Casting := fun text atom => (text, atom)
  have hspaces : ∀ t ∈ Terminal.significant tokens, t.1.kind ≠ .space :=
    fun t ht => (Literals.mem_of_mem_significant ht).2
  have hfuse : (Terminal.significant (Token.fuseRanges tokens)).map Prod.fst =
      Token.fuseRanges ((Terminal.significant tokens).map Prod.fst) := by
    rw [Literals.map_fst_significant, Literals.map_fst_significant, Token.fuseRanges_unspaced]
  have hterminals : (Terminal.ofTokens reading.locale (Token.fuseRanges tokens)).map
      (Terminal.recast g) = (Terminal.ofTokens reading.locale tokens).map (Terminal.recast g) :=
    Terminal.recast_fuseRanges g hspaces (Terminal.colonless_of_ofTokens h) hfuse
  have hread := Parser.recast_ofTokens g rfl reading (Token.fuseRanges tokens)
  rw [hterminals, ← Parser.recast_ofTokens g rfl, h] at hread
  exact exists_ok_of_map hread

/-- What can be read without the fusion is read with it, under the same limit, as the same tree at
other places; the two are equal exactly where no number of the tree is a NaN. -/
theorem ofTokens_fuseRanges (h : ofTokens reading tokens = .ok root) :
    ∃ fused, ofTokens reading (Token.fuseRanges tokens) = .ok fused ∧
      fused.unplaced = root.unplaced ∧
      (fused.same root = true ↔ ∀ n ∈ root.nodesOf .number, n.numberValue ≠ .nan) := by
  obtain ⟨fused, hfused, hunplaced⟩ := exists_ofTokens_fuseRanges h
  refine ⟨fused, hfused, hunplaced, ?_⟩
  rw [← same_unplaced, hunplaced, same_unplaced]
  exact same_self_iff (wellFormed_known h)

/-- Of a sum over a range with spaces, one with a sheet on both sides and one that was put together
before; only the second is left to the parser. -/
theorem ofTokens_fuseRanges_of_sum :
    let reading : Reading := ⟨.canonical, some 3⟩
    let tokens : List Token := [⟨.symbol, "SUM"⟩, ⟨.leftParen, "("⟩, ⟨.reference, "A1"⟩, ⟨.space, " "⟩,
      ⟨.operator, ":"⟩, ⟨.space, " "⟩, ⟨.reference, "$B$2"⟩, ⟨.argSeparator, ","⟩,
      ⟨.reference, "Main!A1"⟩, ⟨.operator, ":"⟩, ⟨.reference, "Main!B2"⟩, ⟨.argSeparator, ","⟩,
      ⟨.reference, "A1:B2"⟩, ⟨.operator, "+"⟩, ⟨.number, "1"⟩, ⟨.rightParen, ")"⟩]
    Token.fuseRanges tokens = [⟨.symbol, "SUM"⟩, ⟨.leftParen, "("⟩, ⟨.reference, "A1:$B$2"⟩,
      ⟨.argSeparator, ","⟩, ⟨.reference, "Main!A1"⟩, ⟨.operator, ":"⟩, ⟨.reference, "Main!B2"⟩,
      ⟨.argSeparator, ","⟩, ⟨.reference, "A1:B2"⟩, ⟨.operator, "+"⟩, ⟨.number, "1"⟩,
      ⟨.rightParen, ")"⟩] ∧
    ∃ root fused, ofTokens reading tokens = .ok root ∧
      ofTokens reading (Token.fuseRanges tokens) = .ok fused ∧ fused.unplaced = root.unplaced ∧
      (fused.same root = true ↔ ∀ n ∈ root.nodesOf .number, n.numberValue ≠ .nan) := by
  intro reading tokens
  refine ⟨by decide +kernel, ?_⟩
  have hread : (ofTokens reading tokens).isOk = true := by decide +kernel
  obtain ⟨root, hroot⟩ := exists_ok_of_isOk hread
  obtain ⟨fused, hfused⟩ := ofTokens_fuseRanges hroot
  exact ⟨root, fused, hroot, hfused⟩

/-- A NaN equals no number, so that a tree with one equals no tree, although nothing was fused. -/
theorem fuseRanges_nan_not_same :
    ∃ root fused, ofTokens ⟨.canonical, none⟩ [⟨.number, "nan"⟩] = .ok root ∧
      ofTokens ⟨.canonical, none⟩ (Token.fuseRanges [⟨.number, "nan"⟩]) = .ok fused ∧
      fused.same root = false := by
  refine ⟨.leaf ⟨"", false, ⟨0, 0⟩⟩ (.number .nan), .leaf ⟨"", false, ⟨0, 0⟩⟩ (.number .nan),
    ?_, ?_, rfl⟩
  · rfl
  · rw [Token.fuseRanges_singleton]
    rfl

end Expr

end SheetFormula
