import SheetFormula.Routine.Literals
import SheetFormula.Proofs.Reading

/-!
The pass that collects literals and the parser look at the same terminals. What the pass finds in a
list of tokens is what its terminals hold, in order, and the key is made of one piece for each of them.
-/

set_option autoImplicit false

namespace SheetFormula

/-! ### Spaces -/

namespace Token

/-- The tokens that are no spaces. -/
def unspaced (tokens : List Token) : List Token :=
  tokens.filter fun t => !t.isSpace

theorem unspaced_dropWhile (tokens : List Token) :
    unspaced (tokens.dropWhile isSpace) = unspaced tokens := by
  induction tokens with
  | nil => rfl
  | cons t ts ih =>
    rw [List.dropWhile_cons]
    split
    · rename_i h
      rw [ih, unspaced, unspaced, List.filter_cons_of_neg (by simp [h])]
    · rfl

theorem head_dropWhile_not_space {t : Token} {tokens rest : List Token}
    (h : tokens.dropWhile isSpace = t :: rest) : t.isSpace = false := by
  have hhead := List.head?_dropWhile_not isSpace tokens
  rw [h] at hhead
  simpa using hhead

theorem unspaced_of_dropWhile_nil {tokens : List Token} (h : tokens.dropWhile isSpace = []) :
    unspaced tokens = [] := by
  rw [← unspaced_dropWhile, h]
  rfl

theorem unspaced_of_dropWhile_cons {t : Token} {tokens rest : List Token}
    (h : tokens.dropWhile isSpace = t :: rest) : unspaced tokens = t :: unspaced rest := by
  rw [← unspaced_dropWhile, h, unspaced,
    List.filter_cons_of_pos (by simp [head_dropWhile_not_space h])]
  rfl

theorem unspaced_cons_of_space {t : Token} (h : t.kind = .space) (tokens : List Token) :
    unspaced (t :: tokens) = unspaced tokens :=
  List.filter_cons_of_neg (by simp [isSpace, h])

theorem unspaced_cons {t : Token} (h : t.kind ≠ .space) (tokens : List Token) :
    unspaced (t :: tokens) = t :: unspaced tokens :=
  List.filter_cons_of_pos (by simp [isSpace, h])

theorem dropWhile_unspaced (tokens : List Token) :
    (unspaced tokens).dropWhile isSpace = unspaced tokens := by
  rw [unspaced]
  cases h : tokens.filter fun t => !t.isSpace with
  | nil => rfl
  | cons t ts =>
    have ht : t ∈ tokens.filter fun t => !t.isSpace := h ▸ List.mem_cons_self
    exact List.dropWhile_cons_of_neg (by simpa using (List.mem_filter.mp ht).2)

/-- Spaces around a colon do not count. -/
theorem afterColon?_unspaced (tokens : List Token) :
    afterColon? (unspaced tokens) =
      (afterColon? tokens).map fun next => (next.1, unspaced next.2) := by
  unfold afterColon?
  rw [dropWhile_unspaced]
  cases houter : tokens.dropWhile isSpace with
  | nil => simp [unspaced_of_dropWhile_nil houter]
  | cons colon more =>
    simp only [unspaced_of_dropWhile_cons houter, dropWhile_unspaced]
    cases hinner : more.dropWhile isSpace with
    | nil => simp [unspaced_of_dropWhile_nil hinner]
    | cons next rest =>
      simp only [unspaced_of_dropWhile_cons hinner]
      split <;> rfl

end Token

/-! ### Terminals -/

/-- The vocabulary has every name that can be called and every leaf that a token other than a number
makes. -/
structure Vocabulary.Ample (V : Vocabulary) : Prop where
  leaf : ∀ text, ∀ atom ∈ [Atom.string, .boolean true, .boolean false, .symbol, .reference],
    V.leaf text atom
  function : ∀ name, Literal.isFunctionName name = true → V.function name

namespace Terminal

/-- A token is a terminal of its own: the tokens after it make neither a call nor a join of it. -/
def Alone (t : Token) (tokens : List Token) : Prop :=
  (∀ u rest, tokens = u :: rest → startsCall t u = false) ∧
    ∀ u v rest, tokens = u :: v :: rest → joins t u v = false

/-- The terminal of a token by itself. -/
def ofToken (locale : Locale) (t : Indexed) : Terminal :=
  ⟨roleOf locale t.1 t.2, t.1.text, t.2⟩

theorem ofIndexed_call {t u : Indexed} (h : startsCall t.1 u.1 = true) (locale : Locale)
    (tokens : List Indexed) :
    ofIndexed locale (t :: u :: tokens) =
      ⟨.callStart, t.1.text, t.2⟩ :: ofIndexed locale tokens := by
  cases tokens with
  | nil => simp [ofIndexed, h]
  | cons v rest => simp [ofIndexed, h]

theorem not_startsCall_of_joins {t u v : Token} (h : joins t u v = true) :
    startsCall t u = false := by
  simp only [joins, Token.isOperator, Bool.and_eq_true, beq_iff_eq] at h
  simp [startsCall, h.1.1]

theorem ofIndexed_join {t u v : Indexed} (h : joins t.1 u.1 v.1 = true) (locale : Locale)
    (tokens : List Indexed) :
    ofIndexed locale (t :: u :: v :: tokens) = joined t v :: ofIndexed locale tokens := by
  rw [ofIndexed, if_neg (by simp [not_startsCall_of_joins h]), if_pos h]

theorem ofIndexed_alone {t : Indexed} {tokens : List Indexed}
    (h : Alone t.1 (tokens.map Prod.fst)) (locale : Locale) :
    ofIndexed locale (t :: tokens) = ofToken locale t :: ofIndexed locale tokens := by
  obtain ⟨hcall, hjoin⟩ := h
  match tokens with
  | [] => rfl
  | [u] => simp [ofIndexed, hcall u.1 [] rfl, ofToken]
  | u :: v :: rest =>
    rw [ofIndexed, if_neg (by simp [hcall u.1 _ rfl]), if_neg (by simp [hjoin u.1 v.1 _ rfl])]
    rfl

/-- Induction over tokens, one terminal at a time. -/
@[elab_as_elim]
theorem terminalInduction {motive : List Indexed → Prop} (nil : motive [])
    (call : ∀ t u tokens, startsCall t.1 u.1 = true → motive tokens → motive (t :: u :: tokens))
    (join : ∀ t u v tokens, joins t.1 u.1 v.1 = true → motive tokens →
      motive (t :: u :: v :: tokens))
    (alone : ∀ t tokens, Alone t.1 (tokens.map Prod.fst) → motive tokens → motive (t :: tokens)) :
    ∀ tokens, motive tokens
  | [] => nil
  | [t] => alone t [] ⟨by simp, by simp⟩ nil
  | [t, u] => by
    cases h : startsCall t.1 u.1 with
    | true => exact call t u [] h nil
    | false => exact alone t [u] ⟨by simp [h], by simp⟩ (alone u [] ⟨by simp, by simp⟩ nil)
  | t :: u :: v :: rest => by
    have hrest := terminalInduction nil call join alone rest
    cases h : startsCall t.1 u.1 with
    | true => exact call t u _ h (terminalInduction nil call join alone (v :: rest))
    | false =>
      cases hjoin : joins t.1 u.1 v.1 with
      | true => exact join t u v rest hjoin hrest
      | false =>
        exact alone t _ ⟨by simp [h], by simp [hjoin]⟩
          (terminalInduction nil call join alone (u :: v :: rest))

theorem isOperand_leaf {V : Vocabulary} {text : String} {atom : Atom} (h : V.leaf text atom)
    (hatom : atom ≠ .empty) (start stop : Nat) : (leaf text atom start stop).IsOperand V := by
  cases atom with
  | empty => exact absurd rfl hatom
  | _ => exact ⟨(Expr.wellFormed_leaf ..).mpr h, rfl⟩

theorem sound_ofToken {V : Vocabulary} (hV : V.Ample) {locale : Locale} (t : Indexed)
    (hnumber : t.1.kind = .number → ∀ value, Literal.number? locale t.1.text = some value →
      V.leaf "" (.number value)) : (ofToken locale t).Sound V := by
  unfold Terminal.Sound ofToken roleOf
  cases hkind : t.1.kind with
  | number =>
    cases hvalue : Literal.number? locale t.1.text with
    | none => trivial
    | some value => exact isOperand_leaf (hnumber hkind value hvalue) (by simp) ..
  | string => exact isOperand_leaf (hV.leaf _ _ (by simp)) (by simp) ..
  | symbol =>
    simp only [nameLeaf]
    split
    · exact isOperand_leaf (hV.leaf _ _ (by simp)) (by simp) ..
    · split <;> exact isOperand_leaf (hV.leaf _ _ (by simp)) (by simp) ..
  | reference => exact isOperand_leaf (hV.leaf _ _ (by simp)) (by simp) ..
  | invalidReference => exact isOperand_leaf (hV.leaf _ _ (by simp)) (by simp) ..
  | _ => trivial

theorem sound_ofIndexed {V : Vocabulary} (hV : V.Ample) {locale : Locale} (tokens : List Indexed)
    (hnumber : ∀ t ∈ tokens, t.1.kind = .number → ∀ value,
      Literal.number? locale t.1.text = some value → V.leaf "" (.number value)) :
    ∀ t ∈ ofIndexed locale tokens, t.Sound V := by
  induction tokens using terminalInduction with
  | nil => exact List.forall_mem_nil _
  | call t u tokens h ih =>
    rw [ofIndexed_call h]
    simp only [startsCall, Bool.and_eq_true] at h
    exact List.forall_mem_cons.mpr ⟨hV.function _ h.2, ih fun v hv => hnumber v (by simp [hv])⟩
  | join t u v tokens h ih =>
    rw [ofIndexed_join h]
    exact List.forall_mem_cons.mpr
      ⟨isOperand_leaf (hV.leaf _ _ (by simp)) (by simp) .., ih fun w hw => hnumber w (by simp [hw])⟩
  | alone t tokens h ih =>
    rw [ofIndexed_alone h]
    obtain ⟨ht, hnumber⟩ := List.forall_mem_cons.mp hnumber
    exact List.forall_mem_cons.mpr ⟨sound_ofToken hV t ht, ih hnumber⟩

end Terminal

/-- Every tree that is read is one that the grammar builds, and it is not an argument left out. -/
theorem Expr.isOperand_callable {reading : Reading} {tokens : List Token} {root : Expr}
    (h : Expr.ofTokens reading tokens = .ok root) : root.IsOperand .callable := by
  have hV : Vocabulary.callable.Ample := ⟨fun _ _ _ => trivial, fun _ hname => hname⟩
  exact Parser.isOperand_of_ofTokens h (Terminal.sound_ofIndexed hV _ fun _ _ _ _ _ => trivial)

theorem Expr.wellFormed_of_ofTokens {reading : Reading} {tokens : List Token} {root : Expr}
    (h : Expr.ofTokens reading tokens = .ok root) : root.WellFormed .callable :=
  (Expr.isOperand_callable h).1

/-- The vocabulary of leaves of a known kind. -/
def Vocabulary.known : Vocabulary where
  leaf _ atom := ∀ kind, atom ≠ .other kind
  function _ := True

theorem Vocabulary.ample_known : Vocabulary.known.Ample where
  leaf _ atom hatom := by
    simp only [List.mem_cons, List.not_mem_nil, or_false] at hatom
    rcases hatom with rfl | rfl | rfl | rfl | rfl <;> exact fun _ => nofun
  function _ _ := trivial

theorem Expr.wellFormed_known {reading : Reading} {tokens : List Token} {root : Expr}
    (h : Expr.ofTokens reading tokens = .ok root) : root.WellFormed .known :=
  (Parser.isOperand_of_ofTokens h
    (Terminal.sound_ofIndexed Vocabulary.ample_known _ fun _ _ _ _ _ _ => nofun)).1

namespace Literals

theorem joinedTo?_unspaced (tokens : List Token) :
    joinedTo? (Token.unspaced tokens) =
      (joinedTo? tokens).map fun next => (next.1, Token.unspaced next.2) := by
  rw [joinedTo?, Token.afterColon?_unspaced, joinedTo?, Option.filter_map]
  rfl

theorem opensCall_unspaced (tokens : List Token) :
    opensCall (Token.unspaced tokens) = opensCall tokens := by
  rw [opensCall, Token.dropWhile_unspaced, opensCall]
  cases h : tokens.dropWhile Token.isSpace with
  | nil => rw [Token.unspaced_of_dropWhile_nil h]
  | cons t rest => rw [Token.unspaced_of_dropWhile_cons h]; rfl

/-- The literals of a reference that a colon joins to the next one. -/
theorem ofTokens_joined {t right : Token} {tokens rest : List Token} (locale : Locale)
    (hkind : t.kind = .reference) (hjoined : joinedTo? tokens = some (right, rest)) :
    ofTokens locale (t :: tokens) =
      (ofTokens locale rest).addReference (t.text ++ ":" ++ right.text) := by
  rw [ofTokens]
  simp only [hkind]
  split
  · rename_i found rest' h
    rw [hjoined] at h
    cases h
    rfl
  · rename_i h
    rw [hjoined] at h
    cases h

theorem ofTokens_reference {t : Token} {tokens : List Token} (locale : Locale)
    (hkind : t.kind = .reference) (hjoined : joinedTo? tokens = none) :
    ofTokens locale (t :: tokens) = (ofTokens locale tokens).addReference t.text := by
  rw [ofTokens]
  simp only [hkind]
  split
  · rename_i found rest h
    rw [hjoined] at h
    cases h
  · rfl

/-- Spaces add nothing to the literals. -/
theorem ofTokens_unspaced (locale : Locale) (tokens : List Token) :
    ofTokens locale (Token.unspaced tokens) = ofTokens locale tokens := by
  fun_induction ofTokens locale tokens with
  | case1 => rw [Token.unspaced, List.filter_nil, ofTokens]
  | case2 t ts hkind ih => rw [Token.unspaced_cons_of_space hkind, ih]
  | case6 t ts hkind right rest hjoined _ ih =>
    have hunspaced := joinedTo?_unspaced ts
    rw [hjoined] at hunspaced
    rw [Token.unspaced_cons (by simp [hkind]), ofTokens_joined locale hkind hunspaced, ih]
  | case7 t ts hkind hjoined ih =>
    have hunspaced := joinedTo?_unspaced ts
    rw [hjoined] at hunspaced
    rw [Token.unspaced_cons (by simp [hkind]), ofTokens_reference locale hkind hunspaced, ih]
  | case8 t ts hkind ih =>
    rw [Token.unspaced_cons (by simp [hkind]), ofTokens]
    simp only [hkind, ih, opensCall_unspaced]
  | case3 t ts hkind ih | case4 t ts hkind ih | case5 t ts hkind ih =>
    rw [Token.unspaced_cons (by simp [hkind]), ofTokens]
    simp only [hkind, ih]
  | case9 t ts hspace hstring hnumber hinvalid hreference hsymbol ih =>
    rw [Token.unspaced_cons hspace, ofTokens]
    split <;> simp_all

/-! ### One token after the other -/

/-- Adds a token that is neither called nor joined to another one. -/
def addToken (locale : Locale) (t : Token) (l : Literals) : Literals :=
  match t.kind with
  | .space => l
  | .string => l.addString t.text
  | .number => l.addNumber locale t.text
  | .invalidReference => l.addInvalidReference t.text
  | .reference => l.addReference t.text
  | .symbol => l.addSymbol t.text false
  | _ => l.addKey t.text

theorem afterColon?_cons_cons {t u : Token} (ht : t.kind ≠ .space) (hu : u.kind ≠ .space)
    (tokens : List Token) :
    Token.afterColon? (t :: u :: tokens) = if t.isOperator ":" then some (u, tokens) else none := by
  simp [Token.afterColon?, Token.isSpace, ht, hu]

theorem afterColon?_singleton (t : Token) : Token.afterColon? [t] = none := by
  by_cases ht : t.kind = .space <;> simp [Token.afterColon?, Token.isSpace, ht]

theorem opensCall_cons {t : Token} (ht : t.kind ≠ .space) (tokens : List Token) :
    opensCall (t :: tokens) = (t.kind == .leftParen) := by
  simp [opensCall, Token.isSpace, ht]

theorem ofTokens_call {t u : Token} (h : Terminal.startsCall t u = true) (locale : Locale)
    (tokens : List Token) :
    ofTokens locale (t :: u :: tokens) = ((ofTokens locale tokens).addKey u.text).addKey t.text := by
  simp only [Terminal.startsCall, Bool.and_eq_true, beq_iff_eq] at h
  obtain ⟨⟨ht, hu⟩, hname⟩ := h
  have hcall : opensCall (u :: tokens) = true := by
    rw [opensCall_cons (by simp [hu]), hu]
    rfl
  rw [ofTokens]
  simp only [ht, hcall, hname, Bool.and_self]
  rw [ofTokens]
  simp [hu, addSymbol]

theorem ofTokens_join {t u v : Token} (h : Terminal.joins t u v = true) (locale : Locale)
    (tokens : List Token) :
    ofTokens locale (t :: u :: v :: tokens) =
      (ofTokens locale tokens).addReference (t.text ++ ":" ++ v.text) := by
  simp only [Terminal.joins, Token.isOperator, Bool.and_eq_true, beq_iff_eq] at h
  obtain ⟨⟨ht, hu, htext⟩, hv⟩ := h
  refine ofTokens_joined locale ht ?_
  rw [joinedTo?, afterColon?_cons_cons (by simp [hu]) (by simp [hv])]
  simp [Token.isOperator, hu, htext, hv]

theorem ofTokens_alone {t : Token} {tokens : List Token} (h : Terminal.Alone t tokens)
    (hspaces : ∀ u ∈ tokens, u.kind ≠ .space) (locale : Locale) :
    ofTokens locale (t :: tokens) = addToken locale t (ofTokens locale tokens) := by
  obtain ⟨hcall, hjoin⟩ := h
  by_cases hkind : t.kind = .reference
  · have hjoined : joinedTo? tokens = none := by
      match tokens with
      | [] => rfl
      | [u] => rw [joinedTo?, afterColon?_singleton]; rfl
      | u :: v :: rest =>
        have huv := hjoin u v rest rfl
        rw [joinedTo?, afterColon?_cons_cons (hspaces u (by simp)) (hspaces v (by simp))]
        simp only [Terminal.joins, hkind] at huv
        split
        · simp_all
        · rfl
    rw [ofTokens_reference locale hkind hjoined, addToken, hkind]
  · have hcalled : t.kind = .symbol →
        (opensCall tokens && Literal.isFunctionName t.text) = false := by
      intro hsymbol
      cases tokens with
      | nil => rfl
      | cons u rest =>
        simpa [opensCall_cons (hspaces u (by simp)), Terminal.startsCall, hsymbol]
          using hcall u rest rfl
    rw [ofTokens, addToken]
    cases h : t.kind with
    | reference => exact absurd h hkind
    | symbol => simp only [hcalled h]
    | _ => rfl

/-! ### Inputs -/

/-- The literals without the key. -/
def inputs (l : Literals) : Inputs :=
  ⟨l.dependencies, l.numbers, l.strings, l.symbols⟩

/-- The terminals have no number that cannot be read. -/
def Readable (terminals : List Terminal) : Prop :=
  ∀ t ∈ terminals, t.role ≠ .unreadable

theorem inputs_addToken {locale : Locale} {t : Token} {index : Nat} {l : Literals}
    {cs : List (String × Atom)} (hl : l.inputs = .ofContents cs)
    (hinvalid : t.kind = .invalidReference → t.text = "#REF")
    (hread : Terminal.roleOf locale t index ≠ .unreadable) :
    (addToken locale t l).inputs =
      .ofContents (Terminal.contents ⟨Terminal.roleOf locale t index, t.text, index⟩ ++ cs) := by
  unfold addToken
  unfold Terminal.roleOf at hread ⊢
  cases hkind : t.kind with
  | number =>
    simp only [hkind] at hread ⊢
    cases hvalue : Literal.number? locale t.text with
    | none => simp [hvalue] at hread
    | some value =>
      change _ = Inputs.ofContents (("", .number value) :: cs)
      rw [Inputs.ofContents_number, ← hl, addNumber, hvalue]
      rfl
  | string =>
    change _ = Inputs.ofContents ((Literal.unquote t.text, .string) :: cs)
    rw [Inputs.ofContents_string, ← hl]
    rfl
  | symbol =>
    simp only [Terminal.nameLeaf, addSymbol]
    by_cases htrue : Text.upper t.text = "TRUE"
    · simp only [htrue, beq_self_eq_true, Bool.or_true, Bool.true_or, if_true]
      exact hl
    · by_cases hfalse : Text.upper t.text = "FALSE"
      · simp only [hfalse, beq_self_eq_true, Bool.or_true, if_true]
        exact hl
      · simp only [htrue, hfalse, if_false]
        change _ = Inputs.ofContents ((t.text, .symbol) :: cs)
        rw [Inputs.ofContents_symbol, ← hl]
        simp [htrue, hfalse, inputs, addKey]
  | reference =>
    change _ = Inputs.ofContents ((t.text, .reference) :: cs)
    rw [Inputs.ofContents_reference, ← hl]
    rfl
  | invalidReference =>
    change _ = Inputs.ofContents (("#REF", .reference) :: cs)
    rw [Inputs.ofContents_reference, ← hl, hinvalid hkind]
    rfl
  | _ => exact hl

/-- The literals of tokens without spaces are those of their terminals. -/
theorem inputs_ofIndexed {locale : Locale} (tokens : List Terminal.Indexed)
    (hspaces : ∀ t ∈ tokens, t.1.kind ≠ .space)
    (hinvalid : ∀ t ∈ tokens, t.1.kind = .invalidReference → t.1.text = "#REF")
    (hread : Readable (Terminal.ofIndexed locale tokens)) :
    (ofTokens locale (tokens.map Prod.fst)).inputs =
      .ofContents ((Terminal.ofIndexed locale tokens).flatMap Terminal.contents) := by
  induction tokens using Terminal.terminalInduction with
  | nil => rw [List.map_nil, ofTokens]; rfl
  | call t u tokens h ih =>
    rw [Terminal.ofIndexed_call h] at hread ⊢
    rw [List.map_cons, List.map_cons, ofTokens_call h]
    exact ih (fun v hv => hspaces v (by simp [hv])) (fun v hv => hinvalid v (by simp [hv]))
      (List.forall_mem_cons.mp hread).2
  | join t u v tokens h ih =>
    rw [Terminal.ofIndexed_join h] at hread ⊢
    have hrest := ih (fun w hw => hspaces w (by simp [hw])) (fun w hw => hinvalid w (by simp [hw]))
      (List.forall_mem_cons.mp hread).2
    rw [List.map_cons, List.map_cons, List.map_cons, ofTokens_join h, List.flatMap_cons]
    change _ = Inputs.ofContents ((t.1.text ++ ":" ++ v.1.text, .reference) ::
      (Terminal.ofIndexed locale tokens).flatMap Terminal.contents)
    rw [Inputs.ofContents_reference, ← hrest]
    rfl
  | alone t tokens h ih =>
    rw [Terminal.ofIndexed_alone h] at hread ⊢
    obtain ⟨hread, hreadRest⟩ := List.forall_mem_cons.mp hread
    obtain ⟨-, hspacesRest⟩ := List.forall_mem_cons.mp hspaces
    obtain ⟨hinvalid, hinvalidRest⟩ := List.forall_mem_cons.mp hinvalid
    have hrest := ih hspacesRest hinvalidRest hreadRest
    rw [List.map_cons, ofTokens_alone h (by simpa using hspacesRest), List.flatMap_cons]
    exact inputs_addToken hrest hinvalid hread

theorem map_fst_significant (tokens : List Token) :
    (Terminal.significant tokens).map Prod.fst = Token.unspaced tokens := by
  have hfilter := List.filter_map (f := Prod.fst) (p := fun t : Token => !t.isSpace)
    (l := tokens.zipIdx)
  rw [List.zipIdx_map_fst] at hfilter
  exact hfilter.symm

theorem mem_of_mem_significant {t : Terminal.Indexed} {tokens : List Token}
    (h : t ∈ Terminal.significant tokens) : t.1 ∈ tokens ∧ t.1.kind ≠ .space := by
  have hmem : t.1 ∈ Token.unspaced tokens := by
    rw [← map_fst_significant]
    exact List.mem_map_of_mem h
  obtain ⟨hmem, hspace⟩ := List.mem_filter.mp hmem
  exact ⟨hmem, by simpa [Token.isSpace] using hspace⟩

/-- The pass over the tokens finds the contents of the tree that is read from them, each kind in the
order of the formula. -/
theorem inputs_of_ofTokens {reading : Reading} {tokens : List Token} {root : Expr}
    (h : Expr.ofTokens reading tokens = .ok root)
    (hinvalid : ∀ t ∈ tokens, t.kind = .invalidReference → t.text = "#REF") :
    (ofTokens reading.locale tokens).inputs = .ofContents root.contents := by
  rw [Parser.contents_of_ofTokens h, ← ofTokens_unspaced, ← map_fst_significant]
  exact inputs_ofIndexed _ (fun t ht => (mem_of_mem_significant ht).2)
    (fun t ht => hinvalid t.1 (mem_of_mem_significant ht).1) (Parser.readable_of_ofTokens h)

/-! ### The nodes of a tree -/

/-- A number that was remembered as unreadable stands among the terminals. -/
theorem unreadable_addToken {locale : Locale} {t : Token} {index : Nat} {l : Literals}
    (hl : l.unreadable = none) (hread : Terminal.roleOf locale t index ≠ .unreadable) :
    (addToken locale t l).unreadable = none := by
  unfold addToken
  unfold Terminal.roleOf at hread
  cases hkind : t.kind with
  | number =>
    simp only [hkind] at hread
    cases hvalue : Literal.number? locale t.text with
    | none => simp [hvalue] at hread
    | some value =>
      simp only [addNumber, hvalue]
      exact hl
  | symbol =>
    simp only [addSymbol]
    split <;> exact hl
  | _ => exact hl

theorem unreadable_ofIndexed {locale : Locale} (tokens : List Terminal.Indexed)
    (hspaces : ∀ t ∈ tokens, t.1.kind ≠ .space)
    (hread : Readable (Terminal.ofIndexed locale tokens)) :
    (ofTokens locale (tokens.map Prod.fst)).unreadable = none := by
  induction tokens using Terminal.terminalInduction with
  | nil => rw [List.map_nil, ofTokens]; rfl
  | call t u tokens h ih =>
    rw [Terminal.ofIndexed_call h] at hread
    rw [List.map_cons, List.map_cons, ofTokens_call h]
    exact ih (fun v hv => hspaces v (by simp [hv])) (List.forall_mem_cons.mp hread).2
  | join t u v tokens h ih =>
    rw [Terminal.ofIndexed_join h] at hread
    rw [List.map_cons, List.map_cons, List.map_cons, ofTokens_join h]
    exact ih (fun w hw => hspaces w (by simp [hw])) (List.forall_mem_cons.mp hread).2
  | alone t tokens h ih =>
    rw [Terminal.ofIndexed_alone h] at hread
    obtain ⟨hread, hreadRest⟩ := List.forall_mem_cons.mp hread
    obtain ⟨-, hspacesRest⟩ := List.forall_mem_cons.mp hspaces
    rw [List.map_cons, ofTokens_alone h (by simpa using hspacesRest)]
    exact unreadable_addToken (ih hspacesRest hreadRest) hread

theorem unreadable_of_ofTokens {reading : Reading} {tokens : List Token} {root : Expr}
    (h : Expr.ofTokens reading tokens = .ok root) :
    (ofTokens reading.locale tokens).unreadable = none := by
  rw [← ofTokens_unspaced, ← map_fst_significant]
  exact unreadable_ofIndexed _ (fun t ht => (mem_of_mem_significant ht).2)
    (Parser.readable_of_ofTokens h)

end Literals

namespace Expr

/-- The nodes of one kind, from the root on, each before its children. -/
def nodesOf (kind : Kind) (e : Expr) : List Expr :=
  e.nodes.filter fun n => n.kind == kind

/-- The value of a number; zero for any other node. -/
def numberValue : Expr → Number
  | .leaf _ (.number value) => value
  | _ => .zero

/-- What is picked from the contents of one kind is what its nodes have. -/
theorem filterMap_contents {α : Type} {pick : String × Atom → Option α} {kind : Kind}
    {value : Expr → α}
    (h : ∀ n : Expr, n.content?.bind pick = if n.kind == kind then some (value n) else none)
    (e : Expr) : e.contents.filterMap pick = (e.nodesOf kind).map value := by
  rw [contents, List.filterMap_filterMap, nodesOf, ← List.filterMap_eq_map, List.filterMap_filter]
  exact congrArg (List.filterMap · e.nodes) (funext h)

theorem ofContents_contents (e : Expr) :
    Inputs.ofContents e.contents =
      ⟨(e.nodesOf .reference).map text, (e.nodesOf .number).map numberValue,
        (e.nodesOf .string).map text,
        (e.nodesOf .symbol).map fun n => Literal.unquote n.text⟩ := by
  rw [Inputs.ofContents]
  congr 1
  all_goals
    refine filterMap_contents (fun n => ?_) e
    cases n with
    | leaf l a => cases a <;> rfl
    | _ => rfl

end Expr

/-- The pass over the tokens of a formula and its parser agree: the numbers, strings, references and
named values that the pass collects are those of the tree, in the order of its nodes. -/
theorem Literals.collected_eq_nodes (reading : Reading) (tokens : List Token) (root : Expr)
    (h : Expr.ofTokens reading tokens = .ok root)
    (hinvalid : ∀ t ∈ tokens, t.kind = .invalidReference → t.text = "#REF") :
    (ofTokens reading.locale tokens).numbers = (root.nodesOf .number).map Expr.numberValue ∧
      (ofTokens reading.locale tokens).strings = (root.nodesOf .string).map Expr.text ∧
      (ofTokens reading.locale tokens).dependencies = (root.nodesOf .reference).map Expr.text ∧
      (ofTokens reading.locale tokens).symbols =
        (root.nodesOf .symbol).map (fun n => Literal.unquote n.text) ∧
      (ofTokens reading.locale tokens).unreadable = none := by
  have hinputs := inputs_of_ofTokens h hinvalid
  rw [Expr.ofContents_contents] at hinputs
  obtain ⟨hdependencies, hnumbers, hstrings, hsymbols⟩ := Inputs.mk.inj hinputs
  exact ⟨hnumbers, hstrings, hdependencies, hsymbols, unreadable_of_ofTokens h⟩

/-- Of `SUM (A1 :B2,'it''s')*"a""b"&#REF-2%`: a call, a join across a space, a quoted name, a string, a
broken reference and a number. -/
theorem Literals.collected_of_sum :
    let tokens : List Token :=
      [⟨.symbol, "SUM"⟩, ⟨.space, " "⟩, ⟨.leftParen, "("⟩, ⟨.reference, "A1"⟩, ⟨.space, " "⟩,
        ⟨.operator, ":"⟩, ⟨.reference, "B2"⟩, ⟨.argSeparator, ","⟩, ⟨.symbol, "'it''s'"⟩,
        ⟨.rightParen, ")"⟩, ⟨.operator, "*"⟩, ⟨.string, "\"a\"\"b\""⟩, ⟨.operator, "&"⟩,
        ⟨.invalidReference, "#REF"⟩, ⟨.operator, "-"⟩, ⟨.number, "2"⟩, ⟨.operator, "%"⟩]
    (∀ t ∈ tokens, t.kind = .invalidReference → t.text = "#REF") ∧
      ∃ root, Expr.ofTokens {} tokens = .ok root ∧
        (ofTokens .canonical tokens).numbers = (root.nodesOf .number).map Expr.numberValue ∧
        (ofTokens .canonical tokens).strings = (root.nodesOf .string).map Expr.text ∧
        (ofTokens .canonical tokens).dependencies = (root.nodesOf .reference).map Expr.text ∧
        (ofTokens .canonical tokens).symbols =
          (root.nodesOf .symbol).map (fun n => Literal.unquote n.text) ∧
        (ofTokens .canonical tokens).unreadable = none := by
  intro tokens
  have hinvalid : ∀ t ∈ tokens, t.kind = .invalidReference → t.text = "#REF" := by decide
  exact ⟨hinvalid, _, rfl, collected_eq_nodes {} tokens _ rfl hinvalid⟩

end SheetFormula
