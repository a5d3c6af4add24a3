import SheetFormula.Proofs.Grammar

/-!
Where a formula goes wrong. Every stage of the parser can be brought to an end: by an operand where one
is awaited, and then by the closing brackets of all that is open. A fault shows at the first terminal
that cannot be taken, so the tokens before it lead to such a stage, and they begin a formula that is
read.
-/

set_option autoImplicit false

namespace SheetFormula

/-! ### Tokens at the end of a list -/

/-- The token neither opens the call of a name before it nor is joined to a reference before it. -/
def Token.IsInert (t : Token) : Prop :=
  t.kind ≠ .leftParen ∧ t.kind ≠ .reference

namespace Terminal

variable {locale : Locale} {t : Token} {tokens more : List Token}

theorem alone_nil : Alone t [] := by
  constructor
  · rintro u rest ⟨⟩
  · rintro u v rest ⟨⟩

theorem alone_append (h : Alone t tokens) (hmore : ∀ u ∈ more, u.IsInert) :
    Alone t (tokens ++ more) := by
  obtain ⟨hcall, hjoin⟩ := h
  have hopens {u : Token} (hu : u ∈ more) : startsCall t u = false := by
    simp [startsCall, (hmore u hu).1]
  have hjoins (u : Token) {v : Token} (hv : v ∈ more) : joins t u v = false := by
    simp [joins, (hmore v hv).2]
  cases tokens with
  | nil =>
    refine ⟨fun u rest hlist => hopens ?_, fun u v rest hlist => hjoins u ?_⟩ <;>
      simp [show more = _ from hlist]
  | cons u tokens =>
    refine ⟨fun u' rest hlist => ?_, fun u' v' rest hlist => ?_⟩
    · exact hcall u' tokens (by simp [(List.cons.inj hlist).1])
    · obtain ⟨rfl, hrest⟩ := List.cons.inj hlist
      cases tokens with
      | nil => exact hjoins u (by simp [show more = _ from hrest])
      | cons v tokens => exact hjoin u v' tokens (by simp [(List.cons.inj hrest).1])

theorem alone_of_append (h : Alone t (tokens ++ more)) : Alone t tokens := by
  refine ⟨fun u rest hlist => h.1 u (rest ++ more) ?_, fun u v rest hlist => h.2 u v (rest ++ more) ?_⟩ <;>
    simp [hlist]

/-- Tokens that are inert add their terminals at the end. -/
theorem ofIndexed_append (indexed : List Indexed) {more : List Indexed}
    (hmore : ∀ u ∈ more, u.1.IsInert) :
    ofIndexed locale (indexed ++ more) = ofIndexed locale indexed ++ more.map (ofToken locale) := by
  have hinert : ∀ u ∈ more.map Prod.fst, u.IsInert := List.forall_mem_map.mpr hmore
  induction indexed using terminalInduction with
  | nil =>
    induction more with
    | nil => rfl
    | cons u more ih =>
      obtain ⟨-, hrest⟩ := List.forall_mem_cons.mp hmore
      have hrest' : ∀ v ∈ more.map Prod.fst, v.IsInert := List.forall_mem_map.mpr hrest
      have halone : Alone u.1 ([] ++ more.map Prod.fst) := alone_append alone_nil hrest'
      have htail := ih hrest hrest'
      rw [List.nil_append] at htail ⊢
      rw [ofIndexed_alone halone, htail]
      rfl
  | call t u indexed h ih =>
    rw [List.cons_append, List.cons_append, ofIndexed_call h, ofIndexed_call h, ih, List.cons_append]
  | join t u v indexed h ih =>
    rw [List.cons_append, List.cons_append, List.cons_append, ofIndexed_join h, ofIndexed_join h, ih,
      List.cons_append]
  | alone t indexed h ih =>
    have halone : Alone t.1 ((indexed ++ more).map Prod.fst) := by
      rw [List.map_append]
      exact alone_append h hinert
    rw [List.cons_append, ofIndexed_alone halone, ofIndexed_alone h, ih, List.cons_append]

/-- The tokens before a terminal make the terminals before it. -/
theorem exists_of_ofIndexed_eq {indexed : List Indexed} {before after : List Terminal} {t : Terminal}
    (h : ofIndexed locale indexed = before ++ t :: after) :
    ∃ first u rest, indexed = first ++ u :: rest ∧ ofIndexed locale first = before ∧
      u.1.text = t.text ∧ u.2 = t.index := by
  induction indexed using terminalInduction generalizing before with
  | nil => cases before <;> cases h
  | call v w indexed hcall ih =>
    rw [ofIndexed_call hcall] at h
    cases before with
    | nil =>
      cases h
      exact ⟨[], v, w :: indexed, rfl, rfl, rfl, rfl⟩
    | cons b before =>
      obtain ⟨rfl, hrest⟩ := List.cons.inj h
      obtain ⟨first, u, rest, rfl, hfirst, hu⟩ := ih hrest
      exact ⟨v :: w :: first, u, rest, rfl, by rw [ofIndexed_call hcall, hfirst], hu⟩
  | join v w x indexed hjoin ih =>
    rw [ofIndexed_join hjoin] at h
    cases before with
    | nil =>
      cases h
      exact ⟨[], v, w :: x :: indexed, rfl, rfl, rfl, rfl⟩
    | cons b before =>
      obtain ⟨rfl, hrest⟩ := List.cons.inj h
      obtain ⟨first, u, rest, rfl, hfirst, hu⟩ := ih hrest
      exact ⟨v :: w :: x :: first, u, rest, rfl, by rw [ofIndexed_join hjoin, hfirst], hu⟩
  | alone v indexed halone ih =>
    rw [ofIndexed_alone halone] at h
    cases before with
    | nil =>
      cases h
      exact ⟨[], v, indexed, rfl, rfl, rfl, rfl⟩
    | cons b before =>
      obtain ⟨rfl, hrest⟩ := List.cons.inj h
      obtain ⟨first, u, rest, rfl, hfirst, hu⟩ := ih hrest
      rw [List.map_append] at halone
      exact ⟨v :: first, u, rest, rfl, by rw [ofIndexed_alone (alone_of_append halone), hfirst], hu⟩

/-- The tokens before one that is no space, counted from `n`, without the spaces. -/
theorem filter_zipIdx_take {tokens : List Token} {n : Nat} {first rest : List Indexed} {u : Indexed}
    (h : (tokens.zipIdx n).filter (fun t => !t.1.isSpace) = first ++ u :: rest) :
    ∃ k, u.2 = n + k ∧ ((tokens.take k).zipIdx n).filter (fun t => !t.1.isSpace) = first ∧
      tokens[k]? = some u.1 ∧ u.1.isSpace = false := by
  induction tokens generalizing n first with
  | nil => cases first <;> cases h
  | cons t tokens ih =>
    rw [List.zipIdx_cons] at h
    cases ht : t.isSpace with
    | true =>
      rw [List.filter_cons_of_neg (by simp [ht])] at h
      obtain ⟨k, hk, hfirst, hu⟩ := ih h
      refine ⟨k + 1, by omega, ?_, hu⟩
      rw [List.take_succ_cons, List.zipIdx_cons, List.filter_cons_of_neg (by simp [ht]), hfirst]
    | false =>
      rw [List.filter_cons_of_pos (by simp [ht])] at h
      cases first with
      | nil =>
        cases h
        exact ⟨0, rfl, rfl, rfl, ht⟩
      | cons v first =>
        obtain ⟨rfl, hrest⟩ := List.cons.inj h
        obtain ⟨k, hk, hfirst, hu⟩ := ih hrest
        refine ⟨k + 1, by omega, ?_, hu⟩
        rw [List.take_succ_cons, List.zipIdx_cons, List.filter_cons_of_pos (by simp [ht]), hfirst]

theorem significant_take {tokens : List Token} {first rest : List Indexed} {u : Indexed}
    (h : significant tokens = first ++ u :: rest) :
    significant (tokens.take u.2) = first ∧ tokens[u.2]? = some u.1 ∧ u.1.isSpace = false := by
  obtain ⟨k, hk, hfirst, hu⟩ := filter_zipIdx_take h
  rw [hk, Nat.zero_add]
  exact ⟨hfirst, hu⟩

theorem significant_append (tokens : List Token) {more : List Token}
    (hmore : ∀ u ∈ more, u.isSpace = false) :
    significant (tokens ++ more) = significant tokens ++ more.zipIdx tokens.length := by
  rw [significant, List.zipIdx_append, List.filter_append, significant, Nat.zero_add]
  refine congrArg (_ ++ ·) (List.filter_eq_self.mpr fun u hu => ?_)
  simp [hmore u.1 (List.fst_mem_of_mem_zipIdx hu)]

end Terminal

/-! ### Completion -/

namespace Parser

variable {limit : Option Nat} {stop : Nat} {t : Terminal} {terminals : List Terminal}
  {stage next : Stage} {left left' : Expr} {frames frames' : List Frame}

/-- The bracket that closes a construct, if it has one. -/
def Frame.closing? : Frame → Option Token
  | .group | .call .. => some ⟨.rightParen, ")"⟩
  | .array .. => some ⟨.rightBrace, "\x7d"⟩
  | _ => none

/-- Tokens that bring a stage to the end of a formula. -/
def Stage.completion : Stage → List Token
  | .operand frames => ⟨.string, "\"\""⟩ :: frames.filterMap Frame.closing?
  | .argument _ _ _ frames => ⟨.rightParen, ")"⟩ :: frames.filterMap Frame.closing?
  | .operator _ frames => frames.filterMap Frame.closing?

theorem kind_of_mem_closings {u : Token} (h : u ∈ frames.filterMap Frame.closing?) :
    u.kind = .rightParen ∨ u.kind = .rightBrace := by
  obtain ⟨frame, -, hclosing⟩ := List.mem_filterMap.mp h
  cases frame <;> cases hclosing <;> simp

theorem kind_of_mem_completion {u : Token} (h : u ∈ stage.completion) :
    u.kind = .string ∨ u.kind = .rightParen ∨ u.kind = .rightBrace := by
  cases stage with
  | operator left frames => exact .inr (kind_of_mem_closings h)
  | _ =>
    rcases List.mem_cons.mp h with rfl | h
    · simp
    · exact .inr (kind_of_mem_closings h)

theorem isInert_of_mem_completion {u : Token} (h : u ∈ stage.completion) : u.IsInert := by
  rcases kind_of_mem_completion h with hkind | hkind | hkind <;> simp [Token.IsInert, hkind]

theorem run_of_step (h : step limit t stage = .ok next) :
    run limit stop stage (t :: terminals) = run limit stop next terminals := by
  rw [run, h]

/-- Before a bracket, as at the end of a formula, only what is closed matters. -/
theorem run_operator_of_close (hclose : close 0 left frames = close 0 left' frames')
    (hbinding : ∀ t ∈ terminals.head?, bindingOf t = 0) :
    run limit stop (.operator left frames) terminals =
      run limit stop (.operator left' frames') terminals := by
  cases terminals with
  | nil => simp only [run, finish, hclose]
  | cons t terminals => simp only [run, step, continueOperand, hbinding t rfl, hclose]

theorem bindingOf_closings (locale : Locale) (frames : List Frame) (n : Nat) :
    ∀ t ∈ (((frames.filterMap Frame.closing?).zipIdx n).map (Terminal.ofToken locale)).head?,
      bindingOf t = 0 := by
  intro t ht
  obtain ⟨u, hu, rfl⟩ := List.mem_map.mp (List.mem_of_mem_head? ht)
  rcases kind_of_mem_closings (List.fst_mem_of_mem_zipIdx hu) with hkind | hkind <;>
    simp [bindingOf, Terminal.ofToken, Terminal.roleOf, hkind]

/-- The closing brackets of the open constructs, from the innermost outwards, end a formula. -/
theorem exists_run_closings (locale : Locale) (stop : Nat) (left : Expr) (frames : List Frame)
    (n : Nat) :
    ∃ root, run none stop (.operator left frames)
      (((frames.filterMap Frame.closing?).zipIdx n).map (Terminal.ofToken locale)) = .ok root := by
  induction frames generalizing left n with
  | nil => exact ⟨left, rfl⟩
  | cons frame frames ih =>
    cases frame with
    | marker index =>
      obtain ⟨root, hroot⟩ := ih (left.marked index) n
      exact ⟨root, (run_operator_of_close (close_marker index (Nat.zero_le _))
        (bindingOf_closings locale frames n)).trans hroot⟩
    | sign op index =>
      obtain ⟨root, hroot⟩ := ih (.unary ⟨op, false, ⟨index, left.span.stop⟩⟩ false left) n
      exact ⟨root, (run_operator_of_close (close_sign op index (Nat.zero_le _))
        (bindingOf_closings locale frames n)).trans hroot⟩
    | operation op other =>
      obtain ⟨root, hroot⟩ :=
        ih (.binary ⟨op, false, ⟨other.span.start, left.span.stop⟩⟩ other left) n
      exact ⟨root, (run_operator_of_close (close_operation other (Nat.zero_le _))
        (bindingOf_closings locale frames n)).trans hroot⟩
    | group =>
      obtain ⟨root, hroot⟩ := ih left (n + 1)
      exact ⟨root, (run_of_step rfl).trans hroot⟩
    | call name index arguments =>
      obtain ⟨root, hroot⟩ := ih (finishCall name index (arguments ++ [left]) n) (n + 1)
      exact ⟨root, (run_of_step rfl).trans hroot⟩
    | array index rows row =>
      obtain ⟨root, hroot⟩ :=
        ih (.array ⟨"", false, ⟨index, n⟩⟩ (rows ++ [row ++ [left]])) (n + 1)
      exact ⟨root, (run_of_step rfl).trans hroot⟩

/-- Every stage is brought to an end by its completion. -/
theorem exists_run_completion (locale : Locale) (stop : Nat) (stage : Stage) (n : Nat) :
    ∃ root, run none stop stage ((stage.completion.zipIdx n).map (Terminal.ofToken locale)) =
      .ok root := by
  cases stage with
  | operand frames =>
    obtain ⟨root, hroot⟩ := exists_run_closings locale stop _ frames (n + 1)
    exact ⟨root, (run_of_step rfl).trans hroot⟩
  | argument name index arguments frames =>
    obtain ⟨root, hroot⟩ := exists_run_closings locale stop _ frames (n + 1)
    exact ⟨root, (run_of_step rfl).trans hroot⟩
  | operator left frames => exact exists_run_closings locale stop left frames n

/-! ### Where a fault shows -/

/-- The terminals before a fault lead to a stage, from which one goes on with any others. -/
theorem exists_stage_of_run_error {fault : Fault} (h : run none stop stage terminals = .error fault) :
    ∃ before after last reason, terminals = before ++ after ∧
      (∀ stop more, run none stop stage (before ++ more) = run none stop last more) ∧
      ((∃ t rest, after = t :: rest ∧ fault = .bad reason t.index t.text) ∨
        after = [] ∧ fault = .bad reason stop "") := by
  induction terminals generalizing stage with
  | nil =>
    simp only [run] at h
    split at h
    · cases h
    · rename_i reason hfinish
      cases h
      exact ⟨[], [], stage, reason, rfl, fun _ _ => rfl, .inr ⟨rfl, rfl⟩⟩
  | cons t rest ih =>
    simp only [run] at h
    split at h
    · rename_i next hstep
      obtain ⟨before, after, last, reason, rfl, hlast, hfault⟩ := ih h
      refine ⟨t :: before, after, last, reason, rfl, fun stop more => ?_, hfault⟩
      rw [List.cons_append, run_of_step hstep, hlast]
    · rename_i reason hstep
      cases h
      exact ⟨[], t :: rest, stage, reason, rfl, fun _ _ => rfl, .inl ⟨t, rest, rfl, rfl⟩⟩

theorem exists_stage_of_ofTokens_error {locale : Locale} {tokens : List Token} {fault : Fault}
    (h : Expr.ofTokens ⟨locale, none⟩ tokens = .error fault) :
    ∃ before after last reason,
      Terminal.ofIndexed locale (Terminal.afterEquals (Terminal.significant tokens)) =
        before ++ after ∧
      (∀ stop more, run none stop (.operand []) (before ++ more) = run none stop last more) ∧
      ((∃ t rest, after = t :: rest ∧ fault = .bad reason t.index t.text) ∨
        after = [] ∧ fault = .bad reason tokens.length "") := by
  unfold Expr.ofTokens at h
  rw [Terminal.ofTokens, Terminal.dropEquals_ofIndexed] at h
  split at h
  · rename_i hnil
    cases h
    exact ⟨[], [], .operand [], .emptyExpression, hnil, fun _ _ => rfl, .inr ⟨rfl, rfl⟩⟩
  · exact exists_stage_of_run_error h

end Parser

namespace Terminal

/-- An equals sign in front is dropped whatever comes after the tokens that are kept. -/
theorem exists_equals {indexed first rest : List Indexed} (h : afterEquals indexed = first ++ rest) :
    ∃ equals, indexed = equals ++ first ++ rest ∧
      ∀ more : List Indexed, (∀ u ∈ more, u.1.isOperator "=" = false) →
        afterEquals (equals ++ first ++ more) = first ++ more := by
  have hkept (more : List Indexed) (hmore : ∀ u ∈ more, u.1.isOperator "=" = false) :
      afterEquals more = more := by
    cases more with
    | nil => rfl
    | cons u more => simp [afterEquals, hmore u List.mem_cons_self]
  cases indexed with
  | nil =>
    obtain ⟨rfl, rfl⟩ := List.append_eq_nil_iff.mp h.symm
    exact ⟨[], rfl, hkept⟩
  | cons t indexed =>
    rw [afterEquals] at h
    split at h
    · rename_i hequals
      exact ⟨[t], by simp [h], fun more _ => by simp [afterEquals, hequals]⟩
    · rename_i hequals
      refine ⟨[], h, fun more hmore => ?_⟩
      cases first with
      | nil => exact hkept more hmore
      | cons u first =>
        obtain ⟨rfl, -⟩ := List.cons.inj h
        simp [afterEquals, hequals]

end Terminal

namespace Expr

variable {locale : Locale} {tokens : List Token}

/-- Tokens that lead to a stage begin a list of tokens that is read. -/
theorem exists_ofTokens_append {first : List Terminal.Indexed} {last : Parser.Stage}
    (hfirst : ∀ more : List Terminal.Indexed, (∀ u ∈ more, u.1.isOperator "=" = false) →
      Terminal.afterEquals (Terminal.significant tokens ++ more) = first ++ more)
    (hlast : ∀ stop more, Parser.run none stop (.operand []) (Terminal.ofIndexed locale first ++ more) =
      Parser.run none stop last more) :
    ∃ more root, ofTokens ⟨locale, none⟩ (tokens ++ more) = .ok root := by
  have hinert : ∀ u ∈ last.completion.zipIdx tokens.length, u.1.IsInert := fun u hu =>
    Parser.isInert_of_mem_completion (List.fst_mem_of_mem_zipIdx hu)
  have hkind {u : Token} (hu : u ∈ last.completion) : u.isSpace = false ∧ u.isOperator "=" = false := by
    rcases Parser.kind_of_mem_completion hu with h | h | h <;> simp [Token.isSpace, Token.isOperator, h]
  obtain ⟨root, hroot⟩ := Parser.exists_run_completion locale
    (tokens ++ last.completion).length last tokens.length
  rw [← hlast, ← Terminal.ofIndexed_append first hinert,
    ← hfirst _ (fun u hu => (hkind (List.fst_mem_of_mem_zipIdx hu)).2),
    ← Terminal.significant_append tokens (fun u hu => (hkind hu).1),
    ← Terminal.dropEquals_ofIndexed] at hroot
  have hread := Parser.toOption_ofTokens ⟨locale, none⟩ (tokens ++ last.completion)
  rw [Terminal.ofTokens, hroot] at hread
  refine ⟨last.completion, root, ?_⟩
  cases htree : ofTokens ⟨locale, none⟩ (tokens ++ last.completion) with
  | error fault =>
    rw [htree] at hread
    cases hread
  | ok again =>
    rw [htree] at hread
    cases hread
    rfl

/-- A list of tokens that is refused without a limit on nesting is a bad expression at a token that is no
space, or at the end; and the tokens before that place begin a list of tokens that is read. -/
theorem viable_before_fault {fault : Fault} (h : ofTokens ⟨locale, none⟩ tokens = .error fault) :
    fault.code.text = "#BAD_EXPR" ∧
      ∃ position : Nat, fault.position = position ∧
        ((∃ t, tokens[position]? = some t ∧ t.isSpace = false ∧ fault.token = t.text) ∨
          position = tokens.length ∧ fault.token = "") ∧
        ∃ more root, ofTokens ⟨locale, none⟩ (tokens.take position ++ more) = .ok root := by
  obtain ⟨before, after, last, reason, hsplit, hlast, ⟨t, rest, rfl, rfl⟩ | ⟨rfl, rfl⟩⟩ :=
    Parser.exists_stage_of_ofTokens_error h
  · obtain ⟨first, u, others, hindexed, rfl, htext, hindex⟩ := Terminal.exists_of_ofIndexed_eq hsplit
    obtain ⟨equals, hsignificant, hequals⟩ := Terminal.exists_equals hindexed
    obtain ⟨htake, htoken, hspace⟩ := Terminal.significant_take hsignificant
    refine ⟨rfl, u.2, by rw [hindex]; rfl, .inl ⟨u.1, htoken, hspace, htext.symm⟩,
      exists_ofTokens_append (fun more hmore => ?_) hlast⟩
    rw [htake]
    exact hequals more hmore
  · generalize hkept : Terminal.afterEquals (Terminal.significant tokens) = first at hsplit
    rw [List.append_nil] at hsplit
    subst hsplit
    obtain ⟨equals, hsignificant, hequals⟩ := Terminal.exists_equals (hkept.trans (List.append_nil _).symm)
    rw [List.append_nil] at hsignificant
    refine ⟨rfl, tokens.length, rfl, .inr ⟨rfl, rfl⟩, ?_⟩
    rw [List.take_length]
    refine exists_ofTokens_append (fun more hmore => ?_) hlast
    rw [hsignificant]
    exact hequals more hmore

/-- After a marked sign in the call of a function, a group is left open and a brace follows its operand. -/
theorem viable_before_brace :
    let tokens : List Token := [⟨.operator, "="⟩, ⟨.symbol, "SUM"⟩, ⟨.leftParen, "("⟩, ⟨.reference, "A1"⟩,
      ⟨.argSeparator, ","⟩, ⟨.debugger, "?"⟩, ⟨.operator, "-"⟩, ⟨.leftParen, "("⟩, ⟨.reference, "B2"⟩,
      ⟨.space, " "⟩, ⟨.leftBrace, "\x7b"⟩, ⟨.reference, "C3"⟩]
    ofTokens ⟨.canonical, none⟩ tokens = .error (.bad .unclosedGroup 10 "\x7b") ∧
      ∃ more root, ofTokens ⟨.canonical, none⟩ (tokens.take 10 ++ more) = .ok root := by
  intro tokens
  have h : ofTokens ⟨.canonical, none⟩ tokens = .error (.bad .unclosedGroup 10 "\x7b") := by rfl
  obtain ⟨-, position, hposition, -, hviable⟩ := viable_before_fault h
  obtain rfl : position = 10 := by
    simp only [Fault.bad] at hposition
    omega
  exact ⟨h, hviable⟩

end Expr

end SheetFormula
