import Mathlib.Data.List.Forall2
import SheetFormula.Proofs.Scan

/-!
Two runs of the parser side by side. The parser goes by the roles of terminals and by the texts of
operators and function names. It does not look into leaves, and places it only puts into trees. So let a
relation between trees be kept by everything that the parser builds (`Parser.Congruence`). Of two lists
of terminals whose leaves are related, both are read or both are refused; what is read is related, and
the faults show at terminals that correspond (`Parser.run_like`).
-/

set_option autoImplicit false

namespace SheetFormula

/-- Both are results that are related, or both are errors that are. -/
inductive Agree {ε α : Type} (F : ε → ε → Prop) (R : α → α → Prop) : Except ε α → Except ε α → Prop
  | ok {a a' : α} (h : R a a') : Agree F R (.ok a) (.ok a')
  | error {e e' : ε} (h : F e e') : Agree F R (.error e) (.error e')

/-- Operands are related, and any other role is the same. -/
inductive Terminal.Role.Like (R : Expr → Expr → Prop) : Role → Role → Prop
  | operand {e e' : Expr} (leaf : R e e') : Role.Like R (.operand e) (.operand e')
  | same {role : Role} (other : ∀ e, role ≠ .operand e) : Role.Like R role role

/-- Terminals that the parser takes in the same way. Only operators and function names must have the
same text. -/
structure Terminal.Like (R : Expr → Expr → Prop) (P : Nat → Nat → Prop) (t t' : Terminal) : Prop where
  role : t.role.Like R t'.role
  text : t.role = .operator ∨ t.role = .callStart → t.text = t'.text
  index : P t.index t'.index

namespace Parser

variable {R : Expr → Expr → Prop} {P : Nat → Nat → Prop}

/-- The relation between trees is kept by everything that the parser builds, at places that are
related. -/
structure Congruence (R : Expr → Expr → Prop) (P : Nat → Nat → Prop) : Prop where
  omitted {i i' : Nat} (index : P i i') : R (omitted i) (omitted i')
  marked {e e' : Expr} {i i' : Nat} (operand : R e e') (index : P i i') :
    R (e.marked i) (e'.marked i')
  sign {e e' : Expr} {i i' : Nat} (op : String) (operand : R e e') (index : P i i') :
    R (.unary ⟨op, false, ⟨i, e.span.stop⟩⟩ false e) (.unary ⟨op, false, ⟨i', e'.span.stop⟩⟩ false e')
  suffix {e e' : Expr} {i i' : Nat} (op : String) (operand : R e e') (index : P i i') :
    R (.unary ⟨op, false, ⟨e.span.start, i⟩⟩ true e) (.unary ⟨op, false, ⟨e'.span.start, i'⟩⟩ true e')
  operation {a a' b b' : Expr} (op : String) (left : R a a') (right : R b b') :
    R (.binary ⟨op, false, ⟨a.span.start, b.span.stop⟩⟩ a b)
      (.binary ⟨op, false, ⟨a'.span.start, b'.span.stop⟩⟩ a' b')
  call {as as' : List Expr} {i i' j j' : Nat} (name : String) (arguments : List.Forall₂ R as as')
    (index : P i i') (stop : P j j') : R (finishCall name i as j) (finishCall name i' as' j')
  array {rs rs' : List (List Expr)} {i i' j j' : Nat} (rows : List.Forall₂ (List.Forall₂ R) rs rs')
    (index : P i i') (stop : P j j') :
    R (.array ⟨"", false, ⟨i, j⟩⟩ rs) (.array ⟨"", false, ⟨i', j'⟩⟩ rs')

/-- Constructs that wait in the same way. -/
inductive Frame.Like (R : Expr → Expr → Prop) (P : Nat → Nat → Prop) : Frame → Frame → Prop
  | marker {i i' : Nat} (index : P i i') : Frame.Like R P (.marker i) (.marker i')
  | sign {i i' : Nat} (op : String) (index : P i i') : Frame.Like R P (.sign op i) (.sign op i')
  | operation {e e' : Expr} (op : String) (left : R e e') :
    Frame.Like R P (.operation op e) (.operation op e')
  | group : Frame.Like R P .group .group
  | call {i i' : Nat} {as as' : List Expr} (name : String) (index : P i i')
    (arguments : List.Forall₂ R as as') : Frame.Like R P (.call name i as) (.call name i' as')
  | array {i i' : Nat} {rs rs' : List (List Expr)} {r r' : List Expr} (index : P i i')
    (rows : List.Forall₂ (List.Forall₂ R) rs rs') (row : List.Forall₂ R r r') :
    Frame.Like R P (.array i rs r) (.array i' rs' r')

/-- Stages that go on in the same way. -/
inductive Stage.Like (R : Expr → Expr → Prop) (P : Nat → Nat → Prop) : Stage → Stage → Prop
  | operand {fs fs' : List Frame} (frames : List.Forall₂ (Frame.Like R P) fs fs') :
    Stage.Like R P (.operand fs) (.operand fs')
  | argument {i i' : Nat} {as as' : List Expr} {fs fs' : List Frame} (name : String)
    (index : P i i') (arguments : List.Forall₂ R as as')
    (frames : List.Forall₂ (Frame.Like R P) fs fs') :
    Stage.Like R P (.argument name i as fs) (.argument name i' as' fs')
  | operator {e e' : Expr} {fs fs' : List Frame} (left : R e e')
    (frames : List.Forall₂ (Frame.Like R P) fs fs') :
    Stage.Like R P (.operator e fs) (.operator e' fs')

/-! ### What closes -/

section Closing

variable {frame : Frame} {frames : List Frame} {next : Nat} {operand : Expr}

theorem close_stop (h : frame.priority < next) :
    close next operand (frame :: frames) = (operand, frame :: frames) := by
  unfold close
  rw [if_pos h]

theorem close_marker (index : Nat) (h : next ≤ Operator.atomPriority) :
    close next operand (.marker index :: frames) = close next (operand.marked index) frames := by
  rw [close, Frame.priority, if_neg (Nat.not_lt.mpr h)]

theorem close_sign (op : String) (index : Nat) (h : next ≤ Operator.signPriority) :
    close next operand (.sign op index :: frames) =
      close next (.unary ⟨op, false, ⟨index, operand.span.stop⟩⟩ false operand) frames := by
  rw [close, Frame.priority, if_neg (Nat.not_lt.mpr h)]

theorem close_operation {op : String} (left : Expr) (h : next ≤ Operator.priority op) :
    close next operand (.operation op left :: frames) =
      close next (.binary ⟨op, false, ⟨left.span.start, operand.span.stop⟩⟩ left operand)
        frames := by
  rw [close, Frame.priority, if_neg (Nat.not_lt.mpr h)]

end Closing

variable {t t' : Terminal} {e e' : Expr} {as as' : List Expr} {f f' : Frame} {fs fs' : List Frame}
  {i i' : Nat}

theorem Frame.Like.priority_eq (h : f.Like R P f') : f.priority = f'.priority := by
  cases h <;> rfl

theorem close_like (hR : Congruence R P) (next : Nat) (he : R e e')
    (hfs : List.Forall₂ (Frame.Like R P) fs fs') :
    R (close next e fs).1 (close next e' fs').1 ∧
      List.Forall₂ (Frame.Like R P) (close next e fs).2 (close next e' fs').2 := by
  induction hfs generalizing e e' with
  | nil => exact ⟨he, .nil⟩
  | @cons f f' fs fs' hf hfs ih =>
    by_cases h : f.priority < next
    · rw [close_stop h, close_stop (hf.priority_eq ▸ h)]
      exact ⟨he, .cons hf hfs⟩
    · have hle := Nat.not_lt.mp h
      cases hf with
      | marker index =>
        rw [close_marker _ hle, close_marker _ hle]
        exact ih (hR.marked he index)
      | sign op index =>
        rw [close_sign op _ hle, close_sign op _ hle]
        exact ih (hR.sign op he index)
      | operation op left =>
        rw [close_operation _ hle, close_operation _ hle]
        exact ih (hR.operation op left he)
      | group =>
        simp only [close, ite_self]
        exact ⟨he, .cons .group hfs⟩
      | call name index arguments =>
        simp only [close, ite_self]
        exact ⟨he, .cons (.call name index arguments) hfs⟩
      | array index rows row =>
        simp only [close, ite_self]
        exact ⟨he, .cons (.array index rows row) hfs⟩

/-! ### One terminal -/

theorem tooDeep_like (limit : Option Nat) (hfs : List.Forall₂ (Frame.Like R P) fs fs') :
    tooDeep limit fs = tooDeep limit fs' := by
  rw [tooDeep, tooDeep, hfs.length_eq]

theorem bindingOf_like (ht : t.Like R P t') : bindingOf t = bindingOf t' := by
  obtain ⟨role, text, index⟩ := t
  obtain ⟨role', text', index'⟩ := t'
  obtain ⟨hrole, htext, -⟩ := ht
  cases hrole with
  | operand leaf => rfl
  | same other =>
    cases role with
    | operator => exact congrArg Operator.priority (htext (.inl rfl))
    | _ => rfl

theorem startOperand_like (limit : Option Nat) (hfs : List.Forall₂ (Frame.Like R P) fs fs')
    (ht : t.Like R P t') :
    Agree (fun _ _ => True) (Stage.Like R P) (startOperand limit fs t)
      (startOperand limit fs' t') := by
  obtain ⟨role, text, index⟩ := t
  obtain ⟨role', text', index'⟩ := t'
  obtain ⟨hrole, htext, hindex⟩ := ht
  simp only [startOperand, tooDeep_like limit hfs]
  split
  · exact .error trivial
  · cases hrole with
    | operand leaf => exact .ok (.operator leaf hfs)
    | same other =>
      cases role with
      | operand e => exact absurd rfl (other e)
      | callStart =>
        obtain rfl := htext (.inr rfl)
        exact .ok (.argument text hindex .nil hfs)
      | marker => exact .ok (.operand (.cons (.marker hindex) hfs))
      | leftParen => exact .ok (.operand (.cons .group hfs))
      | leftBrace => exact .ok (.operand (.cons (.array hindex .nil .nil) hfs))
      | operator =>
        obtain rfl := htext (.inl rfl)
        dsimp only
        split
        · exact .ok (.operand (.cons (.sign text hindex) hfs))
        · exact .error trivial
      | _ => exact .error trivial

theorem startArgument_like (hR : Congruence R P) (limit : Option Nat) (name : String)
    (hi : P i i') (has : List.Forall₂ R as as') (hfs : List.Forall₂ (Frame.Like R P) fs fs')
    (ht : t.Like R P t') :
    Agree (fun _ _ => True) (Stage.Like R P) (startArgument limit name i as fs t)
      (startArgument limit name i' as' fs' t') := by
  have hoperand := startOperand_like limit (.cons (.call name hi has) hfs) ht
  obtain ⟨role, text, index⟩ := t
  obtain ⟨role', text', index'⟩ := t'
  obtain ⟨hrole, htext, hindex⟩ := ht
  have homitted := List.rel_append has (.cons (hR.omitted hindex) .nil)
  cases hrole with
  | operand leaf => exact hoperand
  | same other =>
    cases role with
    | argSeparator => exact .ok (.argument name hi homitted hfs)
    | rightParen =>
      cases has with
      | nil => exact .ok (.operator (hR.call name .nil hi hindex) hfs)
      | cons => exact .ok (.operator (hR.call name homitted hi hindex) hfs)
    | _ => exact hoperand

theorem continueBracket_like (hR : Congruence R P) (he : R e e')
    (hfs : List.Forall₂ (Frame.Like R P) fs fs') (ht : t.Like R P t') :
    Agree (fun _ _ => True) (Stage.Like R P) (continueBracket e fs t)
      (continueBracket e' fs' t') := by
  obtain ⟨role, text, index⟩ := t
  obtain ⟨role', text', index'⟩ := t'
  obtain ⟨hrole, htext, hindex⟩ := ht
  cases hfs with
  | nil => exact .error trivial
  | cons hf hfs =>
    cases hf with
    | group =>
      cases hrole with
      | operand leaf => exact .error trivial
      | same other =>
        cases role with
        | rightParen => exact .ok (.operator he hfs)
        | _ => exact .error trivial
    | call name hi has =>
      have harguments := List.rel_append has (.cons he .nil)
      cases hrole with
      | operand leaf => exact .error trivial
      | same other =>
        cases role with
        | argSeparator => exact .ok (.argument name hi harguments hfs)
        | rightParen => exact .ok (.operator (hR.call name harguments hi hindex) hfs)
        | _ => exact .error trivial
    | array hi hrows hrow =>
      have hcells := List.rel_append hrow (.cons he .nil)
      have hwhole := List.rel_append hrows (.cons hcells .nil)
      cases hrole with
      | operand leaf => exact .error trivial
      | same other =>
        cases role with
        | argSeparator => exact .ok (.operand (.cons (.array hi hrows hcells) hfs))
        | rowSeparator => exact .ok (.operand (.cons (.array hi hwhole .nil) hfs))
        | rightBrace => exact .ok (.operator (hR.array hwhole hi hindex) hfs)
        | _ => exact .error trivial
    | _ => exact .error trivial

theorem continueOperand_like (hR : Congruence R P) (he : R e e')
    (hfs : List.Forall₂ (Frame.Like R P) fs fs') (ht : t.Like R P t') :
    Agree (fun _ _ => True) (Stage.Like R P) (continueOperand e fs t)
      (continueOperand e' fs' t') := by
  obtain ⟨hoperand, hframes⟩ := close_like hR (bindingOf t') he hfs
  simp only [continueOperand, bindingOf_like ht]
  by_cases hzero : bindingOf t' = 0
  · rw [if_pos hzero, if_pos hzero]
    exact continueBracket_like hR hoperand hframes ht
  · have hrole := role_of_bindingOf_ne_zero (bindingOf_like ht ▸ hzero)
    rw [if_neg hzero, if_neg hzero, ht.text (.inl hrole)]
    split
    · exact .ok (.operator (hR.suffix _ hoperand ht.index) hframes)
    · exact .ok (.operand (.cons (.operation _ hoperand) hframes))

variable {s s' : Stage}

/-- Terminals that are alike are taken at stages that are alike, or refused there. -/
theorem step_like (hR : Congruence R P) (limit : Option Nat) (ht : t.Like R P t')
    (hs : s.Like R P s') :
    Agree (fun _ _ => True) (Stage.Like R P) (step limit t s) (step limit t' s') := by
  cases hs with
  | operand hfs => exact startOperand_like limit hfs ht
  | argument name hi has hfs => exact startArgument_like hR limit name hi has hfs ht
  | operator he hfs => exact continueOperand_like hR he hfs ht

theorem finish_like (hR : Congruence R P) (limit : Option Nat) (hs : s.Like R P s') :
    Agree (fun _ _ => True) R (finish limit s) (finish limit s') := by
  cases hs with
  | operand hfs => exact .error trivial
  | argument name hi has hfs => exact .error trivial
  | @operator e e' fs fs' he hfs =>
    obtain ⟨hroot, hframes⟩ := close_like hR 0 he hfs
    simp only [finish]
    generalize close 0 e fs = closed, close 0 e' fs' = closed' at hroot hframes ⊢
    obtain ⟨root, frames⟩ := closed
    obtain ⟨root', frames'⟩ := closed'
    cases hframes with
    | nil => exact .ok hroot
    | cons hf _ => cases hf <;> exact .error trivial

/-! ### All terminals -/

variable {F : Fault → Fault → Prop} {ts ts' : List Terminal}

/-- Lists of terminals that are alike are both read or both refused. -/
theorem run_like (hR : Congruence R P) (limit : Option Nat) (stop stop' : Nat)
    (hfault : ∀ reason reason' text text' i i', P i i' →
      F (.bad reason i text) (.bad reason' i' text'))
    (hstop : ∀ reason reason', F (.bad reason stop "") (.bad reason' stop' ""))
    (hs : s.Like R P s') (hts : List.Forall₂ (Terminal.Like R P) ts ts') :
    Agree F R (run limit stop s ts) (run limit stop' s' ts') := by
  -- on the terminals that are left, from any two stages that are alike
  induction hts generalizing s s' with
  | nil =>
    have hfinish := finish_like hR limit hs
    unfold run
    generalize finish limit s = answer, finish limit s' = answer' at hfinish
    cases hfinish with
    | ok hroot => exact .ok hroot
    | error => exact .error (hstop ..)
  | @cons t t' ts ts' ht hts ih =>
    have hstep := step_like hR limit ht hs
    unfold run
    generalize step limit t s = next, step limit t' s' = next' at hstep
    cases hstep with
    | ok hnext => exact ih hnext
    | error => exact .error (hfault _ _ _ _ _ _ ht.index)

theorem dropEquals_like (hts : List.Forall₂ (Terminal.Like R P) ts ts') :
    List.Forall₂ (Terminal.Like R P) (dropEquals ts) (dropEquals ts') := by
  cases hts with
  | nil => exact .nil
  | @cons t t' ts ts' ht hts =>
    have hkept := List.Forall₂.cons ht hts
    obtain ⟨role, text, index⟩ := t
    obtain ⟨role', text', index'⟩ := t'
    obtain ⟨hrole, htext, hindex⟩ := ht
    cases hrole with
    | operand leaf => exact hkept
    | same other =>
      cases role with
      | operator =>
        obtain rfl := htext (.inl rfl)
        simp only [dropEquals]
        split
        · exact hts
        · exact hkept
      | _ => exact hkept

end Parser

/-! ### Tokens -/

/-- Tokens of one kind; names and operators have the same text too. -/
structure Token.SameShape (t t' : Token) : Prop where
  kind : t.kind = t'.kind
  text : t.kind = .symbol ∨ t.kind = .operator → t.text = t'.text

namespace Terminal

variable {t t' u u' v v' : Token} {ts ts' : List Token}

theorem startsCall_eq (ht : t.SameShape t') (hu : u.SameShape u') :
    startsCall t u = startsCall t' u' := by
  unfold startsCall
  by_cases hkind : t.kind = .symbol
  · rw [← ht.kind, ← hu.kind, ht.text (.inl hkind)]
  · rw [← ht.kind, beq_eq_false_iff_ne.mpr hkind]
    rfl

theorem isOperator_eq (ht : t.SameShape t') (op : String) : t.isOperator op = t'.isOperator op := by
  unfold Token.isOperator
  by_cases hkind : t.kind = .operator
  · rw [← ht.kind, ht.text (.inr hkind)]
  · rw [← ht.kind, beq_eq_false_iff_ne.mpr hkind]
    rfl

theorem joins_eq (ht : t.SameShape t') (hu : u.SameShape u') (hv : v.SameShape v') :
    joins t u v = joins t' u' v' := by
  rw [joins, joins, ht.kind, isOperator_eq hu, hv.kind]

theorem Alone.of_sameShape (h : Alone t ts) (ht : t.SameShape t')
    (hts : List.Forall₂ Token.SameShape ts ts') : Alone t' ts' := by
  constructor
  · rintro u' rest' rfl
    cases hts with
    | cons hu _ => exact startsCall_eq ht hu ▸ h.1 _ _ rfl
  · rintro u' v' rest' rfl
    cases hts with
    | cons hu hts =>
      cases hts with
      | cons hv _ => exact joins_eq ht hu hv ▸ h.2 _ _ _ rfl

/-- Tokens at the same place that are related. -/
def Paired (A : Token → Token → Prop) (t t' : Indexed) : Prop :=
  A t.1 t'.1 ∧ t.2 = t'.2

/-- Induction over two lists of tokens of one shape, one terminal of each at a time. -/
@[elab_as_elim]
theorem pairedInduction {A : Token → Token → Prop} (hA : ∀ t t', A t t' → t.SameShape t')
    {motive : ∀ ts ts', List.Forall₂ (Paired A) ts ts' → Prop} (nil : motive [] [] .nil)
    (call : ∀ t t' u u' ts ts' ht hu hts, startsCall t.1 u.1 = true → startsCall t'.1 u'.1 = true →
      motive ts ts' hts → motive (t :: u :: ts) (t' :: u' :: ts') (.cons ht (.cons hu hts)))
    (join : ∀ t t' u u' v v' ts ts' ht hu hv hts, joins t.1 u.1 v.1 = true →
      joins t'.1 u'.1 v'.1 = true → motive ts ts' hts →
      motive (t :: u :: v :: ts) (t' :: u' :: v' :: ts') (.cons ht (.cons hu (.cons hv hts))))
    (alone : ∀ t t' ts ts' ht hts, Alone t.1 (ts.map Prod.fst) → Alone t'.1 (ts'.map Prod.fst) →
      motive ts ts' hts → motive (t :: ts) (t' :: ts') (.cons ht hts))
    {ts ts' : List Indexed} (h : List.Forall₂ (Paired A) ts ts') : motive ts ts' h := by
  -- how the first list falls into terminals is seen from shapes, so the second one falls alike
  induction ts using terminalInduction generalizing ts' with
  | nil =>
    cases h
    exact nil
  | call t u ts hcall ih =>
    obtain _ | ⟨ht, _ | ⟨hu, hts⟩⟩ := h
    have hcall' := startsCall_eq (hA _ _ ht.1) (hA _ _ hu.1) ▸ hcall
    exact call _ _ _ _ _ _ ht hu hts hcall hcall' (ih hts)
  | join t u v ts hjoin ih =>
    obtain _ | ⟨ht, _ | ⟨hu, _ | ⟨hv, hts⟩⟩⟩ := h
    have hjoin' := joins_eq (hA _ _ ht.1) (hA _ _ hu.1) (hA _ _ hv.1) ▸ hjoin
    exact join _ _ _ _ _ _ _ _ ht hu hv hts hjoin hjoin' (ih hts)
  | alone t ts halone ih =>
    cases h with
    | @cons _ t' _ ts' ht hts =>
      have hshapes : List.Forall₂ Token.SameShape (ts.map Prod.fst) (ts'.map Prod.fst) :=
        List.forall₂_map_left_iff.mpr
          (List.forall₂_map_right_iff.mpr (hts.imp fun _ _ hu => hA _ _ hu.1))
      exact alone _ _ _ _ ht hts halone (halone.of_sameShape (hA _ _ ht.1) hshapes) (ih hts)

theorem forall₂_significant {A : Token → Token → Prop} (hA : ∀ t t', A t t' → t.kind = t'.kind)
    (h : List.Forall₂ A ts ts') : List.Forall₂ (Paired A) (significant ts) (significant ts') := by
  unfold significant
  generalize 0 = n
  induction h generalizing n with
  | nil => exact .nil
  | @cons t t' ts ts' ht hts ih =>
    have hspace : t.isSpace = t'.isSpace := by rw [Token.isSpace, Token.isSpace, hA t t' ht]
    rw [List.zipIdx_cons, List.zipIdx_cons, List.filter_cons, List.filter_cons, ← hspace]
    split
    · exact .cons ⟨ht, rfl⟩ (ih (n + 1))
    · exact ih (n + 1)

theorem kind_of_roleOf {locale : Locale} {index : Nat} (h : roleOf locale t index = .operator) :
    t.kind = .operator := by
  unfold roleOf at h
  cases hkind : t.kind with
  | operator => rfl
  | number =>
    simp only [hkind] at h
    split at h <;> cases h
  | _ => simp [hkind] at h

theorem roleOf_ne_callStart (locale : Locale) (t : Token) (index : Nat) :
    roleOf locale t index ≠ .callStart := by
  unfold roleOf
  cases t.kind with
  | number =>
    dsimp only
    split <;> simp
  | _ => simp

/-- Tokens with roles that are alike make terminals that are alike. -/
theorem like_ofTokens {A : Token → Token → Prop} {R : Expr → Expr → Prop} {locale locale' : Locale}
    (hA : ∀ t t', A t t' → t.SameShape t')
    (hrole : ∀ t t' i, A t t' → (roleOf locale t i).Like R (roleOf locale' t' i))
    (hjoin : ∀ t t' v v' i j, A t t' → A v v' → t.kind = .reference → v.kind = .reference →
      R (leaf (t.text ++ ":" ++ v.text) .reference i j)
        (leaf (t'.text ++ ":" ++ v'.text) .reference i j))
    (h : List.Forall₂ A ts ts') :
    List.Forall₂ (Terminal.Like R Eq) (ofTokens locale ts) (ofTokens locale' ts') := by
  have hpaired := forall₂_significant (fun t t' ht => (hA t t' ht).kind) h
  unfold ofTokens
  generalize significant ts = xs, significant ts' = xs' at hpaired
  induction hpaired using pairedInduction hA with
  | nil => exact .nil
  | call t t' u u' xs xs' ht hu _ hcall hcall' ih =>
    rw [ofIndexed_call hcall, ofIndexed_call hcall']
    simp only [startsCall, Bool.and_eq_true, beq_iff_eq] at hcall
    exact .cons ⟨.same (by simp), fun _ => (hA _ _ ht.1).text (.inl hcall.1.1), ht.2⟩ ih
  | join t t' u u' v v' xs xs' ht hu hv _ hjoins hjoins' ih =>
    rw [ofIndexed_join hjoins, ofIndexed_join hjoins']
    simp only [joins, Bool.and_eq_true, beq_iff_eq] at hjoins
    refine .cons ⟨.operand ?_, by simp [joined], ht.2⟩ ih
    rw [← ht.2, ← hv.2]
    exact hjoin _ _ _ _ _ _ ht.1 hv.1 hjoins.1.1 hjoins.2
  | alone t t' xs xs' ht _ halone halone' ih =>
    rw [ofIndexed_alone halone, ofIndexed_alone halone']
    refine .cons ⟨?_, fun h => ?_, ht.2⟩ ih
    · rw [ofToken, ofToken, ← ht.2]
      exact hrole _ _ _ ht.1
    · rcases h with h | h
      · exact (hA _ _ ht.1).text (.inr (kind_of_roleOf h))
      · exact absurd h (roleOf_ne_callStart locale t.1 t.2)

end Terminal

/-- Token lists of one length whose terminals are alike are both read or both refused. -/
theorem Expr.ofTokens_like {R : Expr → Expr → Prop} {P : Nat → Nat → Prop}
    {F : Fault → Fault → Prop} {reading reading' : Reading} {tokens tokens' : List Token}
    (hR : Parser.Congruence R P)
    (hfault : ∀ reason reason' text text' i i', P i i' →
      F (.bad reason i text) (.bad reason' i' text'))
    (hlength : P tokens.length tokens'.length) (hlimit : reading.limit = reading'.limit)
    (h : List.Forall₂ (Terminal.Like R P) (Terminal.ofTokens reading.locale tokens)
      (Terminal.ofTokens reading'.locale tokens')) :
    Agree F R (ofTokens reading tokens) (ofTokens reading' tokens') := by
  have hstop reason reason' := hfault reason reason' "" "" _ _ hlength
  have hrest := Parser.dropEquals_like h
  unfold ofTokens
  generalize Parser.dropEquals (Terminal.ofTokens reading.locale tokens) = terminals,
    Parser.dropEquals (Terminal.ofTokens reading'.locale tokens') = terminals' at hrest
  cases hrest with
  | nil => exact .error (hstop ..)
  | cons ht hts =>
    rw [← hlimit]
    exact Parser.run_like hR reading.limit _ _ hfault hstop (.operand .nil) (.cons ht hts)

end SheetFormula
