import SheetFormula.Proofs.Association
import SheetFormula.Proofs.Phrase

/-!
The text of a tree as a phrase. The rules on parentheses make it a proper phrase, in which a right
operand without parentheses goes on with the chain of its operator; its tree is the regrouped one.
-/

set_option autoImplicit false

namespace SheetFormula

/-- The terminal as it is written. -/
def Terminal.written (t : Terminal) : List Char :=
  match t.role with
  | .operand (.leaf l a) => (Expr.atomText l.text a).toList
  | .callStart => t.text.toList ++ ['(']
  | _ => t.text.toList

namespace Phrase

variable {op op' : String} {d b c r : Phrase}

/-! ### Chains -/

/-- Puts `d op` before a phrase, at the very front of a chain of the same priority. -/
def attach (op : String) (d : Phrase) : Phrase → Phrase
  | .operation op' b c =>
    if Operator.priority op' = Operator.priority op then .operation op' (attach op d b) c
    else .operation op d (.operation op' b c)
  | r => .operation op d r

theorem attach_chain (h : Operator.priority op' = Operator.priority op) (d b c : Phrase) :
    attach op d (.operation op' b c) = .operation op' (attach op d b) c := by
  rw [attach, if_pos h]

theorem attach_alone (h : r.RootOperator fun op' => Operator.priority op' ≠ Operator.priority op)
    (d : Phrase) : attach op d r = .operation op d r := by
  cases r with
  | operation op' b c => rw [attach, if_neg h]
  | _ => rw [attach]; nofun

/-- Induction along a chain of the priority of an operator, from its first operand. -/
theorem chainInduction {motive : Phrase → Prop} (op : String)
    (alone : ∀ r : Phrase,
      r.RootOperator (fun op' => Operator.priority op' ≠ Operator.priority op) → motive r)
    (chain : ∀ op' b c, Operator.priority op' = Operator.priority op → motive b →
      motive (.operation op' b c)) (r : Phrase) : motive r := by
  cases r with
  | operation op' b c =>
    by_cases h : Operator.priority op' = Operator.priority op
    · exact chain op' b c h (chainInduction op alone chain b)
    · exact alone _ h
  | _ => exact alone _ trivial

theorem yield_attach (op : String) (d r : Phrase) :
    (attach op d r).yield = d.yield ++ ⟨.operator, op, 0⟩ :: r.yield := by
  induction r using chainInduction op with
  | alone r h => rw [attach_alone h, yield]
  | chain op' b c h ih =>
    rw [attach_chain h, yield, ih, yield, List.append_assoc, List.cons_append]

theorem endsBefore_attach (op : String) (d r : Phrase) (next : Nat) :
    (attach op d r).EndsBefore next ↔ next ≤ Operator.priority op ∧ r.EndsBefore next := by
  induction r using chainInduction op with
  | alone r h => rw [attach_alone h, EndsBefore]
  | chain op' b c h ih =>
    rw [attach_chain h, EndsBefore, EndsBefore, h]
    tauto

theorem rootOperator_attach {p : String → Prop} (op : String) (d r : Phrase)
    (hp : ∀ op', Operator.priority op' = Operator.priority op → p op') :
    (attach op d r).RootOperator p := by
  induction r using chainInduction op with
  | alone r h =>
    rw [attach_alone h]
    exact hp op rfl
  | chain op' b c h ih =>
    rw [attach_chain h]
    exact hp op' h

/-- Chains are put together in any order. -/
theorem attach_attach (h : Operator.priority op' = Operator.priority op) (d b c : Phrase) :
    attach op d (attach op' b c) = attach op' (attach op d b) c := by
  induction c using chainInduction op' with
  | alone c hc => rw [attach_alone hc, attach_chain h, attach_alone hc]
  | chain op'' x y hx ih =>
    rw [attach_chain hx, attach_chain (hx.trans h), ih, attach_chain hx]

/-- A chain stays proper with one more operand in front. -/
theorem Proper.attach (hd : d.Proper) (hr : r.Proper) (hbinds : 0 < Operator.priority op)
    (hbinary : Operator.isSuffix op = false) (hbefore : d.EndsBefore (Operator.priority op))
    (hroot : r.RootOperator fun op' => Operator.priority op ≤ Operator.priority op') :
    (attach op d r).Proper := by
  induction r using chainInduction op with
  | alone r h =>
    rw [attach_alone h]
    refine .operation hbinds hbinary hd hr hbefore (hr.staysAbove (Operator.priority_lt hbinary) ?_)
    cases r with
    | operation op' b c => exact Nat.lt_of_le_of_ne hroot (Ne.symm h)
    | _ => trivial
  | chain op' b c h ih =>
    cases hr with
    | operation binds binary left right before above =>
      have hleft := ih left (before.rootOperator.imp fun op'' hop => h ▸ hop)
      rw [attach_chain h]
      exact .operation binds binary hleft right ((endsBefore_attach ..).mpr ⟨h.le, before⟩) above

/-! ### Parentheses and marks -/

/-- A phrase in parentheses where they are needed. -/
def groupIf (needed : Bool) (d : Phrase) : Phrase :=
  if needed then .group d else d

/-- A phrase with the debugger's mark, if the node has one. -/
def mark (debug operation : Bool) (d : Phrase) : Phrase :=
  if debug then .marked (groupIf operation d) else d

theorem tree_groupIf (needed : Bool) (d : Phrase) : (groupIf needed d).tree = d.tree := by
  cases needed
  · rfl
  · exact tree.eq_3 d

theorem tree_mark (debug operation : Bool) (d : Phrase) :
    (mark debug operation d).tree = if debug then d.tree.marked 0 else d.tree := by
  cases debug
  · rfl
  · rw [mark, if_pos rfl, tree, tree_groupIf, if_pos rfl]

theorem Proper.groupIf (h : d.Proper) (needed : Bool) : (groupIf needed d).Proper := by
  cases needed
  · exact h
  · exact .group h

theorem endsBefore_groupIf {needed : Bool} {next : Nat}
    (h : needed = false → d.EndsBefore next) : (groupIf needed d).EndsBefore next := by
  cases needed
  · exact h rfl
  · trivial

theorem Proper.mark {operation : Bool} (h : d.Proper)
    (habove : operation = false → d.StaysAbove Operator.atomPriority) (debug : Bool) :
    (mark debug operation d).Proper := by
  cases debug
  · exact h
  · cases operation
    · exact .marked h (habove rfl)
    · exact .marked (.group h) trivial

theorem endsBefore_mark {debug operation : Bool} {next : Nat} (hnext : next ≤ Operator.atomPriority)
    (h : (debug && operation) = false → d.EndsBefore next) :
    (mark debug operation d).EndsBefore next := by
  cases debug
  · exact h rfl
  · refine ⟨hnext, ?_⟩
    cases operation
    · exact h rfl
    · trivial

theorem rootOperator_groupIf {needed : Bool} {p : String → Prop}
    (h : needed = false → d.RootOperator p) : (groupIf needed d).RootOperator p := by
  cases needed
  · exact h rfl
  · trivial

/-! ### The text of a phrase -/

/-- The text that the terminals of a phrase spell. -/
def letters (d : Phrase) : List Char :=
  d.yield.flatMap Terminal.written

theorem letters_groupIf {text : String} (needed : Bool) (h : d.letters = text.toList) :
    (groupIf needed d).letters = (Expr.parenthesize needed text).toList := by
  cases needed
  · exact h
  · have hgroup : (Phrase.group d).letters = '(' :: (d.letters ++ [')']) := by
      simp [letters, yield, Terminal.opening, Terminal.closing, Terminal.written]
    rw [groupIf, if_pos rfl, hgroup, h, Expr.parenthesize, if_pos rfl]
    simp

theorem letters_mark {text : String} (debug operation : Bool) (h : d.letters = text.toList) :
    (mark debug operation d).letters = (Expr.markText debug operation text).toList := by
  cases debug
  · exact h
  · have hmarked (d : Phrase) : (Phrase.marked d).letters = '?' :: d.letters := by
      simp [letters, yield, Terminal.question, Terminal.written]
    rw [mark, if_pos rfl, hmarked, letters_groupIf operation h, Expr.markText, if_pos rfl]
    simp

theorem letters_sign (op : String) (d : Phrase) :
    (Phrase.sign op d).letters = op.toList ++ d.letters := by
  simp [letters, yield, Terminal.written]

theorem letters_suffix (op : String) (d : Phrase) :
    (Phrase.suffix op d).letters = d.letters ++ op.toList := by
  simp [letters, yield, Terminal.written]

theorem letters_attach (op : String) (d r : Phrase) :
    (attach op d r).letters = d.letters ++ (op.toList ++ r.letters) := by
  simp [letters, yield_attach, Terminal.written]

theorem flatMap_intercalate {α β γ : Type} (f : α → List β) (g : γ → List α) (separator : α)
    (xs : List γ) :
    ([separator].intercalate (xs.map g)).flatMap f =
      (f separator).intercalate (xs.map fun x => (g x).flatMap f) := by
  induction xs with
  | nil => rfl
  | cons x xs ih =>
    cases xs with
    | nil => simp
    | cons y xs => simp_all [List.intercalate_cons_cons]

theorem letters_call (function : String) (as : List Phrase) :
    (Phrase.call function as).letters =
      function.toList ++ '(' :: ([','].intercalate (as.map letters) ++ [')']) := by
  rw [letters, yield, yields_eq_map, List.flatMap_cons, List.flatMap_append, flatMap_intercalate]
  simp [Terminal.written, Terminal.comma, Terminal.closing]
  rfl

theorem letters_array (rs : List (List Phrase)) :
    (Phrase.array rs).letters =
      '\x7b' :: ([';'].intercalate (rs.map fun r => [','].intercalate (r.map letters)) ++
        ['\x7d']) := by
  rw [letters, yield, yieldRows_eq_map, List.flatMap_cons, List.flatMap_append, flatMap_intercalate]
  simp only [flatMap_intercalate]
  simp [Terminal.written, Terminal.comma, Terminal.semicolon]
  rfl

end Phrase

namespace Expr

theorem formulas_eq_map (es : List Expr) : formulas es = es.map toFormula := by
  induction es with
  | nil => rfl
  | cons e es ih => rw [formulas, ih, List.map_cons]

theorem rowFormulas_eq_map (rs : List (List Expr)) :
    rowFormulas rs = rs.map fun r => ",".intercalate (r.map toFormula) := by
  induction rs with
  | nil => rfl
  | cons r rs ih => rw [rowFormulas, ih, formulas_eq_map, List.map_cons]

open Phrase (groupIf mark attach)

mutual

/-- The phrase that the text of a tree spells. -/
def phrase : Expr → Phrase
  | .leaf _ .empty => .omitted
  | .leaf l a => mark l.debug false (.leaf l.text a)
  | .unary l suffix e =>
    mark l.debug true
      (if suffix then .suffix l.text (groupIf (suffixedNeedsParens e) (phrase e))
       else .sign l.text (groupIf (signedNeedsParens e) (phrase e)))
  | .binary l a b =>
    mark l.debug true
      (attach l.text (groupIf (leftNeedsParens l.text a) (phrase a))
        (groupIf (rightNeedsParens l.text b) (phrase b)))
  | .call l as => mark l.debug false (.call l.text (phrases as))
  | .array l rs => mark l.debug false (.array (phraseRows rs))

def phrases : List Expr → List Phrase
  | [] => []
  | e :: es => phrase e :: phrases es

def phraseRows : List (List Expr) → List (List Phrase)
  | [] => []
  | r :: rs => phrases r :: phraseRows rs

end

theorem phrases_eq_map (es : List Expr) : phrases es = es.map phrase := by
  induction es with
  | nil => rfl
  | cons e es ih => rw [phrases, ih, List.map_cons]

theorem phraseRows_eq_map (rs : List (List Expr)) : phraseRows rs = rs.map (List.map phrase) := by
  induction rs with
  | nil => rfl
  | cons r rs ih => rw [phraseRows, ih, phrases_eq_map, List.map_cons]

theorem phrase_leaf {a : Atom} (h : a ≠ .empty) (l : Label) :
    phrase (.leaf l a) = mark l.debug false (.leaf l.text a) := by
  cases a with
  | empty => exact absurd rfl h
  | _ => rw [phrase]; nofun

/-! ### The text of the phrase -/

theorem letters_leaf (l : Label) (a : Atom) :
    (Phrase.leaf l.text a).letters = (atomText l.text a).toList := by
  simp [Phrase.letters, Phrase.yield, Terminal.atom, Terminal.written, Label.bare]

/-- The phrase of a tree spells its text. -/
theorem letters_phrase {e : Expr} {V : Vocabulary} (h : e.WellFormed V) :
    (phrase e).letters = (toFormula e).toList := by
  induction e with
  | leaf l a =>
    rw [toFormula]
    by_cases ha : a = .empty
    · subst a
      obtain ⟨hdebug, -⟩ := (wellFormed_leaf _ _).mp h
      rw [hdebug]
      rfl
    · rw [phrase_leaf ha]
      exact Phrase.letters_mark _ _ (letters_leaf l a)
  | unary l suffix e ih =>
    have he := ih ((wellFormed_unary _ _ _).mp h).2
    rw [toFormula, phrase]
    refine Phrase.letters_mark _ _ ?_
    cases suffix with
    | true =>
      rw [if_pos rfl, if_pos rfl, Phrase.letters_suffix, Phrase.letters_groupIf _ he,
        String.toList_append]
    | false =>
      rw [if_neg (by decide), if_neg (by decide), Phrase.letters_sign, Phrase.letters_groupIf _ he,
        String.toList_append]
  | binary l a b iha ihb =>
    obtain ⟨-, ha, hb⟩ := (wellFormed_binary _ _ _).mp h
    rw [toFormula, phrase]
    refine Phrase.letters_mark _ _ ?_
    rw [Phrase.letters_attach, Phrase.letters_groupIf _ (iha ha), Phrase.letters_groupIf _ (ihb hb),
      String.toList_append, String.toList_append, List.append_assoc]
  | call l as ih =>
    obtain ⟨-, has⟩ := (wellFormed_call _ _).mp h
    have hmap : (as.map phrase).map Phrase.letters = (formulas as).map String.toList := by
      rw [formulas_eq_map, List.map_map, List.map_map]
      exact List.map_congr_left fun e he => ih e he (has e he)
    rw [toFormula, phrase, phrases_eq_map]
    refine Phrase.letters_mark _ _ ?_
    rw [Phrase.letters_call, hmap]
    simp [String.toList_intercalate]
  | array l rs ih =>
    obtain ⟨-, hrs⟩ := (wellFormed_array _ _).mp h
    have hmap : ((rs.map (List.map phrase)).map fun r => [','].intercalate (r.map Phrase.letters)) =
        (rowFormulas rs).map String.toList := by
      rw [rowFormulas_eq_map, List.map_map, List.map_map]
      refine List.map_congr_left fun r hr => ?_
      have hrow : (r.map phrase).map Phrase.letters = (r.map toFormula).map String.toList := by
        rw [List.map_map, List.map_map]
        exact List.map_congr_left fun e he => ih r hr e he (hrs r hr e he)
      rw [Function.comp_apply, Function.comp_apply, hrow, String.toList_intercalate]
      rfl
    rw [toFormula, phrase, phraseRows_eq_map]
    refine Phrase.letters_mark _ _ ?_
    rw [Phrase.letters_array, hmap]
    simp [String.toList_intercalate]

/-! ### The phrase is proper -/

variable {e : Expr} {V : Vocabulary}

theorem rootOperator_phrase {p : String → Prop}
    (h : ∀ l a b, e = .binary l a b → l.debug = false →
      ∀ op, Operator.priority op = Operator.priority l.text → p op) :
    (phrase e).RootOperator p := by
  cases e with
  | leaf l a =>
    by_cases ha : a = .empty
    · subst a
      trivial
    · rw [phrase_leaf ha, mark]
      split <;> trivial
  | unary l suffix e =>
    rw [phrase, mark]
    split
    · trivial
    · split <;> trivial
  | binary l a b =>
    rw [phrase, mark]
    split
    · trivial
    · rename_i hdebug
      exact Phrase.rootOperator_attach _ _ _ (h l a b rfl (by simpa using hdebug))
  | call l as =>
    rw [phrase, mark]
    split <;> trivial
  | array l rs =>
    rw [phrase, mark]
    split <;> trivial

/-! What is written without parentheses binds tightly enough. -/

theorem signPriority_lt {l : Label} {a b : Expr}
    (h : signedNeedsParens (.binary l a b) = false) (hdebug : l.debug = false) :
    Operator.signPriority < Operator.priority l.text := by
  simpa [signedNeedsParens, hdebug] using h

theorem priority_le_of_right {op : String} {l : Label} {a b : Expr}
    (h : rightNeedsParens op (.binary l a b) = false) (hdebug : l.debug = false) :
    Operator.priority op ≤ Operator.priority l.text := by
  simp only [rightNeedsParens, hdebug, Bool.not_false, Bool.true_and, Bool.or_eq_false_iff,
    decide_eq_false_iff_not] at h
  exact Nat.le_of_not_lt h.1

theorem priority_le_of_left {op : String} {l : Label} {a b : Expr}
    (h : leftNeedsParens op (.binary l a b) = false) (hdebug : l.debug = false) :
    Operator.priority op ≤ Operator.priority l.text := by
  simp only [leftNeedsParens, debug, label, hdebug, kind, isSigned, priority, Bool.not_false,
    Bool.true_and, beq_self_eq_true, Bool.true_or, Bool.or_eq_false_iff] at h
  exact Nat.le_of_not_lt (of_decide_eq_false h.1)

/-- An operator that is no tighter than a sign, or does not come after one, ends all the operations that
the text of the tree ends in. -/
theorem endsBefore_phrase {next : Nat} (hnext : next ≤ Operator.atomPriority)
    (hsign : next ≤ Operator.signPriority ∨ endsInSign e = false)
    (hroot : ∀ l a b, e = .binary l a b → l.debug = false → next ≤ Operator.priority l.text) :
    (phrase e).EndsBefore next := by
  induction e with
  | leaf l a =>
    by_cases ha : a = .empty
    · subst a
      trivial
    · rw [phrase_leaf ha]
      exact Phrase.endsBefore_mark hnext fun _ => trivial
  | unary l suffix e ih =>
    rw [phrase]
    refine Phrase.endsBefore_mark hnext fun hdebug => ?_
    have hdebug : l.debug = false := by simpa using hdebug
    cases suffix with
    | true => trivial
    | false =>
      have hle : next ≤ Operator.signPriority := by simpa [endsInSign, hdebug] using hsign
      refine ⟨hle, Phrase.endsBefore_groupIf fun hneeds => ih (.inl hle) ?_⟩
      rintro m a b rfl hm
      exact Nat.le_trans hle (Nat.le_of_lt (signPriority_lt hneeds hm))
  | binary l a b iha ihb =>
    rw [phrase]
    refine Phrase.endsBefore_mark hnext fun hdebug => ?_
    have hdebug : l.debug = false := by simpa using hdebug
    have hop := hroot l a b rfl hdebug
    refine (Phrase.endsBefore_attach ..).mpr
      ⟨hop, Phrase.endsBefore_groupIf fun hneeds => ihb ?_ ?_⟩
    · simpa [endsInSign, hdebug, hneeds] using hsign
    · rintro m x y rfl hm
      exact Nat.le_trans hop (priority_le_of_right hneeds hm)
  | call l as ih =>
    rw [phrase]
    exact Phrase.endsBefore_mark hnext fun _ => trivial
  | array l rs ih =>
    rw [phrase]
    exact Phrase.endsBefore_mark hnext fun _ => trivial

theorem suffixedNeedsParens_of_endsInSign (h : endsInSign e = true) :
    suffixedNeedsParens e = true := by
  cases e with
  | unary l suffix e => simp_all [suffixedNeedsParens, endsInSign, debug, label, isSigned]
  | binary l a b => simp_all [suffixedNeedsParens, endsInSign, debug, label, kind]
  | _ => cases h

/-- A left operand that stands without parentheses before an operator tighter than a sign ends in no
sign. -/
theorem endsInSign_of_left {op : String} (hneeds : leftNeedsParens op e = false)
    (htight : Operator.signPriority < Operator.priority op) : endsInSign e = false := by
  by_contra hends
  have hends : endsInSign e = true := by simpa using hends
  have hoperation := suffixedNeedsParens_of_endsInSign hends
  rw [suffixedNeedsParens] at hoperation
  simp [leftNeedsParens, hoperation, htight, hends] at hneeds

/-- An operator takes the whole of its left operand. -/
theorem endsBefore_left (op : String) (hbinary : Operator.isSuffix op = false) (a : Expr) :
    (groupIf (leftNeedsParens op a) (phrase a)).EndsBefore (Operator.priority op) := by
  have hatom : Operator.priority op ≤ Operator.atomPriority :=
    Nat.le_trans (Nat.le_of_lt (Operator.priority_lt hbinary)) (by decide)
  refine Phrase.endsBefore_groupIf fun hneeds => endsBefore_phrase hatom ?_ fun l x y ha hdebug =>
    priority_le_of_left (ha ▸ hneeds) hdebug
  rcases Nat.lt_or_ge Operator.signPriority (Operator.priority op) with htight | hloose
  · exact .inr (endsInSign_of_left hneeds htight)
  · exact .inl hloose

theorem endsBefore_suffixed (e : Expr) :
    (groupIf (suffixedNeedsParens e) (phrase e)).EndsBefore (Operator.priority "%") := by
  refine Phrase.endsBefore_groupIf fun hneeds =>
    endsBefore_phrase (by decide) (.inr ?_) fun l a b he hdebug => ?_
  · by_contra hends
    rw [suffixedNeedsParens_of_endsInSign (by simpa using hends)] at hneeds
    cases hneeds
  · simp_all [suffixedNeedsParens, debug, label, kind]

theorem phrase_of_isOmitted (h : e.isOmitted = true) : phrase e = .omitted := by
  unfold isOmitted at h
  split at h
  · rw [phrase]
  · cases h

/-- The text of a tree that the grammar builds spells a proper phrase. -/
theorem proper_phrase (h : e.WellFormed V) (homitted : e.isOmitted = false) :
    (phrase e).Proper := by
  induction e with
  | leaf l a =>
    have ha : a ≠ .empty := by
      rintro rfl
      cases homitted
    rw [phrase_leaf ha]
    exact Phrase.Proper.mark (.leaf l.text a) (fun _ => trivial) l.debug
  | unary l suffix e ih =>
    obtain ⟨⟨hop, hoperand⟩, he⟩ := (wellFormed_unary l suffix e).mp h
    have hproper := ih he hoperand
    rw [phrase]
    refine Phrase.Proper.mark ?_ (fun h => absurd h (by decide)) l.debug
    cases suffix with
    | true =>
      obtain hpercent : l.text = "%" := by simpa [Operator.isSuffix] using hop
      exact .suffix hop (hproper.groupIf _) (hpercent ▸ endsBefore_suffixed e)
    | false =>
      refine .sign hop (hproper.groupIf _) ((hproper.groupIf _).staysAbove (by decide) ?_)
      refine Phrase.rootOperator_groupIf fun hneeds => rootOperator_phrase ?_
      rintro m a b rfl hm op hpriority
      rw [hpriority]
      exact signPriority_lt hneeds hm
  | binary l a b iha ihb =>
    obtain ⟨⟨hbinds, hbinary, hleft, hright⟩, ha, hb⟩ := (wellFormed_binary l a b).mp h
    rw [phrase]
    refine Phrase.Proper.mark ?_ (fun h => absurd h (by decide)) l.debug
    refine Phrase.Proper.attach ((iha ha hleft).groupIf _) ((ihb hb hright).groupIf _) hbinds hbinary
      (endsBefore_left l.text hbinary a) ?_
    refine Phrase.rootOperator_groupIf fun hneeds => rootOperator_phrase ?_
    rintro m x y rfl hm op hpriority
    rw [hpriority]
    exact priority_le_of_right hneeds hm
  | call l as ih =>
    obtain ⟨⟨-, hsingle⟩, has⟩ := (wellFormed_call l as).mp h
    rw [phrase, phrases_eq_map]
    refine Phrase.Proper.mark (.call ?_ ?_) (fun _ => trivial) l.debug
    · intro d hd hne
      obtain ⟨e, he, rfl⟩ := List.mem_map.mp hd
      refine ih e he (has e he) (Bool.eq_false_iff.mpr fun homitted => hne ?_)
      exact phrase_of_isOmitted homitted
    · intro hmap
      obtain ⟨e, rfl, he⟩ := List.map_eq_singleton_iff.mp hmap
      have hproper := ih e (by simp) (has e (by simp)) (hsingle e rfl)
      rw [he] at hproper
      cases hproper
  | array l rs ih =>
    obtain ⟨⟨-, hsome, hrows⟩, hrs⟩ := (wellFormed_array l rs).mp h
    rw [phrase, phraseRows_eq_map]
    refine Phrase.Proper.mark (.array ?_ ?_ ?_) (fun _ => trivial) l.debug
    · simpa using hsome
    · intro r' hr'
      obtain ⟨r, hr, rfl⟩ := List.mem_map.mp hr'
      simpa using (hrows r hr).1
    · intro r' hr' d hd
      obtain ⟨r, hr, rfl⟩ := List.mem_map.mp hr'
      obtain ⟨e, he, rfl⟩ := List.mem_map.mp hd
      exact ih r hr e he (hrs r hr e he) ((hrows r hr).2 e he)

/-! ### The tree of the phrase -/

theorem rightNeedsParens_of_continues {op : String} {r : Expr} (h : continues op r = true) :
    rightNeedsParens op r = false := by
  cases r with
  | binary l b c => simp_all [continues, rightNeedsParens]
  | _ => rfl

/-- A right operand that does not go on with the chain is written apart from it. -/
theorem rootOperator_right {op : String} {r : Expr} (h : continues op r = false) :
    (groupIf (rightNeedsParens op r) (phrase r)).RootOperator fun op' =>
      Operator.priority op' ≠ Operator.priority op := by
  refine Phrase.rootOperator_groupIf fun hneeds => rootOperator_phrase ?_
  rintro l b c rfl hdebug op' hpriority heq
  rw [heq] at hpriority
  simp_all [continues, rightNeedsParens]

/-- The first operand of a right operand that goes on with the chain. -/
theorem rightNeedsParens_first {op : String} {l : Label} {b c : Expr}
    (h : continues op (.binary l b c) = true) (hneeds : leftNeedsParens l.text b = false) :
    rightNeedsParens op b = false := by
  cases b with
  | binary m x y =>
    simp only [continues, Bool.and_eq_true, beq_iff_eq] at h
    cases hdebug : m.debug with
    | true => simp [rightNeedsParens, hdebug]
    | false =>
      have hle := priority_le_of_left hneeds hdebug
      rw [h.1.2] at hle
      simp [rightNeedsParens, hdebug, h.2, hle]
  | _ => rfl

/-- A mark shows in the label of the tree. -/
theorem tree_mark_of_label {l : Label} {d : Phrase} (h : d.tree.label = .bare l.text)
    (operation : Bool) : (mark l.debug operation d).tree = d.tree.withLabel l.unplaced := by
  obtain ⟨text, debug, place⟩ := l
  rw [Phrase.tree_mark]
  cases debug with
  | false =>
    change d.tree = d.tree.withLabel (.bare text)
    rw [← h]
    cases d.tree <;> rfl
  | true => simp [marked, span, h, Label.bare, Label.unplaced]

theorem tree_phrase_leaf {l : Label} {atom : Atom} (h : (leaf l atom).WellFormed V) :
    (phrase (.leaf l atom)).tree = (reassociate (.leaf l atom)).unplaced := by
  rw [reassociate, unplaced_leaf]
  by_cases hatom : atom = .empty
  · subst hatom
    obtain ⟨hdebug, htext⟩ := (wellFormed_leaf _ _).mp h
    rw [phrase, Phrase.tree, Label.unplaced, hdebug, htext]
    rfl
  · rw [phrase_leaf hatom, tree_mark_of_label rfl, Phrase.tree]
    rfl

theorem tree_phrase_unary {l : Label} {suffix : Bool} {e : Expr}
    (he : (phrase e).tree = e.reassociate.unplaced) :
    (phrase (.unary l suffix e)).tree = (reassociate (.unary l suffix e)).unplaced := by
  rw [reassociate, unplaced_unary, phrase]
  cases suffix with
  | false =>
    rw [tree_mark_of_label rfl, if_neg Bool.false_ne_true, Phrase.tree, Phrase.tree_groupIf, he]
    rfl
  | true =>
    rw [tree_mark_of_label rfl, if_pos rfl, Phrase.tree, Phrase.tree_groupIf, he]
    rfl

theorem tree_phrase_call {l : Label} {as : List Expr}
    (has : ∀ e ∈ as, (phrase e).tree = e.reassociate.unplaced) :
    (phrase (.call l as)).tree = (reassociate (.call l as)).unplaced := by
  have hmap : (as.map phrase).map Phrase.tree = (as.map reassociate).map unplaced := by
    rw [List.map_map, List.map_map]
    exact List.map_congr_left has
  rw [reassociate, unplaced_call, phrase, tree_mark_of_label rfl, Phrase.tree, Phrase.trees_eq_map,
    phrases_eq_map, hmap, reassociateList_eq_map]
  rfl

theorem tree_phrase_array {l : Label} {rs : List (List Expr)} (htext : l.text = "")
    (hrs : ∀ r ∈ rs, ∀ e ∈ r, (phrase e).tree = e.reassociate.unplaced) :
    (phrase (.array l rs)).tree = (reassociate (.array l rs)).unplaced := by
  have hmap : (rs.map (List.map phrase)).map (List.map Phrase.tree) =
      (rs.map (List.map reassociate)).map (List.map unplaced) := by
    rw [List.map_map, List.map_map]
    refine List.map_congr_left fun r hr => ?_
    rw [Function.comp_apply, Function.comp_apply, List.map_map, List.map_map]
    exact List.map_congr_left (hrs r hr)
  rw [reassociate, unplaced_array, phrase, tree_mark_of_label (by rw [htext]; rfl), Phrase.tree,
    Phrase.treeRows_eq_map, phraseRows_eq_map, hmap, reassociateRows_eq_map]
  rfl

theorem tree_attach_alone {l : Label} {a r : Expr} {d : Phrase} (h : continues l.text r = false)
    (hr : (phrase r).tree = r.reassociate.unplaced) (ha : d.tree = a.unplaced) :
    (mark l.debug true (attach l.text d (groupIf (rightNeedsParens l.text r) (phrase r)))).tree =
      (regroup l a r r.reassociate).unplaced := by
  rw [regroup_of_not_continues h, unplaced_binary, Phrase.attach_alone (rootOperator_right h),
    tree_mark_of_label rfl, Phrase.tree, Phrase.tree_groupIf, hr, ha]
  rfl

/-- The text of a tree spells the phrase of the regrouped tree. -/
theorem tree_phrase_and_attach {r : Expr} (h : r.WellFormed V) :
    (phrase r).tree = r.reassociate.unplaced ∧
      ∀ (l : Label) (a : Expr) (d : Phrase), d.tree = a.unplaced →
        (mark l.debug true
          (attach l.text d (groupIf (rightNeedsParens l.text r) (phrase r)))).tree =
          (regroup l a r r.reassociate).unplaced := by
  induction r with
  | leaf l' atom =>
    have hwhole := tree_phrase_leaf h
    exact ⟨hwhole, fun l a d ha => tree_attach_alone rfl hwhole ha⟩
  | unary l' suffix e ih =>
    have hwhole := @tree_phrase_unary l' suffix e (ih ((wellFormed_unary _ _ _).mp h).2).1
    exact ⟨hwhole, fun l a d ha => tree_attach_alone rfl hwhole ha⟩
  | binary l' b c ihb ihc =>
    obtain ⟨-, hb, hc⟩ := (wellFormed_binary _ _ _).mp h
    obtain ⟨hfirst, ihb⟩ := ihb hb
    obtain ⟨-, ihc⟩ := ihc hc
    have hwhole : (phrase (.binary l' b c)).tree = (reassociate (.binary l' b c)).unplaced := by
      rw [reassociate, phrase]
      exact ihc l' b.reassociate _ (by rw [Phrase.tree_groupIf, hfirst])
    refine ⟨hwhole, fun l a d ha => ?_⟩
    by_cases hchain : continues l.text (.binary l' b c) = true
    · -- the chain goes on in the right operand: first its own first operand joins what stands before it
      have hmark : l'.debug = false := (continues_binary.mp hchain).1
      have hpriority := (continues_binary.mp hchain).2.1
      have hinner : (attach l.text d (groupIf (leftNeedsParens l'.text b) (phrase b))).tree =
          Expr.unplaced (if leftNeedsParens l'.text b then
            .binary { l with debug := false } a (reassociate b)
            else regroup { l with debug := false } a b (reassociate b)) := by
        split
        · rename_i hneeds
          have hgroup : attach l.text d (groupIf true (phrase b)) =
              .operation l.text d (.group (phrase b)) :=
            Phrase.attach_alone (r := .group (phrase b)) trivial d
          rw [hneeds, hgroup, Phrase.tree, Phrase.tree, hfirst, ha, unplaced_binary]
          rfl
        · rename_i hneeds
          have hneeds : leftNeedsParens l'.text b = false := by simpa using hneeds
          have hbare := ihb { l with debug := false } a d ha
          rw [rightNeedsParens_first hchain hneeds] at hbare
          rw [hneeds]
          exact hbare
      have hphrase : phrase (.binary l' b c) =
          attach l'.text (groupIf (leftNeedsParens l'.text b) (phrase b))
            (groupIf (rightNeedsParens l'.text c) (phrase c)) := by
        rw [phrase, hmark]
        rfl
      rw [regroup_of_continues hchain, ← ihc { l' with debug := l.debug } _ _ hinner,
        rightNeedsParens_of_continues hchain, hphrase, groupIf, if_neg (by decide),
        Phrase.attach_attach hpriority]
    · exact tree_attach_alone (by simpa using hchain) hwhole ha
  | call l' as ih =>
    obtain ⟨-, has⟩ := (wellFormed_call _ _).mp h
    have hwhole := tree_phrase_call (l := l') fun e he => (ih e he (has e he)).1
    exact ⟨hwhole, fun l a d ha => tree_attach_alone rfl hwhole ha⟩
  | array l' rs ih =>
    obtain ⟨⟨htext, -⟩, hrs⟩ := (wellFormed_array _ _).mp h
    have hwhole := tree_phrase_array htext fun r hr e he => (ih r hr e he (hrs r hr e he)).1
    exact ⟨hwhole, fun l a d ha => tree_attach_alone rfl hwhole ha⟩

end Expr

end SheetFormula
