import SheetFormula.Proofs.Bracketing
import SheetFormula.Proofs.Resaving

/-!
Phrases with one pair of parentheses less. What is left of a proper phrase has the same tree, and its
terminals can still follow each other. But the phrase of a tree's text is not proper without the
parentheses around an operand: an operator before or after the operand, or a sign that it ends in, takes
other operands.
-/

set_option autoImplicit false

namespace SheetFormula

/-! ### One pair less -/

namespace Phrase

variable {d z a b r : Phrase} {op : String}

/-- One pair of parentheses around an operand of an operation is left out. -/
inductive Ungroups : Phrase → Phrase → Prop
  | sign (op : String) (d : Phrase) : Ungroups (.sign op (.group d)) (.sign op d)
  | suffix (op : String) (d : Phrase) : Ungroups (.suffix op (.group d)) (.suffix op d)
  | left (op : String) (a b : Phrase) : Ungroups (.operation op (.group a) b) (.operation op a b)
  | right (op : String) (a b : Phrase) : Ungroups (.operation op a (.group b)) (.operation op a b)
  | inGroup {d z : Phrase} (inner : Ungroups d z) : Ungroups (.group d) (.group z)
  | inMarked {d z : Phrase} (operand : Ungroups d z) : Ungroups (.marked d) (.marked z)
  | inSign (op : String) {d z : Phrase} (operand : Ungroups d z) : Ungroups (.sign op d) (.sign op z)
  | inSuffix (op : String) {d z : Phrase} (operand : Ungroups d z) :
    Ungroups (.suffix op d) (.suffix op z)
  | inLeft (op : String) {a z : Phrase} (b : Phrase) (left : Ungroups a z) :
    Ungroups (.operation op a b) (.operation op z b)
  | inRight (op : String) (a : Phrase) {b z : Phrase} (right : Ungroups b z) :
    Ungroups (.operation op a b) (.operation op a z)
  | inCall (function : String) (before after : List Phrase) {a z : Phrase} (argument : Ungroups a z) :
    Ungroups (.call function (before ++ a :: after)) (.call function (before ++ z :: after))
  | inArray (above below : List (List Phrase)) (before after : List Phrase) {c z : Phrase}
    (cell : Ungroups c z) :
    Ungroups (.array (above ++ (before ++ c :: after) :: below))
      (.array (above ++ (before ++ z :: after) :: below))

theorem Ungroups.tree_eq (h : Ungroups d z) : z.tree = d.tree := by
  induction h with
  | inCall function before after argument ih => simp [tree, trees_eq_map, ih]
  | inArray above below before after cell ih => simp [tree, treeRows_eq_map, ih]
  | _ => simp_all [tree]

theorem Ungroups.ne_omitted (h : Ungroups d z) : z ≠ .omitted := by
  rintro rfl
  cases h

theorem Ungroups.trails (h : Ungroups d z) (htrails : z.Trails) : d.Trails := by
  cases h <;> exact htrails

theorem Ungroups.tightMarks (h : Ungroups d z) (hd : d.TightMarks) : z.TightMarks := by
  induction h with
  | sign op d =>
    cases hd with
    | sign _ operand => cases operand with
      | group inner => exact .sign op inner
  | suffix op d =>
    cases hd with
    | suffix _ operand => cases operand with
      | group inner => exact .suffix op inner
  | left op a b =>
    cases hd with
    | operation _ left right => cases left with
      | group inner => exact .operation op inner right
  | right op a b =>
    cases hd with
    | operation _ left right => cases right with
      | group inner => exact .operation op left inner
  | inGroup _ ih =>
    cases hd with
    | group inner => exact .group (ih inner)
  | inMarked hoperand ih =>
    cases hd with
    | marked operand tight => exact .marked (ih operand) fun htrails => tight (hoperand.trails htrails)
  | inSign op _ ih =>
    cases hd with
    | sign _ operand => exact .sign op (ih operand)
  | inSuffix op _ ih =>
    cases hd with
    | suffix _ operand => exact .suffix op (ih operand)
  | inLeft op b _ ih =>
    cases hd with
    | operation _ left right => exact .operation op (ih left) right
  | inRight op a _ ih =>
    cases hd with
    | operation _ left right => exact .operation op left (ih right)
  | inCall function before after _ ih =>
    cases hd with
    | call _ arguments =>
      simp only [List.forall_mem_append, List.forall_mem_cons] at arguments
      refine .call function ?_
      simp only [List.forall_mem_append, List.forall_mem_cons]
      exact ⟨arguments.1, ih arguments.2.1, arguments.2.2⟩
  | inArray above below before after _ ih =>
    cases hd with
    | array cells =>
      simp only [List.forall_mem_append, List.forall_mem_cons] at cells
      refine .array ?_
      simp only [List.forall_mem_append, List.forall_mem_cons]
      exact ⟨cells.1, ⟨cells.2.1.1, ih cells.2.1.2.1, cells.2.1.2.2⟩, cells.2.2⟩

/-- A list between others, with a separator, is what stands before it, the list and what stands after. -/
theorem exists_intercalate {α : Type} (s : α) (before after : List (List α)) :
    ∃ front back, ∀ l, [s].intercalate (before ++ l :: after) = front ++ (l ++ back) := by
  induction before with
  | nil =>
    cases after with
    | nil => exact ⟨[], [], fun l => by simp⟩
    | cons m after =>
      exact ⟨[], s :: [s].intercalate (m :: after), fun l => by simp [List.intercalate_cons_cons]⟩
  | cons m before ih =>
    obtain ⟨front, back, h⟩ := ih
    refine ⟨m ++ s :: front, back, fun l => ?_⟩
    have hcons : [s].intercalate (m :: (before ++ l :: after)) =
        m ++ s :: [s].intercalate (before ++ l :: after) := by
      cases before <;> simp [List.intercalate_cons_cons]
    rw [List.cons_append, hcons, h, List.append_assoc, List.cons_append]

theorem exists_yield_call (function : String) (before after : List Phrase) :
    ∃ front back, ∀ a, (Phrase.call function (before ++ a :: after)).yield = front ++ (a.yield ++ back) := by
  obtain ⟨front, back, h⟩ := exists_intercalate Terminal.comma (before.map yield) (after.map yield)
  refine ⟨⟨.callStart, function, 0⟩ :: front, back ++ [.closing], fun a => ?_⟩
  rw [yield, yields_eq_map, List.map_append, List.map_cons, h]
  simp

theorem exists_yield_array (above below : List (List Phrase)) (before after : List Phrase) :
    ∃ front back, ∀ c, (Phrase.array (above ++ (before ++ c :: after) :: below)).yield =
      front ++ (c.yield ++ back) := by
  let row (r : List Phrase) := [Terminal.comma].intercalate (r.map yield)
  obtain ⟨front, back, h⟩ := exists_intercalate Terminal.comma (before.map yield) (after.map yield)
  obtain ⟨top, bottom, h'⟩ := exists_intercalate Terminal.semicolon (above.map row) (below.map row)
  refine ⟨.openingBrace :: (top ++ front), back ++ (bottom ++ [.closingBrace]), fun c => ?_⟩
  rw [yield, yieldRows_eq_map, List.map_append, List.map_cons, h', List.map_append, List.map_cons, h]
  simp

/-- The second list is the first without two parentheses, which stand around a proper phrase. -/
def Slims (ts us : List Terminal) : Prop :=
  ∃ (first : List Terminal) (inner : Phrase) (last : List Terminal), inner.Proper ∧
    ts = first ++ .opening :: (inner.yield ++ .closing :: last) ∧ us = first ++ (inner.yield ++ last)

theorem Slims.around {ts us : List Terminal} (h : Slims ts us) (front back : List Terminal) :
    Slims (front ++ (ts ++ back)) (front ++ (us ++ back)) := by
  obtain ⟨first, inner, last, hinner, rfl, rfl⟩ := h
  exact ⟨front ++ first, inner, last ++ back, hinner, by simp, by simp⟩

/-- The terminals of a proper phrase, without one pair of parentheses. -/
theorem Ungroups.slims (h : Ungroups d z) (hd : d.Proper) : Slims d.yield z.yield := by
  induction h with
  | sign op d =>
    cases hd with
    | sign _ operand _ => cases operand with
      | group inner => exact ⟨[⟨.operator, op, 0⟩], d, [], inner, rfl, by simp [yield]⟩
  | suffix op d =>
    cases hd with
    | suffix _ operand _ => cases operand with
      | group inner => exact ⟨[], d, [⟨.operator, op, 0⟩], inner, by simp [yield], rfl⟩
  | left op a b =>
    cases hd with
    | operation _ _ left _ _ _ => cases left with
      | group inner => exact ⟨[], a, ⟨.operator, op, 0⟩ :: b.yield, inner, by simp [yield], rfl⟩
  | right op a b =>
    cases hd with
    | operation _ _ _ right _ _ => cases right with
      | group inner =>
        exact ⟨a.yield ++ [⟨.operator, op, 0⟩], b, [], inner, by simp [yield], by simp [yield]⟩
  | inGroup _ ih =>
    cases hd with
    | group inner => exact (ih inner).around [.opening] [.closing]
  | inMarked _ ih =>
    cases hd with
    | marked operand _ => simpa [yield] using (ih operand).around [.question] []
  | inSign op _ ih =>
    cases hd with
    | sign _ operand _ => simpa [yield] using (ih operand).around [⟨.operator, op, 0⟩] []
  | inSuffix op _ ih =>
    cases hd with
    | suffix _ operand _ => exact (ih operand).around [] [⟨.operator, op, 0⟩]
  | inLeft op b _ ih =>
    cases hd with
    | operation _ _ left _ _ _ => exact (ih left).around [] (⟨.operator, op, 0⟩ :: b.yield)
  | inRight op a _ ih =>
    cases hd with
    | operation _ _ _ right _ _ =>
      have hslims := (ih right).around (a.yield ++ [⟨.operator, op, 0⟩]) []
      rw [List.append_nil, List.append_nil, List.append_assoc, List.append_assoc] at hslims
      exact hslims
  | inCall function before after hargument ih =>
    cases hd with
    | call arguments _ =>
      obtain ⟨front, back, hyield⟩ := exists_yield_call function before after
      rw [hyield, hyield]
      refine (ih (arguments _ (by simp) ?_)).around front back
      rintro rfl
      cases hargument
  | @inArray above below before after c z _ ih =>
    cases hd with
    | array _ _ cells =>
      obtain ⟨front, back, hyield⟩ := exists_yield_array above below before after
      rw [hyield, hyield]
      exact (ih (cells (before ++ c :: after) (by simp) c (by simp))).around front back

/-- A proper phrase ends where an operand does. -/
theorem Proper.exists_concat (h : d.Proper) : ∃ ts t, d.yield = ts ++ [t] ∧ t.Ends := by
  induction h with
  | leaf text atom => exact ⟨[], _, rfl, trivial⟩
  | @group d inner ih => exact ⟨.opening :: d.yield, .closing, rfl, trivial⟩
  | marked operand above ih =>
    obtain ⟨ts, t, hyield, ht⟩ := ih
    exact ⟨.question :: ts, t, by rw [yield, hyield]; rfl, ht⟩
  | sign sign operand above ih =>
    obtain ⟨ts, t, hyield, ht⟩ := ih
    exact ⟨_ :: ts, t, by rw [yield, hyield]; rfl, ht⟩
  | suffix suffix operand before ih => exact ⟨_, _, rfl, suffix⟩
  | @operation op a b binds binary left right before above ihleft ihright =>
    obtain ⟨ts, t, hyield, ht⟩ := ihright
    exact ⟨a.yield ++ ⟨.operator, op, 0⟩ :: ts, t, by rw [yield, hyield]; simp, ht⟩
  | call arguments single ih => exact ⟨_ :: _, .closing, rfl, trivial⟩
  | array some rows cells ih => exact ⟨_ :: _, .closingBrace, rfl, trivial⟩

/-- Terminals that can follow each other still can without the pair. -/
theorem Slims.isChain {ts us : List Terminal} (h : Slims ts us)
    (hchain : ts.IsChain Terminal.Adjacent) : us.IsChain Terminal.Adjacent := by
  obtain ⟨first, inner, last, hinner, rfl, rfl⟩ := h
  obtain ⟨hinnerChain, hbegins⟩ := hinner.isChain_yield
  obtain ⟨hfirst, hopening, hjoin⟩ := List.isChain_append.mp hchain
  obtain ⟨-, hclosing, -⟩ := List.isChain_append.mp (List.isChain_cons.mp hopening).2
  obtain ⟨hafter, hlast⟩ := List.isChain_cons.mp hclosing
  refine List.isChain_append.mpr ⟨hfirst, List.isChain_append.mpr ⟨hinnerChain, hlast, ?_⟩, ?_⟩
  · intro t ht u hu
    obtain ⟨vs, v, hyield, hends⟩ := hinner.exists_concat
    obtain rfl : v = t := by simpa [hyield] using ht
    exact ⟨fun _ => (hafter u hu).1 trivial, fun hnot => absurd hends hnot⟩
  · intro t ht u hu
    obtain ⟨v, vs, hyield, -⟩ := hinner.exists_cons
    have hnot : ¬ t.Ends := fun hends => ((hjoin t ht .opening rfl).1 hends).elim
    rw [hyield, List.cons_append] at hu
    refine ⟨fun hends => absurd hends hnot, fun _ => hbegins u ?_⟩
    rwa [hyield]

theorem Slims.mem {ts us : List Terminal} {t : Terminal} (h : Slims ts us) (ht : t ∈ us) : t ∈ ts := by
  obtain ⟨first, inner, last, -, rfl, rfl⟩ := h
  simp only [List.mem_append, List.mem_cons] at ht ⊢
  tauto

theorem Slims.begins {ts us : List Terminal} (h : Slims ts us) (hbegins : ∀ t ∈ ts.head?, t.Begins) :
    ∀ t ∈ us.head?, t.Begins := by
  obtain ⟨first, inner, last, hinner, rfl, rfl⟩ := h
  cases first with
  | nil =>
    obtain ⟨v, vs, hyield, -⟩ := hinner.exists_cons
    have hinnerBegins := hinner.isChain_yield.2
    rw [hyield] at hinnerBegins
    rw [List.nil_append, hyield]
    exact hinnerBegins
  | cons v first => exact hbegins

/-! ### Chains -/

theorem ungroups_attach_left (h : Ungroups d z ∨ d = .group z) (op : String) (r : Phrase) :
    Ungroups (attach op d r) (attach op z r) := by
  induction r using chainInduction op with
  | alone r hr =>
    rw [attach_alone hr, attach_alone hr]
    obtain h | rfl := h
    · exact .inLeft op r h
    · exact .left op z r
  | chain op' b c hpriority ih =>
    rw [attach_chain hpriority, attach_chain hpriority]
    exact .inLeft op' c ih

/-- A pair in the right operand is one of the whole chain. -/
theorem exists_ungroups_attach (op : String) (d : Phrase) (h : Ungroups r z ∨ r = .group z) :
    ∃ y, Ungroups (attach op d r) y ∧ y.yield = d.yield ++ ⟨.operator, op, 0⟩ :: z.yield := by
  induction r using chainInduction op generalizing z with
  | alone r hr =>
    rw [attach_alone hr]
    refine ⟨.operation op d z, ?_, rfl⟩
    obtain h | rfl := h
    · exact .inRight op d h
    · exact .right op d z
  | chain op' b c hpriority ih =>
    rw [attach_chain hpriority]
    obtain h | h := h
    · cases h with
      | left _ b _ =>
        obtain ⟨y, hy, hyield⟩ := ih (.inr rfl)
        exact ⟨.operation op' y c, .inLeft op' c hy, by simp [yield, hyield]⟩
      | right _ _ c =>
        refine ⟨.operation op' (attach op d b) c, .right op' _ c, ?_⟩
        simp [yield, yield_attach]
      | inLeft _ _ hb =>
        obtain ⟨y, hy, hyield⟩ := ih (.inl hb)
        exact ⟨.operation op' y c, .inLeft op' c hy, by simp [yield, hyield]⟩
      | @inRight _ _ _ z hc =>
        refine ⟨.operation op' (attach op d b) z, .inRight op' _ hc, ?_⟩
        simp [yield, yield_attach]
    · cases h

theorem proper_of_attach (h : (attach op d r).Proper) : r.Proper := by
  induction r using chainInduction op with
  | alone r hr =>
    rw [attach_alone hr] at h
    cases h with
    | operation _ _ _ right _ _ => exact right
  | chain op' b c hpriority ih =>
    rw [attach_chain hpriority] at h
    cases h with
    | operation binds binary left right before above =>
      exact .operation binds binary (ih left) right ((endsBefore_attach ..).mp before).2 above

/-- Where a chain is proper without a pair, its first operand or the rest of it is. -/
theorem proper_of_ungroups_attach (h : Ungroups (attach op d r) z) (hz : z.Proper) :
    (∃ x, (Ungroups d x ∨ d = .group x) ∧ x.Proper ∧ x.EndsBefore (Operator.priority op)) ∨
      ∃ x, (Ungroups r x ∨ r = .group x ∧ x.StaysAbove (Operator.priority op)) ∧ x.Proper ∧
        ∀ next, z.EndsBefore next → x.EndsBefore next := by
  induction r using chainInduction op generalizing z with
  | alone r hr =>
    rw [attach_alone hr] at h
    cases h with
    | left _ x _ =>
      cases hz with
      | operation _ _ left _ before _ => exact .inl ⟨x, .inr rfl, left, before⟩
    | right _ _ x =>
      cases hz with
      | operation _ _ _ right _ above => exact .inr ⟨x, .inr ⟨rfl, above⟩, right, fun _ hz => hz.2⟩
    | inLeft _ _ hx =>
      cases hz with
      | operation _ _ left _ before _ => exact .inl ⟨_, .inl hx, left, before⟩
    | inRight _ _ hx =>
      cases hz with
      | operation _ _ _ right _ _ => exact .inr ⟨_, .inl hx, right, fun _ hz => hz.2⟩
  | chain op' b c hpriority ih =>
    rw [attach_chain hpriority] at h
    generalize hfirst : attach op d b = first at h
    cases h with
    | left _ x _ => exact absurd hfirst (attach_ne_group op d b x)
    | right _ _ x =>
      subst hfirst
      cases hz with
      | operation binds binary left right before above =>
        refine .inr ⟨.operation op' b x, .inl (.right op' b x), ?_, fun _ hz => hz⟩
        exact .operation binds binary (proper_of_attach left) right ((endsBefore_attach ..).mp before).2
          above
    | @inLeft _ _ y _ hy =>
      subst hfirst
      cases hz with
      | operation binds binary left right before above =>
        obtain hfirst | ⟨x, hx, hproper, hends⟩ := ih hy left
        · exact .inl hfirst
        · refine .inr ⟨.operation op' x c, .inl ?_, ?_, fun _ hz => hz⟩
          · obtain hx | ⟨rfl, -⟩ := hx
            · exact .inLeft op' c hx
            · exact .left op' x c
          · exact .operation binds binary hproper right (hends _ before) above
    | @inRight _ _ _ x hx =>
      subst hfirst
      cases hz with
      | operation binds binary left right before above =>
        refine .inr ⟨.operation op' b x, .inl (.inRight op' b hx), ?_, fun _ hz => hz⟩
        exact .operation binds binary (proper_of_attach left) right ((endsBefore_attach ..).mp before).2
          above

theorem not_staysAbove_attach {bound : Nat} (h : Operator.priority op ≤ bound) (d r : Phrase) :
    ¬ (attach op d r).StaysAbove bound := by
  induction r using chainInduction op with
  | alone r hr =>
    rw [attach_alone hr]
    exact fun habove => absurd habove.1 (Nat.not_lt.mpr h)
  | chain op' b c hpriority ih =>
    rw [attach_chain hpriority]
    exact fun habove => ih habove.2

theorem Ungroups.of_groupIf {needed : Bool} (h : Ungroups (groupIf needed d) z) (hz : z.Proper) :
    ∃ x, Ungroups d x ∧ x.Proper := by
  cases needed with
  | false => exact ⟨z, h, hz⟩
  | true =>
    cases h with
    | inGroup inner =>
      cases hz with
      | group hinner => exact ⟨_, inner, hinner⟩

/-- The parentheses that a mark brings along are none around an operand. -/
theorem Ungroups.of_mark {debug operation : Bool} (h : Ungroups (mark debug operation d) z)
    (hz : z.Proper) : ∃ x, Ungroups d x ∧ x.Proper := by
  cases debug with
  | false => exact ⟨z, h, hz⟩
  | true =>
    cases h with
    | inMarked operand =>
      cases hz with
      | marked hoperand _ => exact operand.of_groupIf hoperand

theorem needed_of_groupIf_eq {needed : Bool} (h : groupIf needed d = .group z)
    (hd : ∀ x, d ≠ .group x) : needed = true ∧ d = z := by
  cases needed with
  | false => exact absurd h (hd z)
  | true => exact ⟨rfl, Phrase.group.inj h⟩

end Phrase

/-! ### Parentheses that are needed -/

namespace Expr

open Phrase (groupIf mark attach Ungroups)

variable {e : Expr} {V : Vocabulary} {op : String} {z : Phrase}

theorem phrase_of_binary {l : Label} (h : l.debug = false) (a b : Expr) :
    phrase (.binary l a b) = attach l.text (groupIf (leftNeedsParens l.text a) (phrase a))
      (groupIf (rightNeedsParens l.text b) (phrase b)) := by
  rw [phrase_binary, h]
  rfl

theorem phrase_of_signed {l : Label} (h : l.debug = false) (e : Expr) :
    phrase (.unary l false e) = .sign l.text (groupIf (signedNeedsParens e) (phrase e)) := by
  rw [phrase, h]
  rfl

/-- A sign that the text ends in takes a tighter operator after it along. -/
theorem not_endsBefore_of_endsInSign (h : endsInSign e = true) {next : Nat}
    (hnext : Operator.signPriority < next) : ¬ (phrase e).EndsBefore next := by
  induction e with
  | unary l suffix e ih =>
    simp only [endsInSign, Bool.and_eq_true, Bool.not_eq_true'] at h
    obtain ⟨hdebug, rfl⟩ := h
    rw [phrase_of_signed hdebug]
    exact fun hends => absurd hends.1 (Nat.not_le.mpr hnext)
  | binary l a b iha ihb =>
    simp only [endsInSign, Bool.and_eq_true, Bool.not_eq_true'] at h
    obtain ⟨⟨hdebug, hright⟩, hends⟩ := h
    rw [phrase_of_binary hdebug, hright, Phrase.endsBefore_attach]
    exact fun h => ihb hends h.2
  | _ => cases h

/-- What a suffix needs parentheses for is a signed operand or an operation, without a mark. -/
theorem exists_of_suffixedNeedsParens (h : suffixedNeedsParens e = true) :
    (∃ l operand, e = .unary l false operand ∧ l.debug = false) ∨
      ∃ l a b, e = .binary l a b ∧ l.debug = false := by
  simp only [suffixedNeedsParens, Bool.and_eq_true, Bool.or_eq_true, Bool.not_eq_true'] at h
  obtain ⟨hdebug, hkind⟩ := h
  cases e with
  | unary l suffix operand =>
    obtain hkind | hsigned := hkind
    · cases hkind
    · obtain rfl : suffix = false := by simpa [isSigned] using hsigned
      exact .inl ⟨l, operand, rfl, hdebug⟩
  | binary l a b => exact .inr ⟨l, a, b, rfl, hdebug⟩
  | leaf l atom => cases atom <;> simp [kind, isSigned] at hkind
  | _ => simp [kind, isSigned] at hkind

theorem not_endsBefore_left {a : Expr} (h : leftNeedsParens op a = true) :
    ¬ (phrase a).EndsBefore (Operator.priority op) := by
  obtain ⟨hoperation, hreason⟩ := Bool.and_eq_true_iff.mp h
  simp only [Bool.or_eq_true, Bool.and_eq_true, decide_eq_true_eq] at hreason
  obtain hloose | ⟨hsign, hends⟩ := hreason
  · obtain ⟨l, operand, rfl, hdebug⟩ | ⟨l, x, y, rfl, hdebug⟩ := exists_of_suffixedNeedsParens hoperation
    · rw [phrase_of_signed hdebug]
      exact fun h => absurd h.1 (Nat.not_le.mpr hloose)
    · rw [phrase_of_binary hdebug, Phrase.endsBefore_attach]
      exact fun h => absurd h.1 (Nat.not_le.mpr hloose)
  · exact not_endsBefore_of_endsInSign hends hsign

theorem not_endsBefore_suffixed (h : suffixedNeedsParens e = true) (he : e.WellFormed V) :
    ¬ (phrase e).EndsBefore (Operator.priority "%") := by
  obtain ⟨l, operand, rfl, hdebug⟩ | ⟨l, x, y, rfl, hdebug⟩ := exists_of_suffixedNeedsParens h
  · rw [phrase_of_signed hdebug]
    exact fun h => absurd h.1 (by decide)
  · obtain ⟨⟨-, hbinary, -⟩, -⟩ := (wellFormed_binary l x y).mp he
    rw [phrase_of_binary hdebug, Phrase.endsBefore_attach]
    exact fun h => absurd (Operator.priority_lt hbinary) (Nat.not_lt.mpr h.1)

theorem not_staysAbove_right {b : Expr} (h : rightNeedsParens op b = true) :
    ¬ (phrase b).StaysAbove (Operator.priority op) := by
  cases b with
  | binary l x y =>
    simp only [rightNeedsParens, Bool.and_eq_true, Bool.or_eq_true, Bool.not_eq_true', decide_eq_true_eq,
      beq_iff_eq] at h
    obtain ⟨hdebug, hloose⟩ := h
    rw [phrase_of_binary hdebug]
    exact Phrase.not_staysAbove_attach (by omega) _ _
  | _ => cases h

theorem not_staysAbove_signed (h : signedNeedsParens e = true) :
    ¬ (phrase e).StaysAbove Operator.signPriority := by
  cases e with
  | binary l x y =>
    simp only [signedNeedsParens, Bool.and_eq_true, Bool.not_eq_true', decide_eq_true_eq] at h
    obtain ⟨hdebug, hloose⟩ := h
    rw [phrase_of_binary hdebug]
    exact Phrase.not_staysAbove_attach hloose _ _
  | _ => cases h

/-- Without a pair of parentheses around an operand, the phrase of a tree is not proper. -/
theorem not_proper_of_ungroups (he : e.WellFormed V) (h : Ungroups (phrase e) z) : ¬ z.Proper := by
  intro hz
  induction e generalizing z with
  | leaf l a =>
    by_cases ha : a = .empty
    · subst ha
      cases h
    · rw [phrase_leaf ha] at h
      obtain ⟨x, hx, -⟩ := h.of_mark hz
      cases hx
  | unary l suffix e ih =>
    obtain ⟨⟨hop, -⟩, hoperand⟩ := (wellFormed_unary l suffix e).mp he
    rw [phrase] at h
    obtain ⟨x, hx, hproper⟩ := h.of_mark hz
    cases suffix with
    | true =>
      rw [if_pos rfl] at hx
      generalize hgroup : groupIf (suffixedNeedsParens e) (phrase e) = d at hx
      cases hx with
      | suffix _ d =>
        obtain ⟨hneeded, rfl⟩ := Phrase.needed_of_groupIf_eq hgroup (phrase_ne_group e)
        obtain hpercent : l.text = "%" := by simpa [Operator.isSuffix] using hop
        cases hproper with
        | suffix _ _ before => exact not_endsBefore_suffixed hneeded hoperand (hpercent ▸ before)
      | inSuffix _ hd =>
        subst hgroup
        cases hproper with
        | suffix _ operand _ =>
          obtain ⟨y, hy, hproper⟩ := hd.of_groupIf operand
          exact ih hoperand hy hproper
    | false =>
      rw [if_neg (by decide)] at hx
      generalize hgroup : groupIf (signedNeedsParens e) (phrase e) = d at hx
      cases hx with
      | sign _ d =>
        obtain ⟨hneeded, rfl⟩ := Phrase.needed_of_groupIf_eq hgroup (phrase_ne_group e)
        cases hproper with
        | sign _ _ above => exact not_staysAbove_signed hneeded above
      | inSign _ hd =>
        subst hgroup
        cases hproper with
        | sign _ operand _ =>
          obtain ⟨y, hy, hproper⟩ := hd.of_groupIf operand
          exact ih hoperand hy hproper
  | binary l a b iha ihb =>
    obtain ⟨-, ha, hb⟩ := (wellFormed_binary l a b).mp he
    rw [phrase] at h
    obtain ⟨x, hx, hproper⟩ := h.of_mark hz
    obtain ⟨y, hy, hleft, hends⟩ | ⟨y, hy, hright, -⟩ := Phrase.proper_of_ungroups_attach hx hproper
    · obtain hy | hgroup := hy
      · obtain ⟨y, hy, hproper⟩ := hy.of_groupIf hleft
        exact iha ha hy hproper
      · obtain ⟨hneeded, rfl⟩ := Phrase.needed_of_groupIf_eq hgroup (phrase_ne_group a)
        exact not_endsBefore_left hneeded hends
    · obtain hy | ⟨hgroup, habove⟩ := hy
      · obtain ⟨y, hy, hproper⟩ := hy.of_groupIf hright
        exact ihb hb hy hproper
      · obtain ⟨hneeded, rfl⟩ := Phrase.needed_of_groupIf_eq hgroup (phrase_ne_group b)
        exact not_staysAbove_right hneeded habove
  | call l as ih =>
    obtain ⟨-, has⟩ := (wellFormed_call l as).mp he
    rw [phrase, phrases_eq_map] at h
    obtain ⟨x, hx, hproper⟩ := h.of_mark hz
    generalize harguments : as.map phrase = ds at hx
    cases hx with
    | @inCall _ before after d y hd =>
      have hmem : d ∈ as.map phrase := by simp [harguments]
      obtain ⟨e, heas, rfl⟩ := List.mem_map.mp hmem
      cases hproper with
      | call arguments _ => exact ih e heas (has e heas) hd (arguments y (by simp) hd.ne_omitted)
  | array l rs ih =>
    obtain ⟨-, hrs⟩ := (wellFormed_array l rs).mp he
    rw [phrase, phraseRows_eq_map] at h
    obtain ⟨x, hx, hproper⟩ := h.of_mark hz
    generalize hrows : rs.map (List.map phrase) = ds at hx
    cases hx with
    | @inArray above below before after d y hd =>
      have hmem : before ++ d :: after ∈ rs.map (List.map phrase) := by simp [hrows]
      obtain ⟨r, hr, hrow⟩ := List.mem_map.mp hmem
      have hcell : d ∈ r.map phrase := by simp [hrow]
      obtain ⟨e, her, rfl⟩ := List.mem_map.mp hcell
      cases hproper with
      | array _ _ cells =>
        exact ih r hr e her (hrs r hr e her) hd (cells (before ++ y :: after) (by simp) y (by simp))

end Expr

end SheetFormula
