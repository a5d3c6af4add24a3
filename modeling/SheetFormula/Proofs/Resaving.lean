import SheetFormula.Proofs.Roundtrip

/-!
Writing a formula twice. What is written the second time is the text of the regrouped tree, and it need
not be the text of the first time: parentheses that close the first operand of a right operand may be
needed no longer once the chain is regrouped. The two texts agree exactly where no operation has such a
right operand.
-/

set_option autoImplicit false

namespace SheetFormula

namespace Expr

variable {e f g a b c : Expr} {l m : Label} {op : String} {V : Vocabulary}

/-! ### Nodes that the rules on parentheses do not tell apart -/

/-- The rules on parentheses see the same in both trees. -/
structure Resembles (e f : Expr) : Prop where
  kind : e.kind = f.kind
  debug : e.debug = f.debug
  signed : e.isSigned = f.isSigned
  priority : e.priority = f.priority
  ends : e.endsInSign = f.endsInSign

theorem rightNeedsParens_eq (op : String) (e : Expr) :
    rightNeedsParens op e = (e.kind == .binary && (!e.debug &&
      (decide (e.priority < Operator.priority op) ||
        (e.priority == Operator.priority op && !Operator.isAssociative op)))) := by
  cases e with
  | leaf l atom => cases atom <;> rfl
  | _ => rfl

theorem signedNeedsParens_eq (e : Expr) :
    signedNeedsParens e =
      (e.kind == .binary && (!e.debug && decide (e.priority ≤ Operator.signPriority))) := by
  cases e with
  | leaf l atom => cases atom <;> rfl
  | _ => rfl

theorem isOmitted_eq (e : Expr) : e.isOmitted = (e.kind == .empty) := by
  cases e with
  | leaf l atom => cases atom <;> rfl
  | _ => rfl

namespace Resembles

theorem refl (e : Expr) : Resembles e e :=
  ⟨rfl, rfl, rfl, rfl, rfl⟩

theorem trans (h : Resembles e f) (h' : Resembles f g) : Resembles e g where
  kind := h.kind.trans h'.kind
  debug := h.debug.trans h'.debug
  signed := h.signed.trans h'.signed
  priority := h.priority.trans h'.priority
  ends := h.ends.trans h'.ends

theorem left (h : Resembles e f) (op : String) : leftNeedsParens op e = leftNeedsParens op f := by
  rw [leftNeedsParens, leftNeedsParens, h.kind, h.debug, h.signed, h.priority, h.ends]

theorem right (h : Resembles e f) (op : String) : rightNeedsParens op e = rightNeedsParens op f := by
  rw [rightNeedsParens_eq, rightNeedsParens_eq, h.kind, h.debug, h.priority]

theorem operand (h : Resembles e f) : signedNeedsParens e = signedNeedsParens f := by
  rw [signedNeedsParens_eq, signedNeedsParens_eq, h.kind, h.debug, h.priority]

theorem suffixed (h : Resembles e f) : suffixedNeedsParens e = suffixedNeedsParens f := by
  rw [suffixedNeedsParens, suffixedNeedsParens, h.kind, h.debug, h.signed]

theorem omitted (h : Resembles e f) : e.isOmitted = f.isOmitted := by
  rw [isOmitted_eq, isOmitted_eq, h.kind]

theorem unary (l : Label) (suffix : Bool) (e f : Expr) :
    Resembles (.unary l suffix e) (.unary l suffix f) :=
  ⟨rfl, rfl, rfl, rfl, rfl⟩

theorem binary (hdebug : l.debug = m.debug)
    (hpriority : Operator.priority l.text = Operator.priority m.text)
    (hends : endsInSign (.binary l a b) = endsInSign (.binary m e f)) :
    Resembles (.binary l a b) (.binary m e f) :=
  ⟨rfl, hdebug, rfl, hpriority, hends⟩

theorem binary_right (h : Resembles e f) (l : Label) (a b : Expr) :
    Resembles (.binary l a e) (.binary l b f) := by
  refine .binary rfl rfl ?_
  rw [endsInSign, endsInSign, h.right, h.ends]

theorem unplaced (e : Expr) : Resembles e.unplaced e := by
  induction e with
  | leaf l atom =>
    rw [unplaced_leaf]
    cases atom <;> exact ⟨rfl, rfl, rfl, rfl, rfl⟩
  | unary l suffix e ih =>
    rw [unplaced_unary]
    exact ⟨rfl, rfl, rfl, rfl, rfl⟩
  | binary l a b iha ihb =>
    rw [unplaced_binary]
    exact (ihb.binary_right l.unplaced _ a).trans (.binary rfl rfl rfl)
  | call l as ih =>
    rw [unplaced_call]
    exact ⟨rfl, rfl, rfl, rfl, rfl⟩
  | array l rs ih =>
    rw [unplaced_array]
    exact ⟨rfl, rfl, rfl, rfl, rfl⟩

end Resembles

/-- Regrouping a chain does not show from outside. -/
theorem resembles_reassociate_and_regroup (r : Expr) :
    Resembles r.reassociate r ∧ ∀ l a, Resembles (regroup l a r r.reassociate) (.binary l a r) := by
  have halone {r : Expr} (h : Resembles r.reassociate r) (l : Label) (a : Expr)
      (hright : continues l.text r = false) : Resembles (regroup l a r r.reassociate) (.binary l a r) := by
    rw [regroup_of_not_continues hright]
    exact h.binary_right l a a
  induction r with
  | leaf l' atom =>
    have hwhole : Resembles (reassociate (.leaf l' atom)) (.leaf l' atom) := .refl _
    exact ⟨hwhole, fun l a => halone hwhole l a rfl⟩
  | unary l' suffix e ih =>
    have hwhole : Resembles (reassociate (.unary l' suffix e)) (.unary l' suffix e) := by
      rw [reassociate]
      exact .unary l' suffix _ e
    exact ⟨hwhole, fun l a => halone hwhole l a rfl⟩
  | binary l' b c ihb ihc =>
    have hwhole : Resembles (reassociate (.binary l' b c)) (.binary l' b c) := by
      rw [reassociate]
      exact (ihc.2 l' _).trans ((Resembles.refl c).binary_right l' _ b)
    refine ⟨hwhole, fun l a => ?_⟩
    by_cases h : continues l.text (.binary l' b c) = true
    · obtain ⟨hmark, hpriority, -⟩ := continues_binary.mp h
      rw [regroup_of_continues h]
      refine (ihc.2 _ _).trans (.binary rfl hpriority ?_)
      -- the text ends as its last operand does, however the chain is grouped
      rw [endsInSign, endsInSign, endsInSign, rightNeedsParens_of_continues h, hmark]
      simp [Bool.and_assoc]
    · exact halone hwhole l a (by simpa using h)
  | call l' as ih =>
    have hwhole : Resembles (reassociate (.call l' as)) (.call l' as) := by
      rw [reassociate]
      exact ⟨rfl, rfl, rfl, rfl, rfl⟩
    exact ⟨hwhole, fun l a => halone hwhole l a rfl⟩
  | array l' rs ih =>
    have hwhole : Resembles (reassociate (.array l' rs)) (.array l' rs) := by
      rw [reassociate]
      exact ⟨rfl, rfl, rfl, rfl, rfl⟩
    exact ⟨hwhole, fun l a => halone hwhole l a rfl⟩

/-- Regrouping keeps to the grammar. -/
theorem wellFormed_reassociate_and_regroup {r : Expr} (h : r.WellFormed V) :
    r.reassociate.WellFormed V ∧
      ∀ l a, (Expr.binary l a r).WellFormed V → (regroup l a r r.reassociate).WellFormed V := by
  have halone {r : Expr} (h : r.reassociate.WellFormed V) (l : Label) (a : Expr)
      (hright : continues l.text r = false) (hbinary : (Expr.binary l a r).WellFormed V) :
      (regroup l a r r.reassociate).WellFormed V := by
    obtain ⟨⟨hbinds, hsuffix, ha', hr'⟩, ha, -⟩ := (wellFormed_binary _ _ _).mp hbinary
    rw [regroup_of_not_continues hright, wellFormed_binary]
    refine ⟨⟨hbinds, hsuffix, ha', ?_⟩, ha, h⟩
    rw [(resembles_reassociate_and_regroup r).1.omitted, hr']
  induction r with
  | leaf l' atom =>
    have hwhole : (reassociate (.leaf l' atom)).WellFormed V := h
    exact ⟨hwhole, fun l a => halone hwhole l a rfl⟩
  | unary l' suffix e ih =>
    have hwhole : (reassociate (.unary l' suffix e)).WellFormed V := by
      obtain ⟨⟨hop, he'⟩, he⟩ := (wellFormed_unary _ _ _).mp h
      rw [reassociate, wellFormed_unary]
      refine ⟨⟨hop, ?_⟩, (ih he).1⟩
      rw [(resembles_reassociate_and_regroup e).1.omitted, he']
    exact ⟨hwhole, fun l a => halone hwhole l a rfl⟩
  | binary l' b c ihb ihc =>
    obtain ⟨⟨hbinds, hsuffix, hb', hc'⟩, hb, hc⟩ := (wellFormed_binary _ _ _).mp h
    have hwhole : (reassociate (.binary l' b c)).WellFormed V := by
      rw [reassociate]
      refine (ihc hc).2 l' _ ((wellFormed_binary _ _ _).mpr ⟨⟨hbinds, hsuffix, ?_, hc'⟩, ?_, hc⟩)
      · rw [(resembles_reassociate_and_regroup b).1.omitted, hb']
      · exact (ihb hb).1
    refine ⟨hwhole, fun l a hbinary => ?_⟩
    by_cases hchain : continues l.text (.binary l' b c) = true
    · obtain ⟨⟨hbinds', hsuffix', ha', -⟩, ha, -⟩ := (wellFormed_binary _ _ _).mp hbinary
      rw [regroup_of_continues hchain]
      refine (ihc hc).2 _ _ ((wellFormed_binary _ _ _).mpr ⟨⟨hbinds, hsuffix, ?_, hc'⟩, ?_, hc⟩)
      · split
        · rfl
        · exact ((resembles_reassociate_and_regroup b).2 _ a).omitted
      · split
        · refine (wellFormed_binary _ _ _).mpr ⟨⟨hbinds', hsuffix', ha', ?_⟩, ha, (ihb hb).1⟩
          rw [(resembles_reassociate_and_regroup b).1.omitted, hb']
        · exact (ihb hb).2 _ a ((wellFormed_binary _ _ _).mpr ⟨⟨hbinds', hsuffix', ha', hb'⟩, ha, hb⟩)
    · exact halone hwhole l a (by simpa using hchain) hbinary
  | call l' as ih =>
    have hwhole : (reassociate (.call l' as)).WellFormed V := by
      obtain ⟨⟨hfunction, hsingle⟩, has⟩ := (wellFormed_call _ _).mp h
      rw [reassociate, reassociateList_eq_map, wellFormed_call]
      refine ⟨⟨hfunction, fun a hmap => ?_⟩, List.forall_mem_map.mpr fun e he => (ih e he (has e he)).1⟩
      obtain ⟨e, rfl, rfl⟩ := List.map_eq_singleton_iff.mp hmap
      rw [(resembles_reassociate_and_regroup e).1.omitted, hsingle e rfl]
    exact ⟨hwhole, fun l a => halone hwhole l a rfl⟩
  | array l' rs ih =>
    have hwhole : (reassociate (.array l' rs)).WellFormed V := by
      obtain ⟨⟨htext, hsome, hrows⟩, hrs⟩ := (wellFormed_array _ _).mp h
      rw [reassociate, reassociateRows_eq_map, wellFormed_array]
      refine ⟨⟨htext, by simpa using hsome, List.forall_mem_map.mpr fun r hr => ?_⟩,
        List.forall_mem_map.mpr fun r hr => List.forall_mem_map.mpr fun e he =>
          (ih r hr e he (hrs r hr e he)).1⟩
      refine ⟨by simpa using (hrows r hr).1, List.forall_mem_map.mpr fun e he => ?_⟩
      rw [(resembles_reassociate_and_regroup e).1.omitted, (hrows r hr).2 e he]
    exact ⟨hwhole, fun l a => halone hwhole l a rfl⟩

theorem IsOperand.reassociate (h : e.IsOperand V) : e.reassociate.IsOperand V := by
  refine ⟨(wellFormed_reassociate_and_regroup h.1).1, ?_⟩
  rw [(resembles_reassociate_and_regroup e).1.omitted]
  exact h.2

/-! ### Settled trees -/

/-- Somewhere along the first operands of a right operand that goes on with the chain of the operator, a
first operand stands in parentheses that it would not need after the operator. -/
def shifts (op : String) : Expr → Bool
  | .binary l b c =>
    continues op (.binary l b c) &&
      if leftNeedsParens l.text b then !rightNeedsParens op b else shifts op b
  | _ => false

/-- The node is an operation whose text is grouped so that its parentheses are not those of the tree. -/
def isUnsettled : Expr → Bool
  | .binary l _ b => shifts l.text b
  | _ => false

theorem shifts_of_not_continues (h : continues op e = false) : shifts op e = false := by
  cases e with
  | binary l b c => rw [shifts, h, Bool.false_and]
  | _ => rfl

/-- After the operator before it, the first operand of a right operand needs its parentheses for the
operator behind it just where they stand already. -/
theorem leftNeedsParens_joined (h : continues l.text (.binary m b c) = true)
    (hneeds : leftNeedsParens m.text b = true → rightNeedsParens l.text b = true) :
    leftNeedsParens m.text (.binary { l with debug := false } a b) = false := by
  obtain ⟨-, hpriority, -⟩ := continues_binary.mp h
  cases hright : rightNeedsParens l.text b with
  | true => simp [leftNeedsParens, priority, endsInSign, hpriority, hright]
  | false =>
    have hleft : leftNeedsParens m.text b = false := by
      simpa [hright] using hneeds
    have hends : Operator.signPriority < Operator.priority m.text → endsInSign b = false :=
      endsInSign_of_left hleft
    rw [hpriority] at hends
    simp only [leftNeedsParens, priority, endsInSign, hpriority, hright, Nat.lt_irrefl]
    simpa using fun _ _ => hends

open Phrase (groupIf mark attach)

theorem phrase_binary (l : Label) (a b : Expr) :
    phrase (.binary l a b) = mark l.debug true
      (attach l.text (groupIf (leftNeedsParens l.text a) (phrase a))
        (groupIf (rightNeedsParens l.text b) (phrase b))) := by
  rw [phrase]

/-- The phrase of a tree does not depend on places. -/
theorem phrase_unplaced (e : Expr) : phrase e.unplaced = phrase e := by
  induction e with
  | leaf l atom =>
    rw [unplaced_leaf]
    by_cases hatom : atom = .empty
    · subst hatom
      rfl
    · rw [phrase_leaf hatom, phrase_leaf hatom]
      rfl
  | unary l suffix e ih =>
    rw [unplaced_unary, phrase, phrase, ih, (Resembles.unplaced e).operand, (Resembles.unplaced e).suffixed]
    rfl
  | binary l a b iha ihb =>
    rw [unplaced_binary, phrase_binary, phrase_binary, iha, ihb, (Resembles.unplaced a).left,
      (Resembles.unplaced b).right]
    rfl
  | call l as ih =>
    have harguments : phrases (as.map unplaced) = phrases as := by
      rw [phrases_eq_map, phrases_eq_map, List.map_map]
      exact List.map_congr_left ih
    rw [unplaced_call, phrase, phrase, harguments]
    rfl
  | array l rs ih =>
    have hrows : phraseRows (rs.map (List.map unplaced)) = phraseRows rs := by
      rw [phraseRows_eq_map, phraseRows_eq_map, List.map_map]
      refine List.map_congr_left fun r hr => ?_
      rw [Function.comp_apply, List.map_map]
      exact List.map_congr_left (ih r hr)
    rw [unplaced_array, phrase, phrase, hrows]
    rfl

/-- The two operators around the first operand of a right operand, where the chain is regrouped. -/
theorem phrase_joined (hchain : continues l.text (.binary m b c) = true)
    (hshifts : shifts l.text (.binary m b c) = false) (hb : phrase b.reassociate = phrase b)
    (hjoin : shifts l.text b = false → phrase
      (regroup { l with debug := false } a b b.reassociate) =
        phrase (.binary { l with debug := false } a b)) :
    let joined := if leftNeedsParens m.text b then
      .binary { l with debug := false } a b.reassociate
      else regroup { l with debug := false } a b b.reassociate
    groupIf (leftNeedsParens m.text joined) (phrase joined) =
      attach l.text (groupIf (leftNeedsParens l.text a) (phrase a))
        (groupIf (leftNeedsParens m.text b) (phrase b)) := by
  intro joined
  have hright := (resembles_reassociate_and_regroup b).1
  rw [shifts, hchain, Bool.true_and] at hshifts
  cases hneeds : leftNeedsParens m.text b with
  | true =>
    have hclosed : rightNeedsParens l.text b = true := by simpa [hneeds] using hshifts
    have hsees := hright.binary_right { l with debug := false } a a
    have hjoined : joined = .binary { l with debug := false } a b.reassociate := by
      simp only [joined, hneeds, if_true]
    rw [hjoined, hsees.left, leftNeedsParens_joined hchain fun _ => hclosed, phrase_binary,
      hright.right, hclosed, hb]
    rfl
  | false =>
    have hopen := rightNeedsParens_first hchain hneeds
    have hsees := (resembles_reassociate_and_regroup b).2 { l with debug := false } a
    have hjoined : joined = regroup { l with debug := false } a b b.reassociate := by
      simp only [joined, hneeds, Bool.false_eq_true, if_false]
    rw [hjoined, hsees.left, leftNeedsParens_joined hchain (by simp [hneeds]),
      hjoin (by simpa [hneeds] using hshifts), phrase_binary, hopen]
    rfl

/-- A settled tree and its regrouped form have one text. -/
theorem phrase_reassociate_and_regroup {r : Expr} (h : ∀ n ∈ r.nodes, n.isUnsettled = false) :
    phrase r.reassociate = phrase r ∧ ∀ l a, shifts l.text r = false →
      phrase (regroup l a r r.reassociate) = phrase (.binary l a r) := by
  have halone {r : Expr} (h : phrase r.reassociate = phrase r) (l : Label) (a : Expr)
      (hright : continues l.text r = false) :
      phrase (regroup l a r r.reassociate) = phrase (.binary l a r) := by
    rw [regroup_of_not_continues hright, phrase_binary, phrase_binary, h,
      (resembles_reassociate_and_regroup r).1.right]
  induction r with
  | leaf l' atom =>
    have hwhole : phrase (reassociate (.leaf l' atom)) = phrase (.leaf l' atom) := rfl
    exact ⟨hwhole, fun l a _ => halone hwhole l a rfl⟩
  | unary l' suffix e ih =>
    have hwhole : phrase (reassociate (.unary l' suffix e)) = phrase (.unary l' suffix e) := by
      have hsees := (resembles_reassociate_and_regroup e).1
      rw [forall_nodes_unary] at h
      rw [reassociate, phrase, phrase, (ih h.2).1, hsees.operand, hsees.suffixed]
    exact ⟨hwhole, fun l a _ => halone hwhole l a rfl⟩
  | binary l' b c ihb ihc =>
    obtain ⟨hsettled, hb, hc⟩ := (forall_nodes_binary _ _ _).mp h
    obtain ⟨hfirst, ihb⟩ := ihb hb
    obtain ⟨-, ihc⟩ := ihc hc
    have hwhole : phrase (reassociate (.binary l' b c)) = phrase (.binary l' b c) := by
      rw [reassociate, ihc l' _ hsettled, phrase_binary, phrase_binary, hfirst,
        (resembles_reassociate_and_regroup b).1.left]
    refine ⟨hwhole, fun l a hshifts => ?_⟩
    by_cases hchain : continues l.text (.binary l' b c) = true
    · obtain ⟨hmark, hpriority, -⟩ := continues_binary.mp hchain
      have hjoined := phrase_joined hchain hshifts hfirst (ihb { l with debug := false } a)
      dsimp only at hjoined
      have hphrase : phrase (.binary l' b c) =
          attach l'.text (groupIf (leftNeedsParens l'.text b) (phrase b))
            (groupIf (rightNeedsParens l'.text c) (phrase c)) := by
        rw [phrase_binary, hmark]
        rfl
      rw [regroup_of_continues hchain, ihc { l' with debug := l.debug } _ hsettled, phrase_binary,
        hjoined, phrase_binary, rightNeedsParens_of_continues hchain, hphrase,
        ← Phrase.attach_attach hpriority]
      rfl
    · exact halone hwhole l a (by simpa using hchain)
  | call l' as ih =>
    have hwhole : phrase (reassociate (.call l' as)) = phrase (.call l' as) := by
      rw [forall_nodes_call] at h
      have hmap : (as.map reassociate).map phrase = as.map phrase := by
        rw [List.map_map]
        exact List.map_congr_left fun e he => (ih e he (h.2 e he)).1
      rw [reassociate, reassociateList_eq_map, phrase, phrase, phrases_eq_map, phrases_eq_map, hmap]
    exact ⟨hwhole, fun l a _ => halone hwhole l a rfl⟩
  | array l' rs ih =>
    have hwhole : phrase (reassociate (.array l' rs)) = phrase (.array l' rs) := by
      rw [forall_nodes_array] at h
      have hmap : (rs.map (List.map reassociate)).map (List.map phrase) = rs.map (List.map phrase) := by
        rw [List.map_map]
        refine List.map_congr_left fun r hr => ?_
        rw [Function.comp_apply, List.map_map]
        exact List.map_congr_left fun e he => (ih r hr e he (h.2 r hr e he)).1
      rw [reassociate, reassociateRows_eq_map, phrase, phrase, phraseRows_eq_map, phraseRows_eq_map,
        hmap]
    exact ⟨hwhole, fun l a _ => halone hwhole l a rfl⟩

end Expr

/-! ### Thrifty phrases -/

namespace Phrase

variable {op : String} {d r : Phrase}

/-- The phrase needs parentheses as a right operand of the operator. -/
def ClosesAfter (op : String) : Phrase → Prop
  | .operation op' _ _ =>
    Operator.priority op' < Operator.priority op ∨
      Operator.priority op' = Operator.priority op ∧ Operator.isAssociative op = false
  | _ => False

/-- No right operand stands in parentheses that it does not need. -/
inductive Thrifty : Phrase → Prop
  | leaf (text : String) (atom : Atom) : Thrifty (.leaf text atom)
  | omitted : Thrifty .omitted
  | group {d : Phrase} (inner : Thrifty d) : Thrifty (.group d)
  | marked {d : Phrase} (operand : Thrifty d) : Thrifty (.marked d)
  | sign {d : Phrase} (op : String) (operand : Thrifty d) : Thrifty (.sign op d)
  | suffix {d : Phrase} (op : String) (operand : Thrifty d) : Thrifty (.suffix op d)
  | operation {op : String} {a b : Phrase} (left : Thrifty a) (right : Thrifty b)
    (needed : ∀ d, b = .group d → d.ClosesAfter op) : Thrifty (.operation op a b)
  | call {as : List Phrase} (function : String) (arguments : ∀ a ∈ as, Thrifty a) :
    Thrifty (.call function as)
  | array {rs : List (List Phrase)} (cells : ∀ r ∈ rs, ∀ c ∈ r, Thrifty c) : Thrifty (.array rs)

theorem Thrifty.groupIf (h : d.Thrifty) (needed : Bool) : (groupIf needed d).Thrifty := by
  cases needed
  · exact h
  · exact .group h

theorem Thrifty.mark (h : d.Thrifty) (debug operation : Bool) : (mark debug operation d).Thrifty := by
  cases debug
  · exact h
  · exact .marked (h.groupIf operation)

theorem Thrifty.of_groupIf {needed : Bool} (h : (Phrase.groupIf needed d).Thrifty) : d.Thrifty := by
  cases needed with
  | false => exact h
  | true => cases h with | group inner => exact inner

theorem Thrifty.of_mark {debug operation : Bool} (h : (Phrase.mark debug operation d).Thrifty) :
    d.Thrifty := by
  cases debug with
  | false => exact h
  | true => cases h with | marked operand => exact operand.of_groupIf

theorem Thrifty.of_attach (h : (attach op d r).Thrifty) : d.Thrifty ∧ r.Thrifty := by
  induction r using chainInduction op with
  | alone r halone =>
    rw [attach_alone halone] at h
    cases h with
    | operation left right needed => exact ⟨left, right⟩
  | chain op' b c hchain ih =>
    rw [attach_chain hchain] at h
    cases h with
    | operation left right needed => exact ⟨(ih left).1, .operation (ih left).2 right needed⟩

theorem closesAfter_attach (op' : String) (d r : Phrase) :
    (attach op' d r).ClosesAfter op ↔
      Operator.priority op' < Operator.priority op ∨
        Operator.priority op' = Operator.priority op ∧ Operator.isAssociative op = false := by
  induction r using chainInduction op' with
  | alone r h => rw [attach_alone h, ClosesAfter]
  | chain op'' b c h ih => rw [attach_chain h, ClosesAfter, h]

theorem attach_ne_group (op : String) (d r x : Phrase) : attach op d r ≠ .group x := by
  intro h
  cases r with
  | operation op' b c =>
    rw [attach] at h
    split at h <;> cases h
  | _ => cases h

end Phrase

namespace Expr

open Phrase (groupIf mark attach)

variable {e b : Expr} {op : String} {d : Phrase}

/-- A right operand is written in parentheses just where its phrase needs them. -/
theorem closesAfter_phrase (op : String) (e : Expr) :
    (phrase e).ClosesAfter op ↔ rightNeedsParens op e = true := by
  cases e with
  | leaf l atom =>
    by_cases hatom : atom = .empty
    · subst hatom
      simp [phrase, Phrase.ClosesAfter, rightNeedsParens]
    · rw [phrase_leaf hatom, mark]
      split <;> simp [Phrase.ClosesAfter, rightNeedsParens]
  | unary l suffix e =>
    rw [phrase, mark]
    cases l.debug <;> cases suffix <;> simp [Phrase.ClosesAfter, rightNeedsParens]
  | binary l a b =>
    rw [phrase, mark]
    cases hdebug : l.debug with
    | true => simp [Phrase.ClosesAfter, rightNeedsParens, hdebug]
    | false => simp [Phrase.closesAfter_attach, rightNeedsParens, hdebug]
  | call l as =>
    rw [phrase, mark]
    split <;> simp [Phrase.ClosesAfter, rightNeedsParens]
  | array l rs =>
    rw [phrase, mark]
    split <;> simp [Phrase.ClosesAfter, rightNeedsParens]

theorem phrase_ne_group (e : Expr) (d : Phrase) : phrase e ≠ .group d := by
  intro h
  cases e with
  | leaf l atom =>
    by_cases hatom : atom = .empty
    · subst hatom
      cases h
    · rw [phrase_leaf hatom, mark] at h
      split at h <;> cases h
  | unary l suffix e =>
    rw [phrase, mark] at h
    cases hdebug : l.debug <;> cases suffix <;> simp [hdebug] at h
  | binary l a b =>
    rw [phrase, mark] at h
    split at h
    · cases h
    · exact Phrase.attach_ne_group _ _ _ d h
  | call l as =>
    rw [phrase, mark] at h
    split at h <;> cases h
  | array l rs =>
    rw [phrase, mark] at h
    split at h <;> cases h

/-- The text of a tree that is grouped as its text reads is thrifty. -/
theorem thrifty_phrase (h : ∀ n ∈ e.nodes, n.isChained = false) : (phrase e).Thrifty := by
  induction e with
  | leaf l atom =>
    by_cases hatom : atom = .empty
    · subst hatom
      exact .omitted
    · rw [phrase_leaf hatom]
      exact (Phrase.Thrifty.leaf l.text atom).mark _ _
  | unary l suffix e ih =>
    have he := (ih ((forall_nodes_unary _ _ _).mp h).2)
    rw [phrase]
    refine Phrase.Thrifty.mark ?_ _ _
    cases suffix with
    | true => exact .suffix l.text (he.groupIf _)
    | false => exact .sign l.text (he.groupIf _)
  | binary l a b iha ihb =>
    obtain ⟨halone, ha, hb⟩ := (forall_nodes_binary _ _ _).mp h
    rw [phrase, Phrase.attach_alone (rootOperator_right halone)]
    refine Phrase.Thrifty.mark (.operation ((iha ha).groupIf _) ((ihb hb).groupIf _) ?_) _ _
    intro d hgroup
    cases hneeds : rightNeedsParens l.text b with
    | true =>
      rw [hneeds] at hgroup
      cases hgroup
      exact (closesAfter_phrase l.text b).mpr hneeds
    | false =>
      rw [hneeds] at hgroup
      exact absurd hgroup (phrase_ne_group b d)
  | call l as ih =>
    rw [forall_nodes_call] at h
    rw [phrase, phrases_eq_map]
    refine Phrase.Thrifty.mark (.call l.text ?_) _ _
    exact List.forall_mem_map.mpr fun e he => ih e he (h.2 e he)
  | array l rs ih =>
    rw [forall_nodes_array] at h
    rw [phrase, phraseRows_eq_map]
    refine Phrase.Thrifty.mark (.array ?_) _ _
    exact List.forall_mem_map.mpr fun r hr =>
      List.forall_mem_map.mpr fun e he => ih r hr e he (h.2 r hr e he)

/-- Parentheses that shift are not needed where they stand. -/
theorem not_shifts_of_thrifty (h : (attach op d (phrase e)).Thrifty) : shifts op e = false := by
  induction e with
  | binary l b c ihb ihc =>
    by_cases hchain : continues op (.binary l b c) = true
    · have hchain' : continues (Label.bare op).text (.binary l b c) = true := hchain
      obtain ⟨hmark, hpriority, -⟩ := continues_binary.mp hchain'
      -- the first operand comes right after the operator
      have hfirst : (attach op d (groupIf (leftNeedsParens l.text b) (phrase b))).Thrifty := by
        rw [phrase_binary, hmark] at h
        exact (Phrase.attach_attach hpriority .. ▸ h).of_attach.1
      rw [shifts, hchain, Bool.true_and]
      cases hneeds : leftNeedsParens l.text b with
      | true =>
        have hgroup : attach op d (groupIf true (phrase b)) = .operation op d (.group (phrase b)) :=
          Phrase.attach_alone (r := .group (phrase b)) trivial d
        rw [hneeds, hgroup] at hfirst
        cases hfirst with
        | operation left right needed =>
          simp [(closesAfter_phrase op b).mp (needed _ rfl)]
      | false =>
        rw [hneeds] at hfirst
        exact ihb hfirst
    · exact shifts_of_not_continues (by simpa using hchain)
  | _ => rfl

theorem settled_of_thrifty (h : (phrase e).Thrifty) : ∀ n ∈ e.nodes, n.isUnsettled = false := by
  induction e with
  | leaf l atom => exact (forall_nodes_leaf l atom).mpr rfl
  | unary l suffix e ih =>
    rw [phrase] at h
    refine (forall_nodes_unary l suffix e).mpr ⟨rfl, ih ?_⟩
    cases suffix with
    | true => cases h.of_mark with | suffix op operand => exact operand.of_groupIf
    | false => cases h.of_mark with | sign op operand => exact operand.of_groupIf
  | binary l a b iha ihb =>
    have hattach := (phrase_binary l a b ▸ h).of_mark
    refine (forall_nodes_binary l a b).mpr
      ⟨?_, iha hattach.of_attach.1.of_groupIf, ihb hattach.of_attach.2.of_groupIf⟩
    by_cases hchain : continues l.text b = true
    · rw [rightNeedsParens_of_continues hchain] at hattach
      exact not_shifts_of_thrifty hattach
    · exact shifts_of_not_continues (by simpa using hchain)
  | call l as ih =>
    rw [phrase, phrases_eq_map] at h
    cases h.of_mark with
    | call function arguments =>
      exact (forall_nodes_call l as).mpr
        ⟨rfl, fun e he => ih e he (List.forall_mem_map.mp arguments e he)⟩
  | array l rs ih =>
    rw [phrase, phraseRows_eq_map] at h
    cases h.of_mark with
    | array cells =>
      exact (forall_nodes_array l rs).mpr ⟨rfl, fun r hr e he =>
        ih r hr e he (List.forall_mem_map.mp (List.forall_mem_map.mp cells r hr) e he)⟩

/-! ### The second text -/

/-- A tree and its regrouped form have one text just where the tree is settled. -/
theorem toFormula_reassociate_eq_iff (h : e.IsOperand .written) :
    e.reassociate.toFormula = e.toFormula ↔ ∀ n ∈ e.nodes, n.isUnsettled = false := by
  have hagain := h.reassociate
  constructor
  · intro htext
    have hphrase : phrase e.reassociate = phrase e :=
      (htext ▸ derives_toFormula hagain).unique (derives_toFormula h)
    -- one phrase has one tree, so that the regrouped tree is grouped as its text reads
    have htree : e.reassociate.reassociate.unplaced = e.reassociate.unplaced := by
      rw [← (tree_phrase_and_attach hagain.1).1, hphrase, (tree_phrase_and_attach h.1).1]
    have hsame : same e.reassociate.reassociate e.reassociate = true := by
      rw [← same_unplaced, htree, same_unplaced]
      exact same_self (V := .written) (fun text atom hleaf => hleaf.2) hagain.1
    exact settled_of_thrifty (hphrase ▸ thrifty_phrase (isChained_of_same_reassociate hsame))
  · intro hsettled
    have hletters := letters_phrase hagain.1
    rw [(phrase_reassociate_and_regroup hsettled).1, letters_phrase h.1] at hletters
    exact (String.toList_injective hletters).symm

/-- What is written the second time is the text of the regrouped tree, and it is the first text exactly
where the tree is settled. -/
theorem toFormula_again {limit : Option Nat} {formula : String} {root : Expr}
    (h : parse ⟨.canonical, limit⟩ formula = .ok root)
    (hclosed : ∀ t ∈ Token.tokenize .canonical formula, t.kind = .string →
      Lexer.isClosedString t.text.toList = true) :
    ∃ again, parse ⟨.canonical, none⟩ root.toFormula = .ok again ∧
      again.toFormula = root.reassociate.toFormula ∧
      (again.toFormula = root.toFormula ↔ ∀ n ∈ root.nodes, n.isUnsettled = false) := by
  have hoperand := isOperand_of_parse h hclosed
  obtain ⟨again, hparse, htree⟩ := exists_parse_toFormula hoperand
  have htext : again.toFormula = root.reassociate.toFormula := by
    have hphrase : phrase again = phrase root.reassociate := by
      rw [← phrase_unplaced, htree, phrase_unplaced]
    apply String.toList_injective
    rw [← letters_phrase (wellFormed_of_ofTokens hparse), hphrase,
      letters_phrase hoperand.reassociate.1]
  refine ⟨again, hparse, htext, ?_⟩
  rw [htext]
  exact toFormula_reassociate_eq_iff hoperand

/-- Of a call with chains that are regrouped and keep their text. -/
theorem toFormula_again_of_chains :
    let formula := "=SUM(a*(b*-c),?(x+(y-z%)))&(\"s\"&(u&-v))"
    (∀ t ∈ Token.tokenize .canonical formula, t.kind = .string →
      Lexer.isClosedString t.text.toList = true) ∧
      ∃ root again, parse ⟨.canonical, some 9⟩ formula = .ok root ∧
        parse ⟨.canonical, none⟩ root.toFormula = .ok again ∧
        again.toFormula = root.reassociate.toFormula ∧
        (again.toFormula = root.toFormula ↔ ∀ n ∈ root.nodes, n.isUnsettled = false) := by
  intro formula
  have hclosed : ∀ t ∈ Token.tokenize .canonical formula, t.kind = .string →
      Lexer.isClosedString t.text.toList = true := by decide +kernel
  have hread : (parse ⟨.canonical, some 9⟩ formula).isOk = true := by decide +kernel
  obtain ⟨root, hroot⟩ := exists_ok_of_isOk hread
  obtain ⟨again, hagain⟩ := toFormula_again hroot hclosed
  exact ⟨hclosed, root, again, hroot, hagain⟩

/-- The parentheses of a sign at the front of a right operand do not stay: they close the sign against
the operator behind it, and after regrouping the product before that operator is closed instead. -/
theorem signed_factor_not_stable :
    (∀ t ∈ Token.tokenize .canonical "=2*((-3)*4)", t.kind = .string →
      Lexer.isClosedString t.text.toList = true) ∧
      ∃ root again, parse ⟨.canonical, none⟩ "=2*((-3)*4)" = .ok root ∧
        parse ⟨.canonical, none⟩ root.toFormula = .ok again ∧
        root.toFormula = "2*(-3)*4" ∧ again.toFormula = "(2*-3)*4" := by
  refine ⟨by decide +kernel, ?_⟩
  have htexts : (parse ⟨.canonical, none⟩ "=2*((-3)*4)").toOption.any (fun root =>
      root.toFormula == "2*(-3)*4" &&
        (parse ⟨.canonical, none⟩ root.toFormula).toOption.any fun again =>
          again.toFormula == "(2*-3)*4") = true := by decide +kernel
  obtain ⟨root, hroot, hchecked⟩ := exists_ok_of_any htexts
  obtain ⟨hfirst, hagain⟩ := Bool.and_eq_true_iff.mp hchecked
  obtain ⟨again, hagain, hsecond⟩ := exists_ok_of_any hagain
  exact ⟨root, again, hroot, hagain, eq_of_beq hfirst, eq_of_beq hsecond⟩

end Expr

end SheetFormula
