import SheetFormula.Proofs.Placement
import SheetFormula.Proofs.Recoding
import SheetFormula.Proofs.Wording

/-!
Where a string that was written ends. A string is written between quotes, with a backslash before each
quote in it, and it is read up to the first quote that no backslash takes along. What a string of a
formula stands for has an even number of backslashes before each of its quotes, so that these never end
it. At its end there may be an odd number of them, but only if the formula leaves the string open; then
the closing quote is taken along, and the string goes on with what follows.
-/

set_option autoImplicit false

namespace SheetFormula

namespace Lexer

theorem tokens_quote {x : Lexer} (hx : x.IsCanonical) (cs : List Char) :
    x.tokens ('"' :: cs) =
      ⟨.string, String.ofList ('"' :: cs.take (stringTail cs))⟩ ::
        x.tokens (cs.drop (stringTail cs)) := by
  have hfirst : x.first '"' cs = (.string, 1 + stringTail cs) := by
    simp [first, isBlank_delimiter hx '"' (by decide), hx.row, hx.argument, startsWith_singleton,
      bracket?, find?_operators_eq_none (c := '"') (by decide)]
  rw [tokens, hfirst]
  simp only [Nat.add_comm 1, List.take_succ_cons, List.drop_succ_cons]

end Lexer

/-! ### What is written for a string -/

namespace Literal

open Text (endsLoose)

variable {v : String} {b : List Char}

/-- Written between quotes, the text is the first token of whatever begins with it. -/
def Delimits (v : String) : Prop :=
  ∀ rest, (Token.tokenize .canonical (quote v ++ rest)).head? = some ⟨.string, quote v⟩

/-- What is written for a value ends where it should, or goes on as an open string does. -/
theorem head?_tokenize_quote (hb : Lexer.Inner b)
    (hv : v.toList = Text.replacePair '\\' '"' '"' b) (rest : String) :
    (Token.tokenize .canonical (quote v ++ rest)).head? =
      some ⟨.string, quote v ++ String.ofList (if endsLoose v.toList then
        rest.toList.take (Lexer.stringTail rest.toList) else [])⟩ := by
  obtain ⟨hexpand, hloose⟩ := expandChar_replacePair_inner hb
  rw [← hv] at hexpand hloose
  have hquote : (quote v ++ rest).toList = '"' :: (b ++ '"' :: rest.toList) := by
    simp [quote, quoteChars, hexpand]
  rw [Token.tokenize, hquote, Lexer.tokens_quote (Lexer.isCanonical_ofText _), List.head?_cons]
  refine congrArg (fun text => some (Token.mk .string text)) (String.toList_injective ?_)
  rw [hloose]
  cases hend : endsLoose b with
  | false =>
    have hclosed := hb.closesString_quote
    rw [hend] at hclosed
    have htail := Lexer.stringTail_append hclosed rest.toList
    rw [List.append_assoc, List.singleton_append] at htail
    simp [htail, quote, quoteChars, hexpand, List.take_append]
  | true =>
    simp [hb.stringTail_loose hend, quote, quoteChars, hexpand, List.take_append, Nat.add_assoc,
      Nat.add_comm 1]

theorem delimits_iff (hb : Lexer.Inner b) (hv : v.toList = Text.replacePair '\\' '"' '"' b) :
    Delimits v ↔ endsLoose v.toList = false := by
  constructor
  · intro h
    by_contra hloose
    have hgoes := (h "x").symm.trans (head?_tokenize_quote hb hv "x")
    rw [Bool.not_eq_false] at hloose
    have hlength := congrArg (fun t => t.map (·.text.length)) hgoes
    simp [hloose, Lexer.stringTail] at hlength
  · intro hloose rest
    rw [head?_tokenize_quote hb hv, hloose]
    simp

end Literal

/-! ### Strings of a formula -/

namespace Expr

open Text (endsLoose)

variable {limit : Option Nat} {formula : String} {root n : Expr}

/-- Only a string token makes a string. -/
theorem string_of_roleOf {locale : Locale} {t : Token} {index k : Nat} {text : String}
    (h : Terminal.roleOf locale t index = .operand (Terminal.leaf text .string k k)) :
    t.kind = .string ∧ text = Literal.unquote t.text := by
  unfold Terminal.roleOf at h
  cases hkind : t.kind with
  | string =>
    simp only [hkind, Terminal.Role.operand.injEq, Terminal.leaf, Expr.leaf.injEq, Label.mk.injEq] at h
    exact ⟨rfl, h.1.1.symm⟩
  | number =>
    simp only [hkind] at h
    split at h <;> simp [Terminal.leaf] at h
  | symbol =>
    simp only [hkind, Terminal.nameLeaf] at h
    split at h
    · simp [Terminal.leaf] at h
    · split at h <;> simp [Terminal.leaf] at h
  | _ => simp [hkind, Terminal.leaf] at h

/-- A string of a tree is what a string token of its formula stands for. -/
theorem exists_token_of_string (h : parse ⟨.canonical, limit⟩ formula = .ok root) (hn : n ∈ root.nodes)
    (hkind : n.kind = .string) :
    ∃ t ∈ Token.tokenize .canonical formula, t.kind = .string ∧ n.text = Literal.unquote t.text := by
  obtain ⟨l, rfl⟩ : ∃ l, n = .leaf l .string := by
    cases n with
    | leaf l a =>
      cases a with
      | string => exact ⟨l, rfl⟩
      | _ => cases hkind
    | _ => cases hkind
  obtain ⟨first, -, hstands⟩ := (allPlaced_of_ofTokens h _ hn).stands
  cases hstands with
  | @word _ _ t k index word role stop =>
    obtain ⟨hstring, htext⟩ := string_of_roleOf role
    obtain ⟨m, -, ht⟩ := word
    rcases Token.mem_fuseRanges (List.mem_of_getElem? ht) with hmem | ⟨left, -, right, -, -, rfl⟩
    · exact ⟨t, hmem, hstring, htext⟩
    · cases hstring

/-- What is written for a string of a formula is the first token of whatever begins with it, exactly if
the string does not end in an odd number of backslashes; otherwise the token goes on to the end of an open
string. The string ends so exactly where the formula leaves it open after an odd number of backslashes or
after a quote that was taken along. In any case the string is read back from what is written for it. -/
theorem quote_delimits_iff (h : parse ⟨.canonical, limit⟩ formula = .ok root) (hn : n ∈ root.nodes)
    (hkind : n.kind = .string) :
    Literal.unquote (Literal.quote n.text) = n.text ∧
      (Literal.Delimits n.text ↔ endsLoose n.text.toList = false) ∧
      (endsLoose n.text.toList = true → ∀ rest : String,
        (Token.tokenize .canonical (Literal.quote n.text ++ rest)).head? =
          some ⟨.string, Literal.quote n.text ++
            String.ofList (rest.toList.take (Lexer.stringTail rest.toList))⟩) ∧
      ∃ body, ⟨.string, String.ofList ('"' :: body)⟩ ∈ Token.tokenize .canonical formula ∧
        n.text = Literal.unquote (String.ofList ('"' :: body)) ∧
        (endsLoose n.text.toList = true ↔ Lexer.closesString body = false ∧
          (endsLoose body = true ∨ body.getLast? = some '"')) := by
  obtain ⟨t, ht, hstring, htext⟩ := exists_token_of_string h hn hkind
  obtain ⟨kind, text⟩ := t
  obtain rfl : kind = .string := hstring
  obtain ⟨rest, hspelt⟩ := Token.spelt_of_mem_tokenize ht
  generalize hs : text.toList = s at hspelt
  cases hspelt with
  | @string body rest tail =>
    obtain rfl : text = String.ofList ('"' :: body) := by
      rw [← hs, String.ofList_toList]
    obtain ⟨b, hb, hvalue, hends⟩ := Literal.exists_inner_of_stringTail tail
    have hv : n.text.toList = Text.replacePair '\\' '"' '"' b := by
      rw [htext, ← hvalue]
      simp [Literal.unquote, Literal.unquoteChars]
    refine ⟨Literal.unquote_quote n.text, Literal.delimits_iff hb hv, fun hloose rest => ?_,
      body, ht, htext, ?_⟩
    · rw [Literal.head?_tokenize_quote hb hv, if_pos hloose]
    · rw [hv, (Literal.expandChar_replacePair_inner hb).2, hends]

/-- Of a string that closes after a quote and two backslashes, and of one that is left open after three. -/
theorem quote_delimits_of_open :
    ∃ root, parse ⟨.canonical, some 4⟩ "=-\"a\\\"\\\\\"&\"b\\\\\\" = .ok root ∧
      (root.nodesOf .string).map text = ["a\"\\\\", "b\\\\\\"] ∧
      Literal.Delimits "a\"\\\\" ∧ ¬ Literal.Delimits "b\\\\\\" := by
  have hstrings : (parse ⟨.canonical, some 4⟩ "=-\"a\\\"\\\\\"&\"b\\\\\\").toOption.map
      (fun root => (root.nodesOf .string).map text) = some ["a\"\\\\", "b\\\\\\"] := by
    decide +kernel
  obtain ⟨root, hroot, htexts⟩ := exists_ok_of_map hstrings
  have hdelimits : ∀ v ∈ ["a\"\\\\", "b\\\\\\"],
      (Literal.Delimits v ↔ endsLoose v.toList = false) := by
    rw [← htexts]
    refine List.forall_mem_map.mpr fun n hn => ?_
    obtain ⟨hnode, hkind⟩ := List.mem_filter.mp hn
    exact (quote_delimits_iff hroot hnode (by simpa using hkind)).2.1
  refine ⟨root, hroot, htexts, (hdelimits _ (by simp)).mpr (by decide), fun h => ?_⟩
  exact absurd ((hdelimits _ (by simp)).mp h) (by decide)

/-- A string that is left open after a backslash is not written so that it ends: the parenthesis that is
written after it becomes part of it, and the text is refused. -/
theorem open_string_takes_parenthesis :
    (parse {} "=?-\"a\\").toOption.map (fun root =>
        ((root.nodesOf .string).map text, root.toFormula)) = some (["a\\"], "?(-\"a\\\")") ∧
      (Token.tokenize .canonical (Literal.quote "a\\" ++ ")")).head? =
        some ⟨.string, "\"a\\\")"⟩ ∧
      Literal.quote "a\\" ≠ "\"a\\\")" ∧ (parse {} "?(-\"a\\\")").isOk = false := by
  decide +kernel

end Expr

end SheetFormula
