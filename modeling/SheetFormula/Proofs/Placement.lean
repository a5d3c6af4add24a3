import Mathlib.Data.Int.Order.Basic
import SheetFormula.Proofs.Grammar

/-!
The tokens that the nodes of a tree cover. A node stands on tokens of its own: a leaf on its word, an
operation on its operator, a call on its name and its parentheses, an array on its braces. The spans of
its children lie between these, one after the other. The parser knows where the last token was that it
took, and what is open has its tokens in order up to there (`Parser.Framed`); each terminal carries this
on.
-/

set_option autoImplicit false

namespace SheetFormula

/-! ### Places -/

namespace Token

variable {tokens : List Token} {kinds kinds' : List Kind} {i j k : Int} {t u : Token}

/-- The token stands at the index. -/
def At (tokens : List Token) (i : Int) (t : Token) : Prop :=
  ∃ k : Nat, i = k ∧ tokens[k]? = some t

/-- The second index comes after the first, and between them stand only tokens of the kinds. -/
def Gap (tokens : List Token) (kinds : List Kind) (i j : Int) : Prop :=
  i < j ∧ ∀ k t, i < k → k < j → At tokens k t → t.kind ∈ kinds

theorem at_natCast {k : Nat} : At tokens k t ↔ tokens[k]? = some t := by
  constructor
  · rintro ⟨m, hm, ht⟩
    rwa [Int.ofNat_inj.mp hm]
  · exact fun h => ⟨k, rfl, h⟩

theorem At.bounds (h : At tokens i t) : 0 ≤ i ∧ i < tokens.length := by
  obtain ⟨k, rfl, ht⟩ := h
  obtain ⟨hk, -⟩ := List.getElem?_eq_some_iff.mp ht
  omega

theorem At.unique (h : At tokens i t) (h' : At tokens i u) : t = u := by
  obtain ⟨k, rfl, ht⟩ := h
  rw [at_natCast, ht] at h'
  exact Option.some.inj h'

theorem Gap.mono (h : Gap tokens kinds i j) (hkinds : kinds ⊆ kinds') : Gap tokens kinds' i j :=
  ⟨h.1, fun k t hi hj ht => hkinds (h.2 k t hi hj ht)⟩

theorem gap_succ (i : Int) : Gap tokens kinds i (i + 1) :=
  ⟨by omega, fun k t hi hj => by omega⟩

/-- Two gaps that overlap, or follow each other, make one. -/
theorem Gap.append (h : Gap tokens kinds i (j + 1)) (h' : Gap tokens kinds j k) :
    Gap tokens kinds i k := by
  obtain ⟨hij, hfirst⟩ := h
  obtain ⟨hjk, hsecond⟩ := h'
  refine ⟨by omega, fun m t him hmk ht => ?_⟩
  by_cases hm : m < j + 1
  · exact hfirst m t him hm ht
  · exact hsecond m t (by omega) hmk ht

theorem Gap.snoc (h : Gap tokens kinds i j) (hj : At tokens j t) (ht : t.kind ∈ kinds) :
    Gap tokens kinds i (j + 1) := by
  obtain ⟨hij, hkinds⟩ := h
  refine ⟨by omega, fun m u him hmj hu => ?_⟩
  obtain hm | rfl : m < j ∨ m = j := by omega
  · exact hkinds m u him hm hu
  · rwa [hu.unique hj]

theorem Gap.trans (h : Gap tokens kinds i j) (hj : At tokens j t) (ht : t.kind ∈ kinds)
    (h' : Gap tokens kinds j k) : Gap tokens kinds i k :=
  (h.snoc hj ht).append h'

end Token

open Token (At Gap)

namespace Expr

variable {locale : Locale} {tokens : List Token} {first : Int} {e : Expr}

/-- The children of a node in the order of the formula. -/
def children : Expr → List Expr
  | .leaf .. => []
  | .unary _ _ e => [e]
  | .binary _ a b => [a, b]
  | .call _ as => as
  | .array _ rs => rs.flatten

theorem forall_nodes_iff {p : Expr → Prop} :
    (∀ n ∈ e.nodes, p n) ↔ p e ∧ ∀ c ∈ e.children, ∀ n ∈ c.nodes, p n := by
  cases e with
  | leaf l a => simp [forall_nodes_leaf, children]
  | unary l suffix e => simp [forall_nodes_unary, children]
  | binary l a b => simp [forall_nodes_binary, children]
  | call l as => exact forall_nodes_call l as
  | array l rs =>
    simp only [forall_nodes_array, children, List.mem_flatten]
    refine and_congr_right fun _ => ⟨?_, fun h r hr c hc => h c ⟨r, hr, hc⟩⟩
    rintro h c ⟨r, hr, hc⟩
    exact h r hr c hc

/-- The tokens of the node itself, the first of them at the given index; a mark for the debugger comes
before. -/
inductive Stands (locale : Locale) (tokens : List Token) (first : Int) : Expr → Prop
  | word {l : Label} {a : Atom} {t : Token} (k : Nat) (index : first = k) (word : At tokens first t)
    (role : Terminal.roleOf locale t k = .operand (Terminal.leaf l.text a k k))
    (stop : l.span.stop = first) : Stands locale tokens first (.leaf l a)
  | omitted {l : Label} {t : Token} (next : At tokens first t)
    (kind : t.kind = .argSeparator ∨ t.kind = .rightParen) (text : l.text = "")
    (stop : l.span.stop = first) : Stands locale tokens first (.leaf l .empty)
  | joined {l : Label} {left right : String} {colon : Int} (word : At tokens first ⟨.reference, left⟩)
    (before : Gap tokens [.space] first colon) (middle : At tokens colon ⟨.operator, ":"⟩)
    (after : Gap tokens [.space] colon l.span.stop) (last : At tokens l.span.stop ⟨.reference, right⟩)
    (text : l.text = left ++ ":" ++ right) : Stands locale tokens first (.leaf l .reference)
  | sign {l : Label} {e : Expr} (operator : At tokens first ⟨.operator, l.text⟩)
    (after : Gap tokens [.space, .leftParen] first e.span.start) (stop : l.span.stop = e.span.stop) :
    Stands locale tokens first (.unary l false e)
  | suffix {l : Label} {e : Expr} (index : first = e.span.start)
    (before : Gap tokens [.space, .rightParen] e.span.stop l.span.stop)
    (operator : At tokens l.span.stop ⟨.operator, l.text⟩) : Stands locale tokens first (.unary l true e)
  | operation {l : Label} {a b : Expr} {k : Int} (index : first = a.span.start)
    (before : Gap tokens [.space, .rightParen] a.span.stop k) (operator : At tokens k ⟨.operator, l.text⟩)
    (after : Gap tokens [.space, .leftParen] k b.span.start) (stop : l.span.stop = b.span.stop) :
    Stands locale tokens first (.binary l a b)
  | call {l : Label} {as : List Expr} {k : Int} {opening closing : String}
    (name : At tokens first ⟨.symbol, l.text⟩) (between : Gap tokens [.space] first k)
    (opens : At tokens k ⟨.leftParen, opening⟩) (after : ∀ a ∈ as, k < a.span.start)
    (before : ∀ a ∈ as, a.span.stop < l.span.stop ∨
      a.isOmitted = true ∧ as.getLast? = some a ∧ a.span = ⟨l.span.stop, l.span.stop⟩)
    (order : k < l.span.stop) (closes : At tokens l.span.stop ⟨.rightParen, closing⟩) :
    Stands locale tokens first (.call l as)
  | array {l : Label} {rs : List (List Expr)} {opening closing : String}
    (opens : At tokens first ⟨.leftBrace, opening⟩)
    (between : ∀ c ∈ rs.flatten, first < c.span.start ∧ c.span.stop < l.span.stop)
    (order : first < l.span.stop) (closes : At tokens l.span.stop ⟨.rightBrace, closing⟩) :
    Stands locale tokens first (.array l rs)

/-- Where a node starts, next to the first token of its own: there, or at a mark for the debugger, with
nothing but parentheses and other marks between. -/
def Leads (tokens : List Token) (debug : Bool) (start first : Int) : Prop :=
  if debug then
    (∃ mark, At tokens start ⟨.debugger, mark⟩) ∧
      Gap tokens [.space, .leftParen, .debugger] start first
  else start = first

/-- The node covers tokens of the list and its children's, which lie apart and in order, and it has tokens
of its own among them. -/
structure Placed (locale : Locale) (tokens : List Token) (e : Expr) : Prop where
  within : 0 ≤ e.span.start ∧ e.span.start ≤ e.span.stop ∧ e.span.stop < tokens.length
  inside : ∀ c ∈ e.children, e.span.start ≤ c.span.start ∧ c.span.stop ≤ e.span.stop
  apart : e.children.Pairwise fun a b => a.span.stop < b.span.start
  stands : ∃ first, Leads tokens e.debug e.span.start first ∧ e.Stands locale tokens first

/-- Every node of the tree is placed. -/
def AllPlaced (locale : Locale) (tokens : List Token) (e : Expr) : Prop :=
  ∀ n ∈ e.nodes, n.Placed locale tokens

theorem AllPlaced.root (h : e.AllPlaced locale tokens) : e.Placed locale tokens :=
  (forall_nodes_iff.mp h).1

theorem Leads.bounds {debug : Bool} {start : Int} (h : Leads tokens debug start first)
    (hfirst : 0 ≤ first) : 0 ≤ start ∧ start ≤ first := by
  unfold Leads at h
  split at h
  · obtain ⟨⟨mark, hmark⟩, hgap⟩ := h
    exact ⟨hmark.bounds.1, hgap.1.le⟩
  · omega

/-- The tokens of a node are around its children. -/
theorem Stands.bounds (h : e.Stands locale tokens first)
    (hchildren : ∀ c ∈ e.children, c.Placed locale tokens) :
    0 ≤ first ∧ first ≤ e.span.stop ∧ e.span.stop < tokens.length ∧
      ∀ c ∈ e.children, first ≤ c.span.start ∧ c.span.stop ≤ e.span.stop := by
  have hwithin := fun c hc => (hchildren c hc).within
  cases h with
  | word k index word role stop =>
    have hword := word.bounds
    exact ⟨hword.1, stop.ge, stop.trans_lt hword.2, List.forall_mem_nil _⟩
  | omitted next kind text stop =>
    have hnext := next.bounds
    exact ⟨hnext.1, stop.ge, stop.trans_lt hnext.2, List.forall_mem_nil _⟩
  | joined word before middle after last text =>
    exact ⟨word.bounds.1, (before.1.trans after.1).le, last.bounds.2, List.forall_mem_nil _⟩
  | @sign l e operator after stop =>
    obtain ⟨-, hle, hlt⟩ := hwithin e (List.mem_singleton.mpr rfl)
    have hafter := after.1
    refine ⟨operator.bounds.1, ?_, stop.trans_lt hlt, List.forall_mem_singleton.mpr ⟨hafter.le, stop.ge⟩⟩
    exact hafter.le.trans (hle.trans stop.ge)
  | @suffix l e index before operator =>
    obtain ⟨hge, hle, -⟩ := hwithin e (List.mem_singleton.mpr rfl)
    have hbefore := before.1
    refine ⟨index.symm ▸ hge, ?_, operator.bounds.2,
      List.forall_mem_singleton.mpr ⟨index.le, hbefore.le⟩⟩
    exact index.le.trans (hle.trans hbefore.le)
  | @operation l a b k index before operator after stop =>
    obtain ⟨hge, hle, -⟩ := hwithin a List.mem_cons_self
    obtain ⟨-, hle', hlt⟩ := hwithin b (List.mem_cons_of_mem a List.mem_cons_self)
    have hbefore := before.1
    have hafter := after.1
    have hstop : (Expr.binary l a b).span.stop = b.span.stop := stop
    refine ⟨by omega, by omega, by omega, List.forall_mem_cons.mpr ⟨by omega, ?_⟩⟩
    exact List.forall_mem_singleton.mpr (by omega)
  | @call l as k opening closing name between opens after before order closes =>
    have hbetween := between.1
    refine ⟨name.bounds.1, (hbetween.trans order).le, closes.bounds.2, fun a ha => ?_⟩
    refine ⟨(hbetween.trans (after a ha)).le, ?_⟩
    obtain hlt | ⟨-, -, hspan⟩ := before a ha
    · exact hlt.le
    · exact (congrArg Span.stop hspan).le
  | array opens between order closes =>
    exact ⟨opens.bounds.1, order.le, closes.bounds.2,
      fun c hc => ⟨(between c hc).1.le, (between c hc).2.le⟩⟩

/-- A node is placed, with all below it, if its children are and its own tokens are around them. -/
theorem allPlaced_of_stands (hlead : Leads tokens e.debug e.span.start first)
    (hstands : e.Stands locale tokens first)
    (hapart : e.children.Pairwise fun a b => a.span.stop < b.span.start)
    (hchildren : ∀ c ∈ e.children, c.AllPlaced locale tokens) : e.AllPlaced locale tokens := by
  obtain ⟨hfirst, hle, hlt, hinside⟩ := hstands.bounds fun c hc => (hchildren c hc).root
  obtain ⟨hge, hstart⟩ := hlead.bounds hfirst
  refine forall_nodes_iff.mpr ⟨⟨⟨hge, hstart.trans hle, hlt⟩, fun c hc => ?_, hapart, first, hlead, hstands⟩,
    hchildren⟩
  exact ⟨hstart.trans (hinside c hc).1, (hinside c hc).2⟩

theorem children_marked (e : Expr) (index : Int) : (e.marked index).children = e.children := by
  cases e <;> rfl

theorem span_marked (e : Expr) (index : Int) : (e.marked index).span = ⟨index, e.span.stop⟩ := by
  cases e <;> rfl

theorem Stands.marked (h : e.Stands locale tokens first) (index : Int) :
    (e.marked index).Stands locale tokens first := by
  cases h with
  | word k index word role stop => exact .word k index word role stop
  | omitted next kind text stop => exact .omitted next kind text stop
  | joined word before middle after last text => exact .joined word before middle after last text
  | sign operator after stop => exact .sign operator after stop
  | suffix index before operator => exact .suffix index before operator
  | operation index before operator after stop => exact .operation index before operator after stop
  | call name between opens after before order closes =>
    exact .call name between opens after before order closes
  | array opens between order closes => exact .array opens between order closes

theorem AllPlaced.marked {i : Int} {mark : String} (h : e.AllPlaced locale tokens)
    (hmark : At tokens i ⟨.debugger, mark⟩) (hgap : Gap tokens [.space, .leftParen] i e.span.start) :
    (e.marked i).AllPlaced locale tokens := by
  obtain ⟨first, hlead, hstands⟩ := h.root.stands
  have hwide : Gap tokens [.space, .leftParen, .debugger] i e.span.start := hgap.mono (by simp)
  refine allPlaced_of_stands ?_ (hstands.marked i) ?_ ?_
  · rw [Leads, debug_marked, span_marked, if_pos rfl]
    refine ⟨⟨mark, hmark⟩, ?_⟩
    unfold Leads at hlead
    split at hlead
    · obtain ⟨⟨inner, hinner⟩, hrest⟩ := hlead
      exact hwide.trans hinner (by simp) hrest
    · rwa [hlead] at hwide
  · rw [children_marked]
    exact h.root.apart
  · rw [children_marked]
    exact (forall_nodes_iff.mp h).2

end Expr

/-! ### Terminals in their places -/

namespace Terminal

variable {locale : Locale} {tokens : List Token} {t : Terminal} {e : Expr} {last f : Int}

/-- The tokens of a terminal, the last of them at the given index. -/
inductive Covers (locale : Locale) (tokens : List Token) : Terminal → Int → Prop
  | token {u : Token} {k : Nat} (word : At tokens k u) : Covers locale tokens (ofToken locale (u, k)) k
  | call {u v : Token} {k m : Nat} (starts : startsCall u v = true) (name : At tokens k u)
    (between : Gap tokens [.space] k m) (opens : At tokens m v) :
    Covers locale tokens ⟨.callStart, u.text, k⟩ m
  | joined {u colon v : Token} {k c m : Nat} (joins : joins u colon v = true) (word : At tokens k u)
    (before : Gap tokens [.space] k c) (middle : At tokens c colon) (after : Gap tokens [.space] c m)
    (right : At tokens m v) : Covers locale tokens (joined (u, k) (v, m)) m

/-- The kind of the token that plays a role by itself, for the roles that only one kind plays. -/
def Role.kind : Role → Token.Kind
  | .marker => .debugger
  | .operator => .operator
  | .leftParen => .leftParen
  | .rightParen => .rightParen
  | .leftBrace => .leftBrace
  | .rightBrace => .rightBrace
  | .argSeparator => .argSeparator
  | .rowSeparator => .rowSeparator
  | _ => .unknown

theorem kind_roleOf {u : Token} {k : Nat} (h : (roleOf locale u k).kind ≠ .unknown) :
    (roleOf locale u k).kind = u.kind := by
  unfold roleOf at h ⊢
  cases hkind : u.kind with
  | number =>
    simp only [hkind] at h
    split at h <;> exact absurd rfl h
  | _ => simp_all [Role.kind]

/-- A terminal of one token, by its role. -/
theorem Covers.punctuation {kind : Token.Kind} (h : Covers locale tokens t last)
    (hkind : t.role.kind = kind) (hknown : kind ≠ .unknown) :
    At tokens t.index ⟨kind, t.text⟩ ∧ last = t.index := by
  subst hkind
  cases h with
  | @token u k word =>
    have hrole : (ofToken locale (u, k)).role.kind = u.kind := kind_roleOf hknown
    rw [hrole]
    exact ⟨word, rfl⟩
  | call starts name between opens => exact absurd rfl hknown
  | joined joins word before middle after right => exact absurd rfl hknown

theorem Covers.callStart (h : Covers locale tokens t last) (hrole : t.role = .callStart) :
    At tokens t.index ⟨.symbol, t.text⟩ ∧ Gap tokens [.space] t.index last ∧
      ∃ opening, At tokens last ⟨.leftParen, opening⟩ := by
  cases h with
  | token word => exact absurd hrole (roleOf_ne_callStart _ _ _)
  | @call u v k m starts name between opens =>
    simp only [startsCall, Bool.and_eq_true, beq_iff_eq] at starts
    obtain ⟨⟨hu, hv⟩, -⟩ := starts
    exact ⟨by rwa [← hu], between, v.text, by rwa [← hv]⟩
  | joined => cases hrole

/-- A token that is an operand makes a leaf at its index. -/
theorem roleOf_eq_operand {u : Token} {k : Nat} (h : roleOf locale u k = .operand e) :
    ∃ text atom, e = leaf text atom k k := by
  unfold roleOf at h
  cases hkind : u.kind with
  | number =>
    simp only [hkind] at h
    split at h
    · cases h
      exact ⟨_, _, rfl⟩
    · cases h
  | symbol =>
    simp only [hkind, nameLeaf] at h
    cases h
    split
    · exact ⟨_, _, rfl⟩
    · split <;> exact ⟨_, _, rfl⟩
  | string | reference | invalidReference =>
    simp only [hkind] at h
    cases h
    exact ⟨_, _, rfl⟩
  | _ => simp [hkind] at h

theorem Covers.operand (h : Covers locale tokens t last) (hrole : t.role = .operand e) :
    e.AllPlaced locale tokens ∧ e.span = ⟨t.index, last⟩ := by
  cases h with
  | @token u k word =>
    obtain ⟨text, atom, rfl⟩ := roleOf_eq_operand hrole
    refine ⟨Expr.allPlaced_of_stands rfl (.word k rfl word hrole rfl) .nil (List.forall_mem_nil _), rfl⟩
  | call => cases hrole
  | @joined u colon v k c m joins word before middle after right =>
    cases hrole
    simp only [Terminal.joins, Token.isOperator, Bool.and_eq_true, beq_iff_eq] at joins
    obtain ⟨⟨hu, hcolon, htext⟩, hv⟩ := joins
    have hword : At tokens k ⟨.reference, u.text⟩ := by rwa [← hu]
    have hmiddle : At tokens c ⟨.operator, ":"⟩ := by rwa [← hcolon, ← htext]
    have hright : At tokens m ⟨.reference, v.text⟩ := by rwa [← hv]
    exact ⟨Expr.allPlaced_of_stands rfl (.joined hword before hmiddle after hright rfl) .nil
      (List.forall_mem_nil _), rfl⟩

/-- The terminals come one after the other, after the given index, with spaces between. -/
inductive Laid (locale : Locale) (tokens : List Token) : Int → List Terminal → Prop
  | nil (f : Int) : Laid locale tokens f []
  | cons {f last : Int} {t : Terminal} {rest : List Terminal} (gap : Gap tokens [.space] f t.index)
    (covers : Covers locale tokens t last) (laid : Laid locale tokens last rest) :
    Laid locale tokens f (t :: rest)

/-- The tokens come one after the other, after the given index, with spaces between. -/
inductive Successive (tokens : List Token) : Int → List Indexed → Prop
  | nil (f : Int) : Successive tokens f []
  | cons {f : Int} {u : Indexed} {rest : List Indexed} (gap : Gap tokens [.space] f u.2)
    (word : At tokens u.2 u.1) (successive : Successive tokens u.2 rest) : Successive tokens f (u :: rest)

theorem laid_ofIndexed {indexed : List Indexed} (h : Successive tokens f indexed) :
    Laid locale tokens f (ofIndexed locale indexed) := by
  induction indexed using terminalInduction generalizing f with
  | nil => exact .nil f
  | call t u indexed hcall ih =>
    rw [ofIndexed_call hcall]
    obtain _ | ⟨gap, name, _ | ⟨between, opens, hrest⟩⟩ := h
    exact .cons gap (.call hcall name between opens) (ih hrest)
  | join t u v indexed hjoin ih =>
    rw [ofIndexed_join hjoin]
    obtain _ | ⟨gap, word, _ | ⟨before, middle, _ | ⟨after, right, hrest⟩⟩⟩ := h
    exact .cons gap (.joined hjoin word before middle after right) (ih hrest)
  | alone t indexed halone ih =>
    rw [ofIndexed_alone halone]
    obtain _ | ⟨gap, word, hrest⟩ := h
    exact .cons gap (.token word) (ih hrest)

/-- The tokens of a rest of the list that are no spaces, after an index with spaces behind it. -/
theorem successive_filter (before rest : List Token) {f : Int}
    (h : Gap (before ++ rest) [.space] f before.length) :
    Successive (before ++ rest) f ((rest.zipIdx before.length).filter fun t => !t.1.isSpace) := by
  induction rest generalizing before f with
  | nil => exact .nil f
  | cons t rest ih =>
    have hword : At (before ++ t :: rest) before.length t := Token.at_natCast.mpr (by simp)
    have hnext (f : Int) := @ih (before ++ [t]) f
    simp only [List.append_assoc, List.singleton_append, List.length_append, List.length_singleton] at hnext
    rw [List.zipIdx_cons]
    by_cases hspace : t.isSpace = true
    · rw [List.filter_cons_of_neg (by simp [hspace])]
      exact hnext f (h.snoc hword (by simpa [Token.isSpace] using hspace))
    · rw [List.filter_cons_of_pos (by simp [hspace])]
      exact .cons h hword (hnext _ (Token.gap_succ _))

theorem successive_significant (tokens : List Token) :
    ∃ f, Successive tokens f (afterEquals (significant tokens)) := by
  have h : Successive tokens (-1) (significant tokens) := successive_filter [] tokens (Token.gap_succ _)
  generalize significant tokens = indexed at h
  cases h with
  | nil => exact ⟨_, .nil (-1)⟩
  | cons gap word hrest =>
    rw [afterEquals]
    split
    · exact ⟨_, hrest⟩
    · exact ⟨_, .cons gap word hrest⟩

end Terminal

/-! ### The parser in its place -/

namespace Parser

open SheetFormula.Expr (AllPlaced allPlaced_of_stands)

variable {limit : Option Nat} {stop : Nat} {locale : Locale} {tokens : List Token} {t : Terminal}
  {stage next : Stage} {left operand e : Expr} {es : List Expr} {frames rest : List Frame}
  {f g last : Int}

/-- Trees that are placed between two indices, apart and in order. -/
structure Lined (locale : Locale) (tokens : List Token) (f g : Int) (es : List Expr) : Prop where
  placed : ∀ e ∈ es, e.AllPlaced locale tokens
  apart : es.Pairwise fun a b => a.span.stop < b.span.start
  between : ∀ e ∈ es, f < e.span.start ∧ e.span.stop ≤ g
  le : f ≤ g

theorem Lined.nil (f : Int) : Lined locale tokens f f [] :=
  ⟨List.forall_mem_nil _, .nil, List.forall_mem_nil _, le_rfl⟩

theorem Lined.append {h : Int} (hes : Lined locale tokens f g es) (he : e.AllPlaced locale tokens)
    (hstart : g < e.span.start) (hstop : e.span.stop ≤ h) : Lined locale tokens f h (es ++ [e]) := by
  have hspan := he.root.within.2.1
  refine ⟨forall_mem_append_singleton hes.placed he, ?_, forall_mem_append_singleton ?_ ?_, ?_⟩
  · refine List.pairwise_append.mpr ⟨hes.apart, List.pairwise_singleton _ _, fun a ha b hb => ?_⟩
    obtain rfl := List.mem_singleton.mp hb
    exact (hes.between a ha).2.trans_lt hstart
  · exact fun a ha => ⟨(hes.between a ha).1, (hes.between a ha).2.trans (by omega)⟩
  · exact ⟨hes.le.trans_lt hstart, hstop⟩
  · exact hes.le.trans (by omega)

/-- The open constructs have their tokens in order, the last of them at the given index. -/
inductive Framed (locale : Locale) (tokens : List Token) : Int → List Frame → Prop
  | nil (f : Int) : Framed locale tokens f []
  | group {f g : Int} {frames : List Frame} {text : String} (framed : Framed locale tokens f frames)
    (gap : Gap tokens [.space] f g) (opens : At tokens g ⟨.leftParen, text⟩) :
    Framed locale tokens g (.group :: frames)
  | marker {f : Int} {index : Nat} {frames : List Frame} {text : String}
    (framed : Framed locale tokens f frames) (gap : Gap tokens [.space] f index)
    (mark : At tokens index ⟨.debugger, text⟩) : Framed locale tokens index (.marker index :: frames)
  | sign {f : Int} {op : String} {index : Nat} {frames : List Frame}
    (framed : Framed locale tokens f frames) (gap : Gap tokens [.space] f index)
    (operator : At tokens index ⟨.operator, op⟩) : Framed locale tokens index (.sign op index :: frames)
  | operation {f g : Int} {op : String} {left : Expr} {frames : List Frame}
    (framed : Framed locale tokens f frames) (gap : Gap tokens [.space, .leftParen] f left.span.start)
    (placed : left.AllPlaced locale tokens) (trail : Gap tokens [.space, .rightParen] left.span.stop g)
    (operator : At tokens g ⟨.operator, op⟩) : Framed locale tokens g (.operation op left :: frames)
  | call {f g k : Int} {name text : String} {index : Nat} {arguments : List Expr} {frames : List Frame}
    (framed : Framed locale tokens f frames) (gap : Gap tokens [.space] f index)
    (word : At tokens index ⟨.symbol, name⟩) (between : Gap tokens [.space] index k)
    (opens : At tokens k ⟨.leftParen, text⟩) (lined : Lined locale tokens k g arguments) :
    Framed locale tokens g (.call name index arguments :: frames)
  | array {f g : Int} {text : String} {index : Nat} {rows : List (List Expr)} {row : List Expr}
    {frames : List Frame} (framed : Framed locale tokens f frames) (gap : Gap tokens [.space] f index)
    (opens : At tokens index ⟨.leftBrace, text⟩)
    (lined : Lined locale tokens index g (rows.flatten ++ row)) :
    Framed locale tokens g (.array index rows row :: frames)

/-- The operand is placed after the open constructs, with only parentheses between. -/
def Fits (locale : Locale) (tokens : List Token) (e : Expr) (frames : List Frame) : Prop :=
  ∃ f, Framed locale tokens f frames ∧ Gap tokens [.space, .leftParen] f e.span.start ∧
    e.AllPlaced locale tokens

/-- What a stage holds is in its place, the last token being at the given index. After an operand there
are only closing parentheses. -/
def Stage.Placed (locale : Locale) (tokens : List Token) (f : Int) : Stage → Prop
  | .operand frames => Framed locale tokens f frames
  | .argument name index arguments frames =>
    Framed locale tokens f (.call name index arguments :: frames)
  | .operator left frames =>
    Fits locale tokens left frames ∧ Gap tokens [.space, .rightParen] left.span.stop (f + 1)

/-- Closing operations leaves an operand that fits, and that ends where the last one did. -/
theorem Fits.close {binding : Nat} (h : close binding left frames = (operand, rest))
    (hleft : Fits locale tokens left frames) :
    Fits locale tokens operand rest ∧ operand.span.stop = left.span.stop := by
  induction frames generalizing left with
  | nil =>
    cases h
    exact ⟨hleft, rfl⟩
  | cons frame frames ih =>
    unfold Parser.close at h
    split at h
    · cases h
      exact ⟨hleft, rfl⟩
    · obtain ⟨f, hframes, hgap, hplaced⟩ := hleft
      cases hframes with
      | @marker f index _ _ framed before mark =>
        have hmarked : Gap tokens [.space, .leftParen] f (left.marked index).span.start := by
          rw [Expr.span_marked]
          exact before.mono (by simp)
        obtain ⟨hfits, hstop⟩ := ih h ⟨_, framed, hmarked, hplaced.marked mark hgap⟩
        exact ⟨hfits, hstop.trans (by rw [Expr.span_marked])⟩
      | sign framed before operator =>
        have hclosed := ih h ⟨_, framed, before.mono (by simp), allPlaced_of_stands rfl
          (.sign operator hgap rfl) (List.pairwise_singleton _ _) (List.forall_mem_singleton.mpr hplaced)⟩
        exact hclosed
      | operation framed before hother trail operator =>
        have hchildren := List.forall_mem_cons.mpr ⟨hother, List.forall_mem_singleton.mpr hplaced⟩
        have hclosed := ih h ⟨_, framed, before, allPlaced_of_stands rfl
          (.operation rfl trail operator hgap rfl) (List.pairwise_pair.mpr (trail.1.trans hgap.1)) hchildren⟩
        exact hclosed
      | group framed before opens =>
        cases h
        exact ⟨⟨_, .group framed before opens, hgap, hplaced⟩, rfl⟩
      | call framed before word between opens lined =>
        cases h
        exact ⟨⟨_, .call framed before word between opens lined, hgap, hplaced⟩, rfl⟩
      | array framed before opens lined =>
        cases h
        exact ⟨⟨_, .array framed before opens lined, hgap, hplaced⟩, rfl⟩

theorem Opens.placed (h : Opens t frames next) (hcovers : t.Covers locale tokens last)
    (hgap : Gap tokens [.space] f t.index) (hframes : Framed locale tokens f frames) :
    next.Placed locale tokens last := by
  cases h with
  | leaf e role =>
    obtain ⟨hplaced, hspan⟩ := hcovers.operand role
    refine ⟨⟨f, hframes, ?_, hplaced⟩, ?_⟩
    · rw [hspan]
      exact hgap.mono (by simp)
    · rw [hspan]
      exact Token.gap_succ last
  | call role =>
    obtain ⟨word, between, text, opens⟩ := hcovers.callStart role
    exact .call hframes hgap word between opens (.nil last)
  | marker role =>
    obtain ⟨mark, rfl⟩ := hcovers.punctuation (congrArg Terminal.Role.kind role) (by decide)
    exact .marker hframes hgap mark
  | group role =>
    obtain ⟨opens, rfl⟩ := hcovers.punctuation (congrArg Terminal.Role.kind role) (by decide)
    exact .group hframes hgap opens
  | array role =>
    obtain ⟨opens, rfl⟩ := hcovers.punctuation (congrArg Terminal.Role.kind role) (by decide)
    exact .array hframes hgap opens (.nil _)
  | sign role sign =>
    obtain ⟨operator, rfl⟩ := hcovers.punctuation (congrArg Terminal.Role.kind role) (by decide)
    exact .sign hframes hgap operator

/-- An argument that was left out stands at the token that follows. -/
theorem allPlaced_omitted {index : Nat} {u : Token} (hu : At tokens index u)
    (hkind : u.kind = .argSeparator ∨ u.kind = .rightParen) :
    (omitted index).AllPlaced locale tokens :=
  allPlaced_of_stands rfl (.omitted hu hkind rfl rfl) .nil (List.forall_mem_nil _)

/-- A call with its arguments between its parentheses; only the last one, if it was left out, stands at
the closing parenthesis. -/
theorem allPlaced_finishCall {k : Int} {name opening closing : String} {index stop : Nat}
    (word : At tokens index ⟨.symbol, name⟩) (between : Gap tokens [.space] index k)
    (opens : At tokens k ⟨.leftParen, opening⟩) (lined : Lined locale tokens k g es)
    (before : ∀ a ∈ es, a.span.stop < stop ∨
      a.isOmitted = true ∧ es.getLast? = some a ∧ a.span = ⟨stop, stop⟩)
    (order : k < stop) (closes : At tokens stop ⟨.rightParen, closing⟩) :
    (finishCall name index es stop).AllPlaced locale tokens :=
  allPlaced_of_stands rfl
    (.call word between opens (fun a ha => (lined.between a ha).1) before order closes) lined.apart
    lined.placed

theorem allPlaced_array {opening closing : String} {index stop : Nat} {rows : List (List Expr)}
    (opens : At tokens index ⟨.leftBrace, opening⟩) (lined : Lined locale tokens index g rows.flatten)
    (before : g < stop) (closes : At tokens stop ⟨.rightBrace, closing⟩) :
    (Expr.array ⟨"", false, ⟨index, stop⟩⟩ rows).AllPlaced locale tokens :=
  allPlaced_of_stands rfl (.array opens
    (fun c hc => ⟨(lined.between c hc).1, (lined.between c hc).2.trans_lt before⟩)
    (lined.le.trans_lt before) closes) lined.apart lined.placed

/-- One terminal carries on what is in its place. -/
theorem Moves.placed (h : Moves t stage next) (hcovers : t.Covers locale tokens last)
    (hgap : Gap tokens [.space] f t.index) (hstage : stage.Placed locale tokens f) :
    next.Placed locale tokens last := by
  have hpunctuation {role : Terminal.Role} (hrole : t.role = role) :=
    hcovers.punctuation (congrArg Terminal.Role.kind hrole)
  -- The operand that a bracket or an operator finds has only closing parentheses after it.
  have hclose {binding : Nat} {left operand : Expr} {frames rest : List Frame}
      (closed : close binding left frames = (operand, rest))
      (hleft : (Stage.operator left frames).Placed locale tokens f) :
      Fits locale tokens operand rest ∧ Gap tokens [.space, .rightParen] operand.span.stop t.index := by
    obtain ⟨hfits, hstop⟩ := hleft.1.close closed
    rw [hstop]
    exact ⟨hfits, hleft.2.append (hgap.mono (by simp))⟩
  cases h with
  | operand opens => exact opens.placed hcovers hgap hstage
  | argument opens => exact opens.placed hcovers hgap hstage
  | omitted role =>
    obtain ⟨separator, rfl⟩ := hpunctuation role (by decide)
    cases hstage with
    | call framed outer word between opens lined =>
      exact .call framed outer word between opens
        (lined.append (allPlaced_omitted separator (.inl rfl)) hgap.1 le_rfl)
  | lastOmitted role some =>
    obtain ⟨closes, rfl⟩ := hpunctuation role (by decide)
    cases hstage with
    | call framed outer word between opens lined =>
      have hlined := lined.append (allPlaced_omitted closes (.inr rfl)) hgap.1 le_rfl
      refine ⟨⟨_, framed, outer.mono (by simp), allPlaced_finishCall word between opens hlined
        (forall_mem_append_singleton (fun a ha => .inl ?_) (.inr ⟨rfl, by simp, rfl⟩)) ?_ closes⟩,
        Token.gap_succ _⟩
      · exact (lined.between a ha).2.trans_lt hgap.1
      · exact lined.le.trans_lt hgap.1
  | noArgument role =>
    obtain ⟨closes, rfl⟩ := hpunctuation role (by decide)
    cases hstage with
    | call framed outer word between opens lined =>
      exact ⟨⟨_, framed, outer.mono (by simp), allPlaced_finishCall word between opens lined
        (List.forall_mem_nil _) (lined.le.trans_lt hgap.1) closes⟩, Token.gap_succ _⟩
  | suffix role suffix closed =>
    obtain ⟨operator, rfl⟩ := hpunctuation role (by decide)
    obtain ⟨⟨g, framed, before, hplaced⟩, trail⟩ := hclose closed hstage
    exact ⟨⟨g, framed, before, allPlaced_of_stands rfl (.suffix rfl trail operator)
      (List.pairwise_singleton _ _) (List.forall_mem_singleton.mpr hplaced)⟩, Token.gap_succ _⟩
  | operation role binds binary closed =>
    obtain ⟨operator, rfl⟩ := hpunctuation role (by decide)
    obtain ⟨⟨g, framed, before, hplaced⟩, trail⟩ := hclose closed hstage
    exact .operation framed before hplaced trail operator
  | closeGroup role closed =>
    obtain ⟨closes, rfl⟩ := hpunctuation role (by decide)
    obtain ⟨⟨g, hframes, before, hplaced⟩, trail⟩ := hclose closed hstage
    cases hframes with
    | group framed outer opens =>
      exact ⟨⟨_, framed, (outer.mono (by simp)).trans opens (by simp) before, hplaced⟩,
        trail.snoc closes (by simp [Terminal.Role.kind])⟩
  | nextArgument role closed =>
    obtain ⟨separator, rfl⟩ := hpunctuation role (by decide)
    obtain ⟨⟨g, hframes, before, hplaced⟩, trail⟩ := hclose closed hstage
    cases hframes with
    | call framed outer word between opens lined =>
      exact .call framed outer word between opens (lined.append hplaced before.1 trail.1.le)
  | closeCall role closed =>
    obtain ⟨closes, rfl⟩ := hpunctuation role (by decide)
    obtain ⟨⟨g, hframes, before, hplaced⟩, trail⟩ := hclose closed hstage
    cases hframes with
    | call framed outer word between opens lined =>
      have hlined := lined.append hplaced before.1 le_rfl
      exact ⟨⟨_, framed, outer.mono (by simp), allPlaced_finishCall word between opens hlined
        (fun a ha => .inl ((hlined.between a ha).2.trans_lt trail.1)) (hlined.le.trans_lt trail.1) closes⟩,
        Token.gap_succ _⟩
  | nextCell role closed =>
    obtain ⟨separator, rfl⟩ := hpunctuation role (by decide)
    obtain ⟨⟨g, hframes, before, hplaced⟩, trail⟩ := hclose closed hstage
    cases hframes with
    | array framed outer opens lined =>
      refine .array framed outer opens ?_
      rw [← List.append_assoc]
      exact lined.append hplaced before.1 trail.1.le
  | nextRow role closed =>
    obtain ⟨separator, rfl⟩ := hpunctuation role (by decide)
    obtain ⟨⟨g, hframes, before, hplaced⟩, trail⟩ := hclose closed hstage
    cases hframes with
    | array framed outer opens lined =>
      refine .array framed outer opens ?_
      simpa using lined.append hplaced before.1 trail.1.le
  | closeArray role closed =>
    obtain ⟨closes, rfl⟩ := hpunctuation role (by decide)
    obtain ⟨⟨g, hframes, before, hplaced⟩, trail⟩ := hclose closed hstage
    cases hframes with
    | array framed outer opens lined =>
      have hlined := lined.append hplaced before.1 le_rfl
      refine ⟨⟨_, framed, outer.mono (by simp), allPlaced_array opens ?_ trail.1 closes⟩, Token.gap_succ _⟩
      simpa using hlined

theorem Reaches.placed {terminals : List Terminal} (h : Reaches stage terminals next)
    (hlaid : Terminal.Laid locale tokens f terminals) (hstage : stage.Placed locale tokens f) :
    ∃ g, next.Placed locale tokens g := by
  induction h generalizing f with
  | refl stage => exact ⟨f, hstage⟩
  | step moves reaches ih =>
    cases hlaid with
    | cons gap covers laid => exact ih laid (moves.placed covers gap hstage)

end Parser

theorem Expr.allPlaced_of_ofTokens {reading : Reading} {tokens : List Token} {root : Expr}
    (h : Expr.ofTokens reading tokens = .ok root) : root.AllPlaced reading.locale tokens := by
  unfold Expr.ofTokens at h
  rw [Terminal.ofTokens, Terminal.dropEquals_ofIndexed] at h
  split at h
  · cases h
  · obtain ⟨f, hsuccessive⟩ := Terminal.successive_significant tokens
    obtain ⟨left, frames, hreaches, hclose⟩ := Parser.reaches_of_run h
    obtain ⟨g, hlast⟩ := hreaches.placed (Terminal.laid_ofIndexed hsuccessive) (.nil f)
    obtain ⟨⟨-, -, -, hplaced⟩, -⟩ := hlast.1.close hclose
    exact hplaced

/-- Every node of a tree that is read covers tokens of the list, and on them stand its own words around
those of its children. -/
theorem Expr.placed_of_ofTokens {reading : Reading} {tokens : List Token} {root : Expr}
    (h : Expr.ofTokens reading tokens = .ok root) :
    ∀ n ∈ root.nodes, n.Placed reading.locale tokens :=
  Expr.allPlaced_of_ofTokens h

/-- Of a marked call over a joined range in parentheses, a sign before a percentage, an array and two
arguments that were left out. -/
theorem Expr.placed_of_marked_call :
    let tokens : List Token := [⟨.operator, "="⟩, ⟨.debugger, "?"⟩, ⟨.space, " "⟩, ⟨.symbol, "SUM"⟩,
      ⟨.leftParen, "("⟩, ⟨.leftParen, "("⟩, ⟨.reference, "A1"⟩, ⟨.space, " "⟩, ⟨.operator, ":"⟩,
      ⟨.reference, "B2"⟩, ⟨.rightParen, ")"⟩, ⟨.argSeparator, ","⟩, ⟨.operator, "-"⟩, ⟨.string, "x"⟩,
      ⟨.operator, "%"⟩, ⟨.operator, "*"⟩, ⟨.leftBrace, "\x7b"⟩, ⟨.reference, "C3"⟩, ⟨.rowSeparator, ";"⟩,
      ⟨.reference, "C4"⟩, ⟨.rightBrace, "\x7d"⟩, ⟨.argSeparator, ","⟩, ⟨.argSeparator, ","⟩,
      ⟨.rightParen, ")"⟩]
    ∃ root, Expr.ofTokens ⟨.canonical, some 6⟩ tokens = .ok root ∧ root.span = ⟨1, 23⟩ ∧
      root.children.map (·.span) = [⟨6, 9⟩, ⟨12, 20⟩, ⟨22, 22⟩, ⟨23, 23⟩] ∧
      ∀ n ∈ root.nodes, n.Placed .canonical tokens := by
  intro tokens
  obtain ⟨root, h, hspan, hchildren⟩ : ∃ root, Expr.ofTokens ⟨.canonical, some 6⟩ tokens = .ok root ∧
      root.span = ⟨1, 23⟩ ∧ root.children.map (·.span) = [⟨6, 9⟩, ⟨12, 20⟩, ⟨22, 22⟩, ⟨23, 23⟩] := by
    refine ⟨_, rfl, ?_, ?_⟩ <;> rfl
  exact ⟨root, h, hspan, hchildren, Expr.placed_of_ofTokens h⟩

end SheetFormula
