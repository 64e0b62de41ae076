import Monkey.Proofs.Canonical
import Monkey.Proofs.Layout
import Monkey.Proofs.Nodes

/-! Chains of binary operators without parentheses. A chain is divided at the last of those operators
that bind most loosely, and then each side by itself; the tree that is had in this way is the one
that the chain is read as. Right operands take one level more for each of the four layers at most,
so a chain of any length can be read. -/

namespace Monkey

open Monkey.Derivation

/-! ### Terms -/

def UnaryOp.token (op : UnaryOp) : Token := ⟨op.kind, op.symbol⟩

def BinaryOp.token (op : BinaryOp) : Token := ⟨op.kind, op.symbol⟩

/-- A name, a number that a node can hold, or a truth value. -/
inductive Atom where
  | name (t : Token) (isName : t.IsName)
  | number (t : Token) (isNumber : t.IsNumber) (inRange : t.decimal ≤ 0x7fffffffffffffff)
  | boolean (value : Bool)

def Atom.token : Atom → Token
  | name t _ => t
  | number t _ _ => t
  | boolean true => ⟨.kwTrue, "true"⟩
  | boolean false => ⟨.kwFalse, "false"⟩

def Atom.tree : Atom → Expr
  | name t _ => .identifier (.ofToken t)
  | number t _ _ => .integer t (.ofNat t.decimal)
  | boolean value => .boolean (boolean value).token value

/-- An atom with prefix operators in front of it. -/
structure Term where
  operators : List UnaryOp
  atom : Atom
  few : operators.length ≤ 50

def Term.tokens (x : Term) : List Token := x.operators.map UnaryOp.token ++ [x.atom.token]

/-- The operator next to the atom is applied first. -/
def Term.tree (x : Term) : Expr :=
  x.operators.foldr (fun op e => .unary op.token op e) x.atom.tree

/-! ### Chains -/

/-- An operator and its right neighbour. -/
structure Link where
  op : BinaryOp
  term : Term

def Link.tokens (l : Link) : List Token := l.op.token :: l.term.tokens

structure Chain where
  first : Term
  links : List Link

def Chain.tokens (c : Chain) : List Token := c.first.tokens ++ c.links.flatMap Link.tokens

/-- The tokens of a chain, with spaces between them. -/
def Chain.text (c : Chain) : String := " ".intercalate (c.tokens.map Token.literal)

/-- Links divided at the last of those that bind most loosely. -/
structure Division (links : List Link) where
  before : List Link
  root : Link
  after : List Link
  eq : links = before ++ root :: after
  loosest : ∀ l ∈ before, root.op.layer ≤ l.op.layer
  last : ∀ l ∈ after, root.op.layer < l.op.layer

/-- The division of links with one more in front, which is the root only where all others bind more
tightly. -/
def Division.cons {links : List Link} (l : Link) (c : Division links) : Division (l :: links) :=
  if h : c.root.op.layer ≤ l.op.layer then
    { before := l :: c.before
      root := c.root
      after := c.after
      eq := congrArg (l :: ·) c.eq
      loosest := List.forall_mem_cons.2 ⟨h, c.loosest⟩
      last := c.last }
  else
    { before := []
      root := l
      after := links
      eq := rfl
      loosest := List.forall_mem_nil _
      last := by
        rw [c.eq]
        intro m hm
        rcases List.mem_append.1 hm with hm | hm
        · exact Nat.lt_of_lt_of_le (Nat.lt_of_not_le h) (c.loosest m hm)
        · rcases List.mem_cons.1 hm with rfl | hm
          · exact Nat.lt_of_not_le h
          · exact Nat.lt_trans (Nat.lt_of_not_le h) (c.last m hm) }

def divide : (links : List Link) → links ≠ [] → Division links
  | [], h => absurd rfl h
  | [l], _ => ⟨[], l, [], rfl, List.forall_mem_nil _, List.forall_mem_nil _⟩
  | l :: m :: links, _ => (divide (m :: links) (List.cons_ne_nil m links)).cons l

/-- The tree of a chain, by division. -/
def Chain.tree (c : Chain) : Expr :=
  if h : c.links = [] then c.first.tree
  else
    match divide c.links h with
    | ⟨before, root, after, _, _, _⟩ =>
      .binary root.op.token root.op (tree ⟨c.first, before⟩) (tree ⟨root.term, after⟩)
termination_by c.links.length
decreasing_by
  all_goals
    rename_i heq _ _
    have hlength := congrArg List.length heq
    simp only [List.length_append, List.length_cons] at hlength
    omega

/-- In two divisions of the same links one root is not in front of the other. -/
theorem Division.length_before_le {links : List Link} (c d : Division links) :
    d.before.length ≤ c.before.length := by
  have heq := c.eq.symm.trans d.eq
  rcases List.append_eq_append_iff.1 heq with ⟨as, hbefore, hafter⟩ | ⟨as, hbefore, -⟩
  · cases as with
    | nil => simp [hbefore]
    | cons l as =>
      obtain ⟨rfl, hrest : c.after = as ++ d.root :: d.after⟩ := List.cons.inj hafter
      have hle : d.root.op.layer ≤ c.root.op.layer := d.loosest _ (by simp [hbefore])
      have hlt : c.root.op.layer < d.root.op.layer := c.last _ (by simp [hrest])
      omega
  · simp [hbefore]

theorem Division.unique {links : List Link} (c d : Division links) : c = d := by
  have hlength := Nat.le_antisymm (d.length_before_le c) (c.length_before_le d)
  obtain ⟨before, root, after, heq, _, _⟩ := c
  obtain ⟨before', root', after', heq', _, _⟩ := d
  obtain ⟨rfl, hrest⟩ := List.append_inj (heq.symm.trans heq') hlength
  obtain ⟨rfl, rfl⟩ := List.cons.inj hrest
  rfl

namespace Chain

/-- The operator that links are divided at is the root of the tree, between the trees of both
sides. -/
theorem tree_division (x : Term) {links : List Link} (d : Division links) : tree ⟨x, links⟩ =
    .binary d.root.op.token d.root.op (tree ⟨x, d.before⟩) (tree ⟨d.root.term, d.after⟩) := by
  have hne : links ≠ [] := by
    rw [d.eq]
    simp
  rw [tree, dif_neg hne, Division.unique (divide links hne) d]

end Chain

/-! ### Derivations -/

theorem Atom.derived (a : Atom) : Expression 1 6 [a.token] a.tree := by
  cases a with
  | name t isName => exact .identifier isName.kind_eq
  | number t isNumber inRange => exact .integer isNumber.kind_eq inRange
  | boolean value => exact .boolean (by cases value <;> rfl)

theorem Term.derived (x : Term) : ∃ h ≤ 51, Expression h 4 x.tokens x.tree := by
  have hops (ops : List UnaryOp) : Expression (ops.length + 1) 4
      (ops.map UnaryOp.token ++ [x.atom.token])
      (ops.foldr (fun op e => .unary op.token op e) x.atom.tree) := by
    induction ops with
    | nil => exact .looser (by decide) x.atom.derived
    | cons op ops ih => exact .unary rfl ih
  exact ⟨_, Nat.succ_le_succ x.few, hops x.operators⟩

/-- In a chain of operators of a layer and tighter ones, each layer takes one level. -/
theorem Chain.derived (c : Chain) {k : Nat} (hk : k ≤ 4) (hc : ∀ l ∈ c.links, k ≤ l.op.layer) :
    ∃ h ≤ 55 - k, Expression h k c.tokens c.tree := by
  fun_induction tree c generalizing k with
  | case1 c hnil =>
    obtain ⟨h, hle, d⟩ := c.first.derived
    rw [tokens, hnil, List.flatMap_nil, List.append_nil]
    exact ⟨h, by omega, d.loosen hk⟩
  | case2 c hne before root after heq loosest last hdiv ihbefore ihafter =>
    have htokens : c.tokens = tokens ⟨c.first, before⟩ ++
        root.op.token :: tokens ⟨root.term, after⟩ := by
      rw [tokens, heq]
      simp [tokens, Link.tokens]
    have hroot : k ≤ root.op.layer := hc root (by rw [heq]; simp)
    have hlayer := root.op.layer_lt
    obtain ⟨h, hle, d⟩ := ihbefore (Nat.le_of_lt hlayer) loosest
    obtain ⟨h', hle', d'⟩ := ihafter hlayer last
    rw [htokens]
    refine ⟨max h (h' + 1), by omega, ?_⟩
    exact (Expression.binary d rfl (Nat.lt_succ_self _) d').loosen hroot

/-- The tokens of a chain are read as its tree. -/
theorem Chain.program_eq (c : Chain) : (Grammar.program c.tokens).diagnostics = [] ∧
    ∃ t ∈ c.tokens.head?, (Grammar.program c.tokens).value = ⟨[.exprStmt t c.tree]⟩ := by
  obtain ⟨h, hle, d⟩ := c.derived (Nat.zero_le 4) fun l _ => Nat.zero_le _
  obtain ⟨t, ts, hts, -⟩ := d.opens
  rw [hts] at d ⊢
  have hsentences : Sentences (max h 0) ((t :: ts ++ []) ++ List.replicate 0 .rightBrace)
      [.exprStmt t c.tree] := by
    rw [List.replicate_zero, List.append_nil]
    exact .unended (.exprStmt d) (by simp) .nil
  have hread := Grammar.program_of_sentences hsentences
  rw [List.append_nil, if_pos (Nat.max_le.2 ⟨Nat.le_trans hle (by decide), Nat.zero_le _⟩)] at hread
  exact ⟨hread.1, t, rfl, hread.2⟩

/-! ### Text -/

theorem Kind.ofWord_of_not_mem {w : String}
    (h : w ∉ ["fn", "let", "if", "else", "return", "true", "false"]) : ofWord w = .identifier := by
  unfold ofWord
  split <;> simp_all

namespace Token

theorem exists_ofList {t : Token} (h : t.literal ≠ "") :
    ∃ c cs, t.literal = String.ofList (c :: cs) := by
  cases hcs : t.literal.toList with
  | nil => exact absurd (String.toList_eq_nil_iff.1 hcs) h
  | cons c cs => exact ⟨c, cs, by rw [← hcs, String.ofList_toList]⟩

theorem IsName.lexed {t : Token} (h : t.IsName) : t.Lexed := by
  obtain ⟨c, cs, hcs⟩ := exists_ofList h.nonempty
  have hletters := h.letters
  rw [hcs, String.toList_ofList, List.forall_mem_cons] at hletters
  have ht : t = ofWord (String.ofList (c :: cs)) := by
    rw [ofWord, ← hcs, Kind.ofWord_of_not_mem h.no_keyword, ← h.kind_eq]
  exact ht ▸ .word hletters.1 hletters.2

theorem IsNumber.lexed {t : Token} (h : t.IsNumber) : t.Lexed := by
  obtain ⟨c, cs, hcs⟩ := exists_ofList h.nonempty
  have hdigits := h.digits
  rw [hcs, String.toList_ofList, List.forall_mem_cons] at hdigits
  have ht : t = ⟨.integer, String.ofList (c :: cs)⟩ := by rw [← hcs, ← h.kind_eq]
  exact ht ▸ .number hdigits.1 hdigits.2

theorem Lexed.legible {t : Token} (h : t.Lexed) (hk : t.kind.wordlike = true) : t.Legible :=
  fun _ hrest => h.stream_literal hk fun c hc => ⟨(hrest c hc).1, (hrest c hc).2.1⟩

/-- Tokens are laid out where a space stands between any two. -/
theorem layout_intercalate (ts : List Token) :
    Layout ts (" ".intercalate (ts.map literal)).toList := by
  induction ts with
  | nil => exact .nil
  | cons t ts ih =>
    cases ts with
    | nil =>
      have hlayout : Layout [t] (t.literal.toList ++ []) := .token (by simp) .nil
      simpa using hlayout
    | cons u ts =>
      have hspace : Layout (u :: ts) (' ' :: (" ".intercalate ((u :: ts).map literal)).toList) :=
        .blank rfl ih
      have hlayout := Layout.token (t := t) (by simp [Char.isWhitespace]) hspace
      rw [List.map_cons, List.map_cons, String.intercalate_cons_cons]
      simpa using hlayout

end Token

theorem UnaryOp.legible (op : UnaryOp) : op.token.Legible := by
  have htext : '\x00' ∉ op.symbol.toList ++ [] := by cases op <;> decide
  have hstream := op.stream_symbol (show [].head? ≠ some '=' by simp)
  exact Token.stream_legible htext op.token (by rw [hstream]; exact List.mem_cons_self)

theorem BinaryOp.legible (op : BinaryOp) : op.token.Legible := by
  have htext : '\x00' ∉ op.symbol.toList ++ [' '] := by cases op <;> decide
  have hstream := op.stream_symbol []
  exact Token.stream_legible htext op.token (by rw [hstream]; exact List.mem_cons_self)

theorem Atom.lexed (a : Atom) : a.token.Lexed := by
  match a with
  | name t isName => exact isName.lexed
  | number t isNumber _ => exact isNumber.lexed
  | boolean true => exact @Token.Lexed.word 't' ['r', 'u', 'e'] rfl (List.all_eq_true.1 rfl)
  | boolean false => exact @Token.Lexed.word 'f' ['a', 'l', 's', 'e'] rfl (List.all_eq_true.1 rfl)

theorem Atom.wordlike (a : Atom) : a.token.kind.wordlike = true := by
  match a with
  | name t isName => exact congrArg Kind.wordlike isName.kind_eq
  | number t isNumber _ => exact congrArg Kind.wordlike isNumber.kind_eq
  | boolean true => rfl
  | boolean false => rfl

theorem Term.legible (x : Term) : ∀ t ∈ x.tokens, t.Legible := by
  intro t ht
  rcases List.mem_append.1 ht with ht | ht
  · obtain ⟨op, -, rfl⟩ := List.mem_map.1 ht
    exact op.legible
  · rw [List.mem_singleton.1 ht]
    exact x.atom.lexed.legible x.atom.wordlike

theorem Chain.legible (c : Chain) : ∀ t ∈ c.tokens, t.Legible := by
  intro t ht
  rcases List.mem_append.1 ht with ht | ht
  · exact c.first.legible t ht
  · obtain ⟨l, -, hl⟩ := List.mem_flatMap.1 ht
    rcases List.mem_cons.1 hl with rfl | hl
    · exact l.op.legible
    · exact l.term.legible t hl

/-- The tokens of a chain are read off its text. -/
theorem Chain.tokens_text (c : Chain) : (Lexer.ofString c.text).tokens = c.tokens :=
  (Token.layout_intercalate c.tokens).stream_eq c.legible

/-- A chain of any length is read as the tree that is had by dividing it: one statement, whose root
is the last of the operators that bind most loosely, with the trees of both sides below it. -/
theorem parse_chain (c : Chain) :
    (parse c.text).diagnostics = [] ∧
    (∃ t ∈ c.tokens.head?, (parse c.text).value = ⟨[.exprStmt t c.tree]⟩) ∧
    (c.links = [] → c.tree = c.first.tree) ∧
    (c.links ≠ [] → ∃ d : Division c.links, c.tree = .binary d.root.op.token d.root.op
      (Chain.tree ⟨c.first, d.before⟩) (Chain.tree ⟨d.root.term, d.after⟩)) := by
  obtain ⟨hnone, hvalue⟩ := c.program_eq
  rw [parse, c.tokens_text]
  refine ⟨hnone, hvalue, fun hnil => ?_, fun hne => ⟨divide c.links hne, ?_⟩⟩
  · rw [Chain.tree, dif_pos hnil]
  · exact Chain.tree_division c.first (divide c.links hne)

/-- Every operator stands by itself in the text of a chain. -/
example : Chain.text ⟨⟨[.bang, .minus], .boolean true, by decide⟩,
    [⟨.equal, ⟨[], .boolean false, by decide⟩⟩]⟩ = "! - true == false" := by decide

end Monkey
