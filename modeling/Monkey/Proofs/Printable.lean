import Monkey.Proofs.Agreement
import Monkey.Proofs.Tiling
import Monkey.Tree.Printer

/-! Printed text. A token that is not foreign is made of letters, digits and symbols, and a tree
keeps no other tokens; so whatever characters a source has, the canonical text of what is read from
it is printable ASCII, and each statement is printed on one line. -/

namespace Monkey

/-- An ASCII character from the space to the tilde. -/
def isPrintable (c : Char) : Bool := 32 ≤ c.toNat && c.toNat ≤ 126

def Printable (text : String) : Prop := text.toList.all isPrintable = true

instance (text : String) : Decidable (Printable text) := inferInstanceAs (Decidable (_ = true))

theorem printable_iff {text : String} : Printable text ↔ ∀ c ∈ text.toList, isPrintable c = true :=
  List.all_eq_true

@[simp]
theorem printable_append {s t : String} : Printable (s ++ t) ↔ Printable s ∧ Printable t := by
  rw [Printable, String.toList_append, List.all_append, Bool.and_eq_true, Printable, Printable]

theorem Printable.intercalate {s : String} {ts : List String} (hs : Printable s)
    (hts : ∀ t ∈ ts, Printable t) : Printable (s.intercalate ts) := by
  induction ts with
  | nil =>
    rw [String.intercalate_nil]
    decide
  | cons t ts ih =>
    obtain ⟨ht, hts⟩ := List.forall_mem_cons.1 hts
    cases ts with
    | nil => simpa using ht
    | cons u us => simp only [String.intercalate_cons_cons, printable_append, ht, hs, ih hts, and_self]

theorem Printable.newline_not_mem {text : String} (h : Printable text) : '\n' ∉ text.toList :=
  fun hmem => absurd (printable_iff.1 h '\n' hmem) (by decide)

/-! ### Tokens -/

theorem Kind.printable_name (k : Kind) : Printable k.name := by
  cases k <;> decide

theorem isPrintable_of_isDigit {c : Char} (h : c.isDigit = true) : isPrintable c = true := by
  simp only [Char.isDigit, Bool.and_eq_true, decide_eq_true_eq] at h
  simp only [isPrintable, Bool.and_eq_true, decide_eq_true_eq]
  have hrange : 48 ≤ c.toNat ∧ c.toNat ≤ 57 := h
  omega

theorem isPrintable_of_isLetter {c : Char} (h : isLetter c = true) : isPrintable c = true := by
  change (decide (65 ≤ c.val ∧ c.val ≤ 90) || decide (97 ≤ c.val) && decide (c.val ≤ 122) ||
    c == '_') = true at h
  simp only [Bool.or_eq_true, Bool.and_eq_true, decide_eq_true_eq, beq_iff_eq] at h
  simp only [isPrintable, Bool.and_eq_true, decide_eq_true_eq]
  rcases h with (hupper | hlower) | rfl
  · have hrange : 65 ≤ c.toNat ∧ c.toNat ≤ 90 := hupper
    omega
  · have hrange : 97 ≤ c.toNat ∧ c.toNat ≤ 122 := hlower
    omega
  · decide

theorem Token.Lexed.printable {t : Token} (h : t.Lexed) (hk : t.kind ≠ .illegal) :
    Printable t.literal := by
  cases h with
  | word hc hcs =>
    refine printable_iff.2 fun d hd => ?_
    rw [ofWord, String.toList_ofList] at hd
    rcases List.mem_cons.1 hd with rfl | hmem
    · exact isPrintable_of_isLetter hc
    · exact isPrintable_of_isLetter (hcs d hmem)
  | number hc hcs =>
    refine printable_iff.2 fun d hd => ?_
    rw [String.toList_ofList] at hd
    rcases List.mem_cons.1 hd with rfl | hmem
    · exact isPrintable_of_isDigit hc
    · exact isPrintable_of_isDigit (hcs d hmem)
  | equal => exact Kind.printable_name .equal
  | notEqual => exact Kind.printable_name .notEqual
  | @single c _ _ =>
    unfold ofChar at hk ⊢
    split
    · decide
    · next hc =>
      rw [if_neg hc] at hk
      rw [← Kind.name_ofSymbol hk]
      exact Kind.printable_name _

theorem Token.Spells.printable {t : Token} {k : Kind} (h : t.Spells k) (hk : k ≠ .illegal) :
    Printable t.literal := h.1.printable (h.2 ▸ hk)

theorem Identifier.Faithful.printable {n : Identifier} (h : n.Faithful) : Printable n.value :=
  h.2 ▸ h.1.printable (by decide)

/-! ### Trees -/

theorem UnaryOp.printable_symbol (op : UnaryOp) : Printable op.symbol := Kind.printable_name _

theorem BinaryOp.printable_symbol (op : BinaryOp) : Printable op.symbol := Kind.printable_name _

mutual

theorem Expr.printable : ∀ e : Expr, e.Faithful → Printable e.render
  | .identifier n, h => by
    cases h with
    | identifier hn => exact hn.printable
  | .integer t v, h => by
    cases h with
    | integer ht _ => exact ht.printable (by decide)
  | .boolean t v, h => by
    cases h with
    | boolean ht => exact ht.printable (by cases v <;> decide)
  | .unary t op e, h => by
    cases h with
    | unary _ he =>
      have hoperand := Expr.printable e he
      simp +decide [Expr.render, op.printable_symbol, hoperand]
  | .binary t op l r, h => by
    cases h with
    | binary _ hl hr =>
      have hleft := Expr.printable l hl
      have hright := Expr.printable r hr
      simp +decide [Expr.render, op.printable_symbol, hleft, hright]
  | .ifElse t c b a, h => by
    cases h with
    | ifElse _ hc hb ha =>
      have hcondition := Expr.printable c hc
      have hconsequence := Block.printable b hb
      have halternative := Block.printable_else a ha
      simp +decide [Expr.render, hcondition, hconsequence, halternative]
  | .function t ps b, h => by
    cases h with
    | function ht hps hb =>
      have hparameters : Printable (", ".intercalate (ps.map Identifier.value)) := by
        refine .intercalate (by decide) fun text htext => ?_
        obtain ⟨n, hn, rfl⟩ := List.mem_map.1 htext
        exact (hps n hn).printable
      have hbody := Block.printable b hb
      simp +decide [Expr.render, ht.printable, hparameters, hbody]
  | .call t f es, h => by
    cases h with
    | call _ hf hes =>
      have hcallee := Expr.printable f hf
      have harguments : Printable (", ".intercalate (Expr.renderAll es)) :=
        .intercalate (by decide) (Expr.printable_all es hes)
      simp +decide [Expr.render, hcallee, harguments]

theorem Expr.printable_all : ∀ es : List Expr, (∀ e ∈ es, e.Faithful) →
    ∀ text ∈ Expr.renderAll es, Printable text
  | [], _ => nofun
  | e :: es, h => by
    rw [List.forall_mem_cons] at h
    exact List.forall_mem_cons.2 ⟨Expr.printable e h.1, Expr.printable_all es h.2⟩

theorem Block.printable : ∀ b : Block, b.Faithful → Printable b.render
  | ⟨_, ss⟩, h => by
    cases h with
    | mk _ hss => exact Statement.printable_all ss hss

theorem Block.printable_else : ∀ a : Option Block, (∀ b ∈ a, b.Faithful) →
    Printable (Block.renderElse a)
  | none, _ => by decide
  | some b, h => by
    have hblock := Block.printable b (h b rfl)
    simp +decide [Block.renderElse, hblock]

theorem Statement.printable : ∀ s : Statement, s.Faithful → Printable s.render
  | .letStmt t n e, h => by
    cases h with
    | letStmt ht hn he =>
      have hvalue := Expr.printable e he
      simp +decide [Statement.render, ht.printable, hn.printable, hvalue]
  | .returnStmt t e, h => by
    cases h with
    | returnStmt ht he =>
      have hvalue := Expr.printable e he
      simp +decide [Statement.render, ht.printable, hvalue]
  | .exprStmt t e, h => by
    cases h with
    | exprStmt _ he => exact Expr.printable e he

theorem Statement.printable_all : ∀ ss : List Statement, (∀ s ∈ ss, s.Faithful) →
    Printable (Statement.renderAll ss)
  | [], _ => by decide
  | s :: ss, h => by
    rw [List.forall_mem_cons] at h
    have hfirst := Statement.printable s h.1
    have hrest := Statement.printable_all ss h.2
    simp [Statement.renderAll, hfirst, hrest]

end

end Monkey
