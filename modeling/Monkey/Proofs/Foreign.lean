import Monkey.Proofs.Brackets
import Monkey.Proofs.Causes
import Monkey.Proofs.Nodes

/-! Foreign characters. A token that holds one belongs to no construct, so it is kept in no node, and
a diagnostic tells its kind and not its text; whatever a source is made of, nothing that is said about
it contains such a character. -/

namespace Monkey

/-! ### Nodes -/

def Node.token : Node → Token
  | .expression e => e.token
  | .block b => b.token
  | .statement s => s.token
  | .name n => n.token

/-- The token has been read off a text and is not foreign. -/
def Token.Native (t : Token) : Prop := t.Lexed ∧ t.kind ≠ .illegal

theorem Token.Spells.native {t : Token} {k : Kind} (h : t.Spells k) (hk : k ≠ .illegal) : t.Native :=
  ⟨h.1, h.2 ▸ hk⟩

theorem Token.Native.printable {t : Token} (h : t.Native) : Printable t.literal := h.1.printable h.2

theorem Expr.Faithful.native_token {e : Expr} (h : e.Faithful) : e.token.Native := by
  cases h with
  | identifier hn => exact hn.1.native (by decide)
  | integer ht _ => exact ht.native (by decide)
  | @boolean t v ht => exact ht.native (by cases v <;> decide)
  | @unary t op _ ht _ => exact ht.native (by cases op <;> decide)
  | @binary t op _ _ ht _ _ => exact ht.native (by cases op <;> decide)
  | ifElse ht _ _ _ => exact ht.native (by decide)
  | function ht _ _ => exact ht.native (by decide)
  | call ht _ _ => exact ht.native (by decide)

theorem Expr.Faithful.native_head : {e : Expr} → e.Faithful → e.head.Native
  | .identifier _, h | .integer _ _, h | .boolean _ _, h | .unary _ _ _, h | .ifElse _ _ _ _, h
  | .function _ _ _, h => h.native_token
  | .binary _ _ l _, h => by
    cases h with
    | binary _ hl _ => exact hl.native_head
  | .call _ f _, h => by
    cases h with
    | call _ hf _ => exact hf.native_head

theorem Node.Faithful.native_token {n : Node} (h : n.Faithful) : n.token.Native := by
  cases n with
  | expression e => exact Expr.Faithful.native_token h
  | name n => exact h.1.native (by decide)
  | block b =>
    cases h with
    | mk ht _ => exact ht.native (by decide)
  | statement s =>
    cases h with
    | letStmt ht _ _ => exact ht.native (by decide)
    | returnStmt ht _ => exact ht.native (by decide)
    | exprStmt hstart he =>
      rcases hstart with rfl | ht
      · exact he.native_head
      · exact ht.native (by decide)

theorem Program.printable_tokenLiteral {p : Program} (h : ∀ s ∈ p.statements, s.Faithful) :
    Printable p.tokenLiteral := by
  unfold tokenLiteral
  split
  · decide
  · next s ss hss =>
    have hs : (Node.statement s).Faithful := h s (by rw [hss]; exact List.mem_cons_self)
    exact hs.native_token.printable

/-! ### Diagnostics -/

/-- The words around a text. -/
theorem Printable.between {s t u : String} (ht : Printable t)
    (hwords : Printable s ∧ Printable u) : Printable (s ++ t ++ u) :=
  printable_append.2 ⟨printable_append.2 ⟨hwords.1, ht⟩, hwords.2⟩

/-- The text of a diagnostic has from the source only the digits of a number. -/
theorem Diagnostic.Fits.printable_message {d : Diagnostic} {ts : List Token} (h : d.Fits ts)
    (hts : ∀ t ∈ ts, t.Lexed) : Printable d.message := by
  cases d with
  | unexpected want got =>
    have hfirst : Printable ("expected next token to be " ++ want.name ++ ", got ") :=
      .between want.printable_name (by decide)
    exact printable_append.2 ⟨printable_append.2 ⟨hfirst, got.printable_name⟩, by decide⟩
  | noOperand got => exact .between got.printable_name (by decide)
  | integerTooLarge literal =>
    obtain ⟨hk, rfl, -⟩ := h
    have hnative : (ts.headD .endOfInput).Native := ⟨Parser.headD_lexed hts, hk ▸ nofun⟩
    exact .between hnative.printable (by decide)
  | nestingTooDeep limit =>
    obtain rfl : limit = Grammar.maxNesting := h
    decide +kernel

/-! ### Traces -/

theorem traceText_chars (cs : List Call) : ∀ c ∈ (traceText cs).toList,
    isPrintable c = true ∨ c = '\t' ∨ c = '\n' := by
  intro c hc
  rw [traceText_eq_text, Bracket.text, String.toList_ofList] at hc
  obtain ⟨l, hl, hmem⟩ := List.mem_flatMap.1 hc
  rcases List.mem_append.1 hmem with hmem | hmem
  · rcases Call.tab_or_printable_linesAll 0 cs l hl c hmem with htab | hprintable
    · exact .inr (.inl htab)
    · exact .inl hprintable
  · exact .inr (.inr (List.mem_singleton.1 hmem))

/-- Whatever characters a source is made of, the canonical text of its program and of each statement,
the literal that opens the program and the messages are printable ASCII, a trace has tabs and newlines
besides, and no node of the program keeps a foreign token. -/
theorem parse_printable (source : String) :
    (∀ s ∈ (parse source).value.statements, Printable s.render) ∧
    Printable (parse source).value.render ∧ Printable (parse source).value.tokenLiteral ∧
    (∀ d ∈ (parse source).diagnostics, Printable d.message) ∧
    (∀ c ∈ (traceText (parse source).calls).toList, isPrintable c = true ∨ c = '\t' ∨ c = '\n') ∧
    ∀ n : Node, n.Of (parse source).value → n.token.kind ≠ .illegal := by
  have hfaithful := parse_faithful source
  refine ⟨fun s hs => s.printable (hfaithful s hs), Statement.printable_all _ hfaithful,
    Program.printable_tokenLiteral hfaithful, fun d hd => ?_, traceText_chars _,
    fun n hn => (hn.faithful hfaithful).native_token.2⟩
  obtain ⟨ts, hts, hfits⟩ := parse_diagnostics_fit source d hd
  exact hfits.printable_message fun t ht => Token.stream_lexed source.toList t (hts.mem ht)

/-- Foreign characters in a `let`, an argument list, a sum and a number. -/
example : (parse "let \x1b = 1; f(\x07); a + é; 9\x1b9").value.render = "199" := by decide +kernel

end Monkey
