import Monkey.Proofs.Machine.Termination
import Monkey.Proofs.Tiling

/-! The layout of a text. What a token was read from is read as that token again wherever a blank
or the end stands behind it, so the tokens of a text can be written out with any blanks around
them, as long as some stand between any two: the same tokens are read, and the machine does the
same with them, whatever it writes its trace to. -/

namespace Monkey

namespace Token

/-- A text in which these tokens are written out in order, with blanks around them, and at least
one between any two. -/
inductive Layout : List Token → List Char → Prop where
  | nil : Layout [] []
  | blank {c : Char} {ts : List Token} {text : List Char} :
    c.isWhitespace = true → Layout ts text → Layout ts (c :: text)
  | token {t : Token} {ts : List Token} {text : List Char} :
    (∀ c ∈ text.head?, c.isWhitespace = true) → Layout ts text →
    Layout (t :: ts) (t.literal.toList ++ text)

theorem apart_of_blank {text : List Char} (h : ∀ c ∈ text.head?, c.isWhitespace = true) :
    Apart text := by
  intro c hc
  have hblank := h c hc
  refine ⟨?_, ?_, ?_⟩
  · rw [Bool.eq_false_iff]
    intro hl
    rw [isWhitespace_of_isLetter hl] at hblank
    cases hblank
  · rw [Bool.eq_false_iff]
    intro hd
    rw [isWhitespace_of_isDigit hd] at hblank
    cases hblank
  · rintro rfl
    cases hblank

/-- The literal of a token is what it was read from. -/
theorem Munches.literal_eq {m rest : List Char} {t : Token} (h : Munches m rest t)
    (ht : t.kind ≠ .endOfInput) : t.literal.toList = m := by
  cases h with
  | word => exact String.toList_ofList
  | number => exact String.toList_ofList
  | equal => rfl
  | notEqual => rfl
  | symbol => simp
  | foreign => simp
  | null => exact absurd rfl ht
  | ended => exact absurd rfl ht

/-- A token that was read can be read in front of any text that goes on with no token. -/
theorem Munches.apart {m rest rest' : List Char} {t : Token} (h : Munches m rest t)
    (ht : t.kind ≠ .endOfInput) (hrest : Apart rest') : Munches m rest' t := by
  cases h with
  | word hne hm _ => exact .word hne hm fun c hc => (hrest c hc).1
  | number hne hm _ => exact .number hne hm fun c hc => (hrest c hc).2.1
  | equal => exact .equal
  | notEqual => exact .notEqual
  | symbol hname _ => exact .symbol hname fun h2 => (hrest '=' h2.1).2.2 rfl
  | foreign hl hd h0 hname => exact .foreign hl hd h0 hname
  | null => exact .null
  | ended => exact absurd rfl ht

/-- A token whose literal is read as that token in front of any text that goes on with none. -/
def Legible (t : Token) : Prop :=
  ∀ rest, Apart rest → stream (t.literal.toList ++ rest) = t :: stream rest

/-- The tokens of a text without null characters are legible, foreign characters included. -/
theorem stream_legible {text : List Char} (hn : '\x00' ∉ text) : ∀ t ∈ stream text, t.Legible := by
  fun_induction stream text with
  | case1 => simp
  | case2 text t rest hs ih =>
    obtain ⟨ht, hrest⟩ := scan?_unmarked hs hn
    rw [List.forall_mem_cons]
    refine ⟨fun rest' hapart => ?_, ih hrest⟩
    obtain ⟨c, cs, hd, hl⟩ := scan?_eq_some_iff.1 hs
    have hblank : c.isWhitespace = false := by
      have hhead := head?_dropWhile Char.isWhitespace text
      rw [hd] at hhead
      exact hhead c rfl
    obtain ⟨m, hm, hmunches⟩ := lexeme_munches c cs
    rw [hl] at hm hmunches
    have hread := hmunches.apart ht hapart
    cases m with
    | nil => exact absurd (congrArg Token.kind hmunches.rest_eq_nil.2) ht
    | cons d m =>
      obtain ⟨rfl, -⟩ := List.cons.inj hm
      rw [hmunches.literal_eq ht, List.cons_append, stream_lexeme hblank, hread.lexeme_eq]

/-- Legible tokens are read off a text in which they are laid out. -/
theorem Layout.stream_eq {ts : List Token} {text : List Char} (h : Layout ts text)
    (hts : ∀ t ∈ ts, t.Legible) : stream text = ts := by
  induction h with
  | nil => exact stream_nil
  | blank hc _ ih => rw [stream_blank hc, ih hts]
  | token hhead _ ih =>
    obtain ⟨ht, hts⟩ := List.forall_mem_cons.1 hts
    rw [ht _ (apart_of_blank hhead), ih hts]

end Token

open Machine

/-- The layout of a text has no influence. A text in which the tokens of a source are laid out has
the same tokens, and the machine reads the same program off it, with the same reports, and leaves
its sink the same. -/
theorem parse_of_layout {source text : String} (hn : '\x00' ∉ source.toList)
    (h : Token.Layout (lex source) text.toList) :
    lex text = lex source ∧ parse text = parse source ∧
    ∀ sink : Option Sink,
      let read := Reading.program { Reading.ofLexer (Lexer.ofString source) with sink := sink }
      (∃ s es, Routine.program.Runs (State.ofLexer (Lexer.ofString source) sink)
        (some read.1) s es ∧ s.Holds read.2) ∧
      (∃ s es, Routine.program.Runs (State.ofLexer (Lexer.ofString text) sink)
        (some read.1) s es ∧ s.Holds read.2) := by
  have htokens : (Lexer.ofString text).tokens = (Lexer.ofString source).tokens := by
    rw [lex_eq_tokens hn] at h
    exact h.stream_eq (Token.stream_legible hn)
  refine ⟨lex_congr htokens, congrArg Grammar.program htokens, fun sink => ⟨?_, ?_⟩⟩
  · exact exists_program_runs _ sink
  · have hread : Reading.ofLexer (Lexer.ofString text) = Reading.ofLexer (Lexer.ofString source) := by
      rw [Reading.ofLexer, htokens, ← Reading.ofLexer]
    rw [← hread]
    exact exists_program_runs _ sink

/-- Words, numbers and foreign characters laid out anew. -/
theorem parse_of_layout_blanks :
    lex "\n let\té\r=  5 ;" = lex "let é=5;" ∧ parse "\n let\té\r=  5 ;" = parse "let é=5;" := by
  have hn : '\x00' ∉ "let é=5;".toList := by decide
  have h : Token.Layout (lex "let é=5;") "\n let\té\r=  5 ;".toList := by
    have hlex : lex "let é=5;" = [⟨.kwLet, "let"⟩, ⟨.illegal, "é"⟩, ⟨.assign, "="⟩,
        ⟨.integer, "5"⟩, ⟨.semicolon, ";"⟩] := by decide +kernel
    have htext : "\n let\té\r=  5 ;".toList = '\n' :: ' ' :: ("let".toList ++
        '\t' :: ("é".toList ++ '\r' :: ("=".toList ++ ' ' :: ' ' :: ("5".toList ++
        ' ' :: (";".toList ++ []))))) := by decide +kernel
    rw [hlex, htext]
    refine .blank rfl (.blank rfl (.token ?_ (.blank rfl (.token ?_ (.blank rfl (.token ?_
      (.blank rfl (.blank rfl (.token ?_ (.blank rfl (.token ?_ .nil)))))))))))
    all_goals simp [Char.isWhitespace]
  obtain ⟨hlex, hparse, -⟩ := parse_of_layout hn h
  exact ⟨hlex, hparse⟩

end Monkey
