import Monkey.Token.Lexer

/-! The token stream of a text. The tokens before the first end-of-input mark are those of
the whole text when no null character stands in it, and the stream of a text that ends
with a semicolon is followed by the stream of whatever text is put behind it. -/

namespace Monkey

/-- What stands between the occurrences of a character does not hold it. -/
theorem not_mem_of_mem_splitOn {c : Char} {cs piece : List Char} (h : piece ∈ cs.splitOn c) :
    c ∉ piece := by
  induction cs generalizing piece with
  | nil =>
    rw [List.splitOn_nil, List.mem_singleton] at h
    simp [h]
  | cons d cs ih =>
    obtain ⟨first, rest, hcs⟩ := List.exists_cons_of_ne_nil (List.splitOn_ne_nil c cs)
    have hfirst : c ∉ first := ih (by simp [hcs])
    rw [List.splitOn_cons_eq_if_modifyHead, hcs, List.modifyHead_cons] at h
    split at h
    · rcases List.mem_cons.1 h with rfl | hmem
      · simp
      · exact ih (hcs ▸ hmem)
    · next hd =>
      rcases List.mem_cons.1 h with rfl | hmem
      · rw [List.mem_cons, not_or]
        exact ⟨fun hc => hd (by simp [hc]), hfirst⟩
      · exact ih (hcs ▸ List.mem_cons_of_mem _ hmem)

namespace Token

theorem ofWord_kind_ne (w : String) : (ofWord w).kind ≠ .endOfInput := by
  unfold ofWord Kind.ofWord
  split <;> simp

theorem ofSymbol_ne (c : Char) : Kind.ofSymbol c ≠ .endOfInput := by
  unfold Kind.ofSymbol
  split <;> simp

theorem lexeme_kind_ne {c : Char} {cs : List Char} (hc : c ≠ '\x00') :
    (lexeme c cs).1.kind ≠ .endOfInput := by
  unfold lexeme
  split
  · exact ofWord_kind_ne _
  · split
    · simp
    · split
      · simp
      · simp
      · rw [ofChar, if_neg hc]
        exact ofSymbol_ne c

theorem scan?_eq_none_iff {text : List Char} :
    scan? text = none ↔ text.dropWhile Char.isWhitespace = [] := by
  unfold scan?
  split <;> simp_all

theorem scan?_eq_some_iff {text rest : List Char} {t : Token} : scan? text = some (t, rest) ↔
    ∃ c cs, text.dropWhile Char.isWhitespace = c :: cs ∧ lexeme c cs = (t, rest) := by
  unfold scan?
  split
  · next hd => simp [hd]
  · next c cs hd =>
    rw [hd, Option.some.injEq]
    constructor
    · exact fun h => ⟨c, cs, rfl, h⟩
    · rintro ⟨_, _, h, hl⟩
      obtain ⟨rfl, rfl⟩ := List.cons.inj h
      exact hl

theorem lexeme_suffix (c : Char) (cs : List Char) : (lexeme c cs).2 <:+ cs := by
  unfold lexeme
  split
  · exact List.dropWhile_suffix isLetter
  · split
    · exact List.dropWhile_suffix Char.isDigit
    · split
      · exact List.suffix_cons '=' _
      · exact List.suffix_cons '=' _
      · exact List.suffix_refl cs

theorem scan?_unmarked {text rest : List Char} {t : Token} (h : scan? text = some (t, rest))
    (hn : '\x00' ∉ text) : t.kind ≠ .endOfInput ∧ '\x00' ∉ rest := by
  obtain ⟨c, cs, hd, hl⟩ := scan?_eq_some_iff.1 h
  have hsuffix : c :: cs <:+ text := hd ▸ List.dropWhile_suffix Char.isWhitespace
  have hc : c ≠ '\x00' := fun hc => hn (hsuffix.mem (by simp [hc]))
  have hrest := lexeme_suffix c cs
  rw [hl] at hrest
  constructor
  · have hk : (lexeme c cs).1.kind ≠ .endOfInput := lexeme_kind_ne hc
    rwa [hl] at hk
  · exact fun h0 => hn (hsuffix.mem (List.mem_cons_of_mem c (hrest.mem h0)))

end Token

/-- Tokens without an end-of-input mark among them. -/
def Unmarked (ts : List Token) : Prop := ∀ t ∈ ts, t.kind ≠ .endOfInput

theorem Unmarked.suffix {ts us : List Token} (h : Unmarked ts) (hs : us <:+ ts) : Unmarked us :=
  fun t ht => h t (hs.mem ht)

theorem Token.stream_unmarked {text : List Char} (hn : '\x00' ∉ text) : Unmarked (stream text) := by
  fun_induction stream text with
  | case1 => simp [Unmarked]
  | case2 text t rest h ih =>
    obtain ⟨hk, hrest⟩ := scan?_unmarked h hn
    simpa [Unmarked, hk] using ih hrest

/-- Reading in one go stops at the first mark. -/
theorem Lexer.collect_fst (text : List Char) : (Lexer.collect ⟨text⟩).1 =
    (Token.stream text).takeWhile fun t => decide (t.kind ≠ .endOfInput) := by
  fun_induction Token.stream text with
  | case1 text h => rw [collect_of_none h, List.takeWhile_nil]
  | case2 text t rest h ih =>
    by_cases hk : t.kind = .endOfInput
    · rw [collect_of_mark h hk, List.takeWhile_cons_of_neg (by simp [hk])]
    · rw [collect_of_token h hk, List.takeWhile_cons_of_pos (by simp [hk]), ← ih]

/-- A text without null characters is read in one go. -/
theorem lex_eq_tokens {source : String} (hn : '\x00' ∉ source.toList) :
    lex source = (Lexer.ofString source).tokens := by
  have hall : ∀ t ∈ Token.stream source.toList, decide (t.kind ≠ .endOfInput) = true :=
    fun t ht => decide_eq_true (Token.stream_unmarked hn t ht)
  have hrun := @List.takeWhile_append_of_pos _ _ _ [] hall
  rw [List.append_nil, List.takeWhile_nil, List.append_nil] at hrun
  exact (Lexer.collect_fst _).trans hrun

theorem lex_congr {a b : String} (h : (Lexer.ofString a).tokens = (Lexer.ofString b).tokens) :
    lex a = lex b := by
  rw [lex, lex, Lexer.ofString, Lexer.ofString, Lexer.collect_fst, Lexer.collect_fst]
  exact congrArg _ h

/-! ### Text put behind a text -/

namespace Token

theorem dropWhile_append_of_ne_nil {α : Type} {p : α → Bool} {as bs : List α}
    (h : as.dropWhile p ≠ []) : (as ++ bs).dropWhile p = as.dropWhile p ++ bs := by
  rw [List.dropWhile_append, if_neg (by simpa using h)]

theorem takeWhile_append_of_ne_nil {α : Type} {p : α → Bool} {as bs : List α}
    (h : as.dropWhile p ≠ []) : (as ++ bs).takeWhile p = as.takeWhile p := by
  rw [List.takeWhile_append, if_neg]
  intro hl
  have hlen := congrArg List.length (List.takeWhile_append_dropWhile (p := p) (l := as))
  rw [List.length_append, hl] at hlen
  exact h (List.length_eq_zero_iff.1 (by omega))

/-- A character that forms no word, number or operator of two characters is a token on its own. -/
theorem lexeme_single {c : Char} {cs : List Char} (hl : isLetter c = false)
    (hd : c.isDigit = false) (h2 : cs.head? = some '=' → c ≠ '=' ∧ c ≠ '!') :
    lexeme c cs = (ofChar c, cs) := by
  unfold lexeme
  rw [if_neg (by simp [hl]), if_neg (by simp [hd])]
  split
  · exact absurd rfl (h2 rfl).1
  · exact absurd rfl (h2 rfl).2
  · rfl

/-- A lexeme with text left behind it does not depend on what comes after that text. -/
theorem lexeme_append {c : Char} {cs : List Char} (h : (lexeme c cs).2 ≠ []) (bs : List Char) :
    lexeme c (cs ++ bs) = ((lexeme c cs).1, (lexeme c cs).2 ++ bs) := by
  by_cases hl : isLetter c = true
  · unfold lexeme at h ⊢
    rw [if_pos hl] at h ⊢
    rw [if_pos hl, takeWhile_append_of_ne_nil h, dropWhile_append_of_ne_nil h]
  by_cases hd : c.isDigit = true
  · unfold lexeme at h ⊢
    rw [if_neg hl, if_pos hd] at h ⊢
    rw [if_neg hl, if_pos hd, takeWhile_append_of_ne_nil h, dropWhile_append_of_ne_nil h]
  by_cases h2 : cs.head? = some '=' ∧ (c = '=' ∨ c = '!')
  · obtain ⟨hcs, hc⟩ := h2
    obtain ⟨ds, rfl⟩ := List.head?_eq_some_iff.1 hcs
    rcases hc with rfl | rfl <;> rfl
  · rw [Bool.not_eq_true] at hl hd
    have h2' : cs.head? = some '=' → c ≠ '=' ∧ c ≠ '!' := by
      intro hcs
      simpa [hcs] using h2
    rw [lexeme_single hl hd h2'] at h ⊢
    refine lexeme_single hl hd ?_
    obtain ⟨d, ds, rfl⟩ := List.exists_cons_of_ne_nil h
    exact h2'

/-- A text that goes on with no token in front of it. -/
def Apart (bs : List Char) : Prop :=
  ∀ c ∈ bs.head?, isLetter c = false ∧ c.isDigit = false ∧ c ≠ '='

theorem takeWhile_append_of_head {α : Type} {p : α → Bool} {bs : List α}
    (h : ∀ b ∈ bs.head?, p b = false) (as : List α) :
    (as ++ bs).takeWhile p = as.takeWhile p := by
  induction as with
  | nil => cases bs with
    | nil => rfl
    | cons b bs => simp [h b rfl]
  | cons a as ih => simp only [List.cons_append, List.takeWhile_cons, ih]

theorem dropWhile_append_of_head {α : Type} {p : α → Bool} {bs : List α}
    (h : ∀ b ∈ bs.head?, p b = false) (as : List α) :
    (as ++ bs).dropWhile p = as.dropWhile p ++ bs := by
  induction as with
  | nil => cases bs with
    | nil => rfl
    | cons b bs => simp [h b rfl]
  | cons a as ih =>
    rw [List.cons_append, List.dropWhile_cons, List.dropWhile_cons, ih]
    split <;> rfl

/-- A lexeme ends, at the latest, where a text stands that goes on with no token. -/
theorem lexeme_append_apart {bs : List Char} (h : Apart bs) (c : Char) (cs : List Char) :
    lexeme c (cs ++ bs) = ((lexeme c cs).1, (lexeme c cs).2 ++ bs) := by
  by_cases hl : isLetter c = true
  · have hletter : ∀ b ∈ bs.head?, isLetter b = false := fun b hb => (h b hb).1
    unfold lexeme
    rw [if_pos hl, if_pos hl, takeWhile_append_of_head hletter, dropWhile_append_of_head hletter]
  by_cases hd : c.isDigit = true
  · have hdigit : ∀ b ∈ bs.head?, b.isDigit = false := fun b hb => (h b hb).2.1
    unfold lexeme
    rw [if_neg hl, if_pos hd, if_neg hl, if_pos hd, takeWhile_append_of_head hdigit,
      dropWhile_append_of_head hdigit]
  rw [Bool.not_eq_true] at hl hd
  match cs with
  | [] =>
    have hequals : bs.head? = some '=' → c ≠ '=' ∧ c ≠ '!' :=
      fun hb => absurd rfl (h '=' hb).2.2
    rw [List.nil_append, lexeme_single hl hd hequals, lexeme_single hl hd (by simp)]
    rfl
  | d :: ds =>
    by_cases h2 : d = '=' ∧ (c = '=' ∨ c = '!')
    · obtain ⟨rfl, rfl | rfl⟩ := h2 <;> rfl
    · have hequals (ds' : List Char) : (d :: ds').head? = some '=' → c ≠ '=' ∧ c ≠ '!' := by
        intro hd'
        simpa [Option.some.inj hd'] using h2
      rw [List.cons_append, lexeme_single hl hd (hequals _), lexeme_single hl hd (hequals _)]
      rfl

theorem eq_semicolon {c : Char} {cs : List Char} (h : (lexeme c cs).1.kind = .semicolon) :
    c = ';' := by
  unfold lexeme at h
  split at h
  · unfold ofWord Kind.ofWord at h
    split at h <;> cases h
  · split at h
    · cases h
    · split at h
      · cases h
      · cases h
      · unfold ofChar at h
        split at h
        · cases h
        · revert h
          unfold Kind.ofSymbol
          split <;> simp

/-- Blanks in front of a text do not matter. -/
theorem stream_congr {as bs : List Char}
    (h : as.dropWhile Char.isWhitespace = bs.dropWhile Char.isWhitespace) :
    stream as = stream bs := by
  have hscan : scan? as = scan? bs := by rw [scan?, h, ← scan?]
  cases hb : scan? bs with
  | none => rw [stream_of_none (hscan.trans hb), stream_of_none hb]
  | some r => rw [stream_of_some (hscan.trans hb), stream_of_some hb]

/-- Where only blanks are left, what comes behind them is read. -/
theorem stream_append_of_none {as : List Char} (hs : scan? as = none) (bs : List Char) :
    stream (as ++ bs) = stream bs := by
  apply stream_congr
  rw [List.dropWhile_append, scan?_eq_none_iff.1 hs]
  rfl

/-- A token is read whatever comes behind, if its lexeme is. -/
theorem scan?_append {as bs rest : List Char} {t : Token} (hs : scan? as = some (t, rest))
    (h : ∀ c cs, lexeme c cs = (t, rest) → lexeme c (cs ++ bs) = (t, rest ++ bs)) :
    scan? (as ++ bs) = some (t, rest ++ bs) := by
  obtain ⟨c, cs, hd, hl⟩ := scan?_eq_some_iff.1 hs
  refine scan?_eq_some_iff.2 ⟨c, cs ++ bs, ?_, h c cs hl⟩
  rw [dropWhile_append_of_ne_nil (by simp [hd]), hd, List.cons_append]

theorem scan?_append_of_ne_nil {as rest : List Char} {t : Token} (hs : scan? as = some (t, rest))
    (hrest : rest ≠ []) (bs : List Char) : scan? (as ++ bs) = some (t, rest ++ bs) :=
  scan?_append hs fun c cs hl => by rw [lexeme_append (by rwa [hl]) bs, hl]

/-- The stream of a text that ends with a semicolon goes on with that of any text behind it. -/
theorem stream_append {as : List Char} (h : ∀ t ∈ (stream as).getLast?, t.kind = .semicolon)
    (bs : List Char) : stream (as ++ bs) = stream as ++ stream bs := by
  fun_induction stream as with
  | case1 as hs => exact stream_append_of_none hs bs
  | case2 as t rest hs ih =>
    have hscan : scan? (as ++ bs) = some (t, rest ++ bs) := by
      by_cases hrest : rest = []
      · refine scan?_append hs fun c cs hl => ?_
        rw [hrest, stream_nil] at h
        have hk : (lexeme c cs).1.kind = .semicolon := by simpa [hl] using h t rfl
        obtain rfl : c = ';' := eq_semicolon hk
        obtain ⟨rfl, rfl⟩ := Prod.mk.inj hl
        rfl
      · exact scan?_append_of_ne_nil hs hrest bs
    rw [stream_of_some hscan, ih, List.cons_append]
    intro t' ht'
    exact h t' (by simp [List.getLast?_cons, Option.mem_def.1 ht'])

theorem scan?_append_apart {as bs rest : List Char} {t : Token} (hs : scan? as = some (t, rest))
    (h : Apart bs) : scan? (as ++ bs) = some (t, rest ++ bs) :=
  scan?_append hs fun c cs hl => by rw [lexeme_append_apart h, hl]

/-- The stream of a text goes on with that of a text behind it which goes on with no token. -/
theorem stream_append_apart {bs : List Char} (h : Apart bs) (as : List Char) :
    stream (as ++ bs) = stream as ++ stream bs := by
  fun_induction stream as with
  | case1 as hs => exact stream_append_of_none hs bs
  | case2 as t rest hs ih =>
    rw [stream_of_some (scan?_append_apart hs h), ih, List.cons_append]

end Token

end Monkey
