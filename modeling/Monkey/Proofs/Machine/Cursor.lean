import Monkey.Machine.Cursor
import Monkey.Proofs.Tiling

/-! A cursor reads the text ahead of it. Wherever the cursor stands, its three other fields are
determined by its place, and what it does next depends on the text from there on alone: the loops
come to their ends, and the tokens are those that the text is tiled by. So a cursor that has given
some tokens is as good as a new one on the rest of the text. -/

namespace Monkey.Machine

namespace Cursor

variable {c : Cursor} {text : List Char}

/-- The cursor stands in front of this text, which goes on to the end. -/
structure Faces (c : Cursor) (text : List Char) : Prop where
  ahead : c.text.toList.drop c.place = text
  place_le : c.place ≤ c.text.size
  next_eq : c.next = min (c.place + 1) c.text.size
  current_eq : c.current = text.headD '\x00'

/-! ### Characters -/

theorem Faces.drop_next (h : c.Faces text) : c.text.toList.drop c.next = text.tail := by
  rw [← h.ahead, List.tail_drop, h.next_eq]
  by_cases hn : c.place + 1 ≤ c.text.size
  · rw [Nat.min_eq_left hn]
  · rw [Nat.min_eq_right (by omega), List.drop_eq_nil_of_le (by simp),
      List.drop_eq_nil_of_le (by simp; omega)]

theorem Faces.getElem?_next (h : c.Faces text) : c.text[c.next]? = text.tail.head? := by
  rw [← h.drop_next, List.head?_drop, Array.getElem?_toList]

theorem Faces.peek (h : c.Faces text) : c.peek = text.tail.headD '\x00' := by
  rw [Cursor.peek, h.getElem?_next, List.headD_eq_head?_getD]

theorem Faces.read (h : c.Faces text) : c.read.Faces text.tail := by
  have hnext := h.getElem?_next
  have hdrop := h.drop_next
  unfold Cursor.read
  cases ht : text.tail with
  | nil =>
    rw [ht] at hnext
    simp only [hnext, List.head?_nil]
    exact ⟨by simp, Nat.le_refl _, by simp, rfl⟩
  | cons d ds =>
    rw [ht] at hnext hdrop
    simp only [hnext, List.head?_cons]
    have hlt : c.next < c.text.size := by
      have hlength := congrArg List.length hdrop
      simp at hlength
      omega
    refine ⟨hdrop, Nat.le_of_lt hlt, ?_, rfl⟩
    change c.next + 1 = min (c.next + 1) c.text.size
    omega

theorem read_text (c : Cursor) : c.read.text = c.text := by
  unfold read
  split <;> rfl

/-- At the end of the text the cursor stays put. -/
theorem Faces.read_eq_self (h : c.Faces []) : c.read = c := by
  have hplace : c.place = c.text.size := by
    have hlength := congrArg List.length h.ahead
    have hle := h.place_le
    simp at hlength
    omega
  have hnext : c.next = c.text.size := by
    rw [h.next_eq, hplace]
    exact Nat.min_eq_right (Nat.le_succ _)
  have hcurrent : c.current = '\x00' := h.current_eq
  rw [read_of_le (Nat.le_of_eq hnext.symm), ← hplace]
  obtain ⟨text, place, next, current⟩ := c
  simp_all

theorem Faces.read_ne_self {a : Char} {as : List Char} (h : c.Faces (a :: as)) : c.read ≠ c := by
  intro heq
  have hahead := h.read.ahead
  rw [heq, h.ahead] at hahead
  exact absurd (congrArg List.length hahead) (by simp)

theorem ofString_faces (source : String) : (ofString source).Faces source.toList := by
  unfold ofString read
  cases hs : source.toList with
  | nil => exact ⟨rfl, Nat.le_refl _, rfl, rfl⟩
  | cons d ds =>
    refine ⟨rfl, Nat.zero_le _, ?_, rfl⟩
    simp

/-! ### Loops -/

/-- A loop that does not accept what stands for the end comes to its own end. -/
theorem Faces.skipWhile (accept : Char → Bool) (h0 : accept '\x00' = false)
    (h : c.Faces text) :
    ∃ c', c.skipWhile accept = some c' ∧ c'.Faces (text.dropWhile accept) ∧ c'.text = c.text := by
  induction text generalizing c with
  | nil =>
    have hc : c.current = '\x00' := h.current_eq
    refine ⟨c, ?_, h, rfl⟩
    rw [Cursor.skipWhile, if_neg (by simp [hc, h0])]
  | cons a as ih =>
    have hc : c.current = a := h.current_eq
    by_cases ha : accept a = true
    · obtain ⟨c', hrun, hfaces, htext⟩ := ih h.read
      rw [Cursor.skipWhile, if_pos (by rwa [hc]), if_neg h.read_ne_self,
        List.dropWhile_cons_of_pos ha]
      exact ⟨c', hrun, hfaces, htext.trans c.read_text⟩
    · rw [Cursor.skipWhile, if_neg (by rwa [hc]), List.dropWhile_cons_of_neg ha]
      exact ⟨c, rfl, h, rfl⟩

theorem Faces.readWhile (accept : Char → Bool) (h0 : accept '\x00' = false)
    (h : c.Faces text) :
    ∃ c', c.readWhile accept = some (String.ofList (text.takeWhile accept), c') ∧
      c'.Faces (text.dropWhile accept) := by
  obtain ⟨c', hrun, hfaces, htext⟩ := h.skipWhile accept h0
  refine ⟨c', ?_, hfaces⟩
  have hsplit := List.takeWhile_append_dropWhile (p := accept) (l := text)
  have hlength : c'.place - c.place = (text.takeWhile accept).length := by
    have hall : (text.takeWhile accept).length + (text.dropWhile accept).length = text.length := by
      rw [← List.length_append, hsplit]
    have hbefore : c.text.size - c.place = text.length := by rw [← h.ahead]; simp
    have hbehind : c.text.size - c'.place = (text.dropWhile accept).length := by
      rw [← hfaces.ahead, htext]
      simp
    have hle : c'.place ≤ c.text.size := htext ▸ hfaces.place_le
    have hle' := h.place_le
    omega
  have hslice : (c.text.extract c.place c'.place).toList = text.takeWhile accept := by
    rw [Array.toList_extract, List.extract_eq_take_drop, h.ahead, hlength]
    exact (congrArg (List.take _) hsplit.symm).trans List.take_left
  simp only [Cursor.readWhile, hrun, Option.bind_eq_bind, Option.bind_some, hslice]
  rfl

/-! ### Tokens -/

theorem Faces.lexeme_nil (h : c.Faces []) : c.lexeme = some (.endOfInput, c) := by
  have hc : c.current = '\x00' := h.current_eq
  simp [Cursor.lexeme, hc, isLetter, Token.ofChar, h.read_eq_self]

theorem Faces.lexeme {d : Char} {ds : List Char} (h : c.Faces (d :: ds)) :
    ∃ c', c.lexeme = some ((Token.lexeme d ds).1, c') ∧ c'.Faces (Token.lexeme d ds).2 := by
  have hc : c.current = d := h.current_eq
  have hpeek : c.peek = ds.headD '\x00' := h.peek
  have hread : c.read.Faces ds := h.read
  by_cases h2 : ds.head? = some '=' ∧ (d = '=' ∨ d = '!')
  · obtain ⟨hds, hd⟩ := h2
    obtain ⟨es, rfl⟩ := List.head?_eq_some_iff.1 hds
    refine ⟨c.read.read, ?_, ?_⟩
    · rcases hd with rfl | rfl <;> simp [Cursor.lexeme, hc, hpeek, Token.lexeme, isLetter]
    · rcases hd with rfl | rfl <;> exact hread.read
  have hsecond (hd : d = '=' ∨ d = '!') : ds.headD '\x00' ≠ '=' := by
    intro heq
    cases ds with
    | nil => cases heq
    | cons e es => exact h2 ⟨congrArg some heq, hd⟩
  unfold Cursor.lexeme
  rw [hc, hpeek, if_neg fun h => hsecond (.inl h.1) h.2, if_neg fun h => hsecond (.inr h.1) h.2]
  by_cases hl : isLetter d = true
  · obtain ⟨c', hrun, hfaces⟩ := h.readWhile isLetter rfl
    rw [List.takeWhile_cons_of_pos hl] at hrun
    rw [List.dropWhile_cons_of_pos hl] at hfaces
    refine ⟨c', ?_, ?_⟩
    · simp [hl, hrun, Token.lexeme]
    · simpa [hl, Token.lexeme] using hfaces
  by_cases hd : d.isDigit = true
  · obtain ⟨c', hrun, hfaces⟩ := h.readWhile Char.isDigit rfl
    rw [List.takeWhile_cons_of_pos hd] at hrun
    rw [List.dropWhile_cons_of_pos hd] at hfaces
    refine ⟨c', ?_, ?_⟩
    · simp [hl, hd, hrun, Token.lexeme]
    · simpa [hl, hd, Token.lexeme] using hfaces
  rw [if_neg hl, if_neg hd]
  rw [Bool.not_eq_true] at hl hd
  rw [Token.lexeme_single hl hd (by simpa using h2)]
  exact ⟨c.read, rfl, hread⟩

/-- The cursor gives the tokens that a lexer gives on the text in front of it. -/
theorem Faces.token (h : c.Faces text) :
    ∃ c', c.token = some ((Lexer.next ⟨text⟩).1, c') ∧ c'.Faces (Lexer.next ⟨text⟩).2.ahead := by
  obtain ⟨c₁, hskip, hfaces, -⟩ := h.skipWhile Char.isWhitespace rfl
  have htoken : c.token = c₁.lexeme := by
    simp only [Cursor.token, hskip, Option.bind_eq_bind, Option.bind_some]
  unfold Lexer.next Token.scan?
  cases hd : text.dropWhile Char.isWhitespace with
  | nil =>
    rw [hd] at hfaces
    rw [htoken]
    exact ⟨c₁, hfaces.lexeme_nil, hfaces⟩
  | cons d ds =>
    rw [hd] at hfaces
    rw [htoken]
    exact hfaces.lexeme

theorem Faces.take (h : c.Faces text) (n : Nat) :
    ∃ c', c.take n = some ((Lexer.take n ⟨text⟩).1, c') ∧
      c'.Faces (Lexer.take n ⟨text⟩).2.ahead := by
  induction n generalizing c text with
  | zero => exact ⟨c, rfl, h⟩
  | succ n ih =>
    obtain ⟨c₁, htoken, hfaces⟩ := h.token
    obtain ⟨c₂, htake, hfaces⟩ := ih hfaces
    refine ⟨c₂, ?_, hfaces⟩
    simp only [Cursor.take, htoken, Option.bind_eq_bind, Option.bind_some, htake]
    rfl

/-- What comes of a use depends on the text in front of the cursor alone. -/
theorem Faces.alike {d : Cursor} (hc : c.Faces text) (hd : d.Faces text) : c.Alike d := by
  intro α u
  induction u generalizing c d text with
  | done a => exact ⟨a, rfl, rfl⟩
  | draw next ih =>
    obtain ⟨c', htoken, hc'⟩ := hc.token
    obtain ⟨d', htoken', hd'⟩ := hd.token
    obtain ⟨a, hrun, hrun'⟩ := ih _ hc' hd'
    refine ⟨a, ?_, ?_⟩
    · simpa [Use.run, htoken] using hrun
    · simpa [Use.run, htoken'] using hrun'

/-- At the end of the text the mark is given, and nothing changes. -/
theorem Faces.token_nil (h : c.Faces []) : c.token = some (.endOfInput, c) := by
  have hc : c.current = '\x00' := h.current_eq
  have hskip : c.skipWhile Char.isWhitespace = some c := by
    rw [Cursor.skipWhile, if_neg (by rw [hc]; decide)]
  simp only [Cursor.token, hskip, Option.bind_eq_bind, Option.bind_some, h.lexeme_nil]

theorem Faces.take_nil (h : c.Faces []) (n : Nat) :
    c.take n = some (List.replicate n .endOfInput, c) := by
  induction n with
  | zero => rfl
  | succ n ih =>
    simp only [Cursor.take, h.token_nil, Option.bind_eq_bind, Option.bind_some, ih]
    rfl

/-- The first tokens of a text are those of its one tiling by as many pieces, and the cursor behind
them is as good as a new one on the rest of the text. At the end it gives marks for ever. -/
theorem take_tiles (source : String) (n : Nat) :
    ∃ ts rest c, ts.length = n ∧ Token.Tiles source.toList ts rest ∧
      (∀ us rest', us.length = n → Token.Tiles source.toList us rest' → us = ts ∧ rest' = rest) ∧
      Lexer.take n (Lexer.ofString source) = (ts, Lexer.ofString (String.ofList rest)) ∧
      Cursor.take n (Cursor.ofString source) = some (ts, c) ∧
      c.Alike (Cursor.ofString (String.ofList rest)) ∧
      (rest = [] → ∀ k, c.take k = some (List.replicate k .endOfInput, c)) := by
  obtain ⟨c, htake, hfaces⟩ := (ofString_faces source).take n
  obtain ⟨ts, rest, hlexer⟩ : ∃ ts rest, Lexer.take n ⟨source.toList⟩ = (ts, ⟨rest⟩) :=
    ⟨_, _, rfl⟩
  have hlength : ts.length = n := by
    have h := Lexer.take_length n ⟨source.toList⟩
    rwa [hlexer] at h
  rw [hlexer] at htake hfaces
  have hrest : (String.ofList rest).toList = rest := String.toList_ofList
  refine ⟨ts, rest, c, hlength, ?_, ?_, ?_, htake, ?_, ?_⟩
  · rw [← Lexer.take_eq_iff, hlength, hlexer]
  · intro us rest' hus htiles
    rw [← Lexer.take_eq_iff, hus, hlexer] at htiles
    obtain ⟨hts, hahead⟩ := Prod.mk.inj htiles
    exact ⟨hts.symm, congrArg Lexer.ahead hahead.symm⟩
  · rw [Lexer.ofString, Lexer.ofString, hrest, hlexer]
  · have hnew := ofString_faces (String.ofList rest)
    rw [hrest] at hnew
    exact hfaces.alike hnew
  · rintro rfl
    exact hfaces.take_nil

end Cursor

end Monkey.Machine
