import Monkey.Proofs.Layout

/-! The boundary between two texts. Put behind one another they have the tokens of the first and
then those of the second, unless the last token of the first goes on behind the boundary: a word
with letters, a number with digits, or a lone `=` or `!` with a `=`. Whether a `=` at the end is
lone depends on what stands in front of it, for such characters pair up from the left. -/

namespace Monkey

namespace Token

/-- A token that ends a text goes on with these characters on both sides of the boundary. -/
def GoesOn (t : Token) (c d : Char) : Prop :=
  isLetter c = true ∧ isLetter d = true ∨ c.isDigit = true ∧ d.isDigit = true ∨
    d = '=' ∧ (t.kind = .assign ∨ t.kind = .bang)

/-! ### The last token -/

/-- Behind a blank at its end nothing goes on. -/
theorem stream_append_of_blank {as : List Char} {w : Char} (hw : w.isWhitespace = true)
    (h : as.getLast? = some w) (bs : List Char) : stream (as ++ bs) = stream as ++ stream bs := by
  obtain ⟨front, rfl⟩ := List.getLast?_eq_some_iff.1 h
  have hbehind (bs : List Char) : stream (front ++ w :: bs) = stream front ++ stream bs := by
    have hapart : Apart (w :: bs) := apart_of_blank (by simpa using hw)
    rw [stream_append_apart hapart, stream_blank hw]
  rw [List.append_assoc, List.singleton_append, hbehind, hbehind, stream_nil,
    List.append_nil]

/-- A text that does not end with a blank ends with a lexeme, and all that is in front of it is
read whatever comes behind. -/
theorem exists_last_lexeme {as : List Char} (hne : as ≠ [])
    (hlast : ∀ c ∈ as.getLast?, c.isWhitespace = false) :
    ∃ ts c cs t, stream as = ts ++ [t] ∧ c.isWhitespace = false ∧ lexeme c cs = (t, []) ∧
      c :: cs <:+ as ∧ ∀ bs, stream (as ++ bs) = ts ++ stream (c :: cs ++ bs) := by
  fun_induction stream as with
  | case1 as hs =>
    have hall := List.takeWhile_append_dropWhile (p := Char.isWhitespace) (l := as)
    rw [scan?_eq_none_iff.1 hs, List.append_nil] at hall
    have hblank : ∀ c ∈ as, c.isWhitespace = true :=
      hall ▸ List.all_eq_true.1 List.all_takeWhile
    obtain ⟨c, hc⟩ := Option.isSome_iff_exists.1 (List.getLast?_isSome.2 hne)
    exact absurd (hblank c (List.mem_of_getLast? hc)) (by simp [hlast c hc])
  | case2 as t rest hs ih =>
    obtain ⟨c, cs, hd, hl⟩ := scan?_eq_some_iff.1 hs
    have hsuffix : c :: cs <:+ as := hd ▸ List.dropWhile_suffix Char.isWhitespace
    by_cases hrest : rest = []
    · subst hrest
      have hc : c.isWhitespace = false := by
        have hhead := head?_dropWhile Char.isWhitespace as
        rw [hd] at hhead
        exact hhead c rfl
      refine ⟨[], c, cs, t, by rw [stream_nil]; rfl, hc, hl, hsuffix, fun bs => ?_⟩
      apply stream_congr
      rw [dropWhile_append_of_ne_nil (by simp [hd]), hd, List.cons_append,
        List.dropWhile_cons_of_neg (by simp [hc])]
    · have hbehind : rest <:+ as := by
        have hleft := lexeme_suffix c cs
        rw [hl] at hleft
        exact hleft.trans ((List.suffix_cons c cs).trans hsuffix)
      obtain ⟨front, hfront⟩ := hbehind
      obtain ⟨ts, d, ds, u, hstream, hd, hl, hsuffix, happend⟩ := ih hrest fun e he =>
        hlast e (by rw [← hfront, List.getLast?_append, he]; rfl)
      refine ⟨t :: ts, d, ds, u, by rw [hstream, List.cons_append], hd, hl,
        hsuffix.trans ⟨front, hfront⟩, fun bs => ?_⟩
      rw [stream_of_some (scan?_append_of_ne_nil hs hrest bs), happend]
      rfl

theorem ofWord_wordlike (w : String) : (ofWord w).kind.wordlike = true := by
  unfold ofWord Kind.ofWord
  split <;> rfl

/-- A character that is neither a letter nor a digit goes on only as an operator. -/
theorem GoesOn.operator {t : Token} {c d : Char} (h : t.GoesOn c d) (hl : isLetter c = false)
    (hd : c.isDigit = false) : d = '=' ∧ (t.kind = .assign ∨ t.kind = .bang) := by
  rcases h with h | h | h
  · exact absurd h.1 (by simp [hl])
  · exact absurd h.1 (by simp [hd])
  · exact h

/-- A piece that ends a text is read as the same token in front of another text unless the token
goes on there. -/
theorem Munches.behind_iff {m bs : List Char} {t : Token} (h : Munches m [] t)
    (ht : t.kind ≠ .endOfInput) :
    Munches m bs t ↔ ∀ c ∈ m.getLast?, ∀ d ∈ bs.head?, ¬ t.GoesOn c d := by
  constructor
  · intro hbs c hc d hd hgoes
    cases hbs with
    | word _ hm hrest =>
      have hletter := hm c (List.mem_of_getLast? hc)
      rcases hgoes with h | h | ⟨-, h | h⟩
      · simp [hrest d hd] at h
      · simp [isLetter_of_isDigit h.1] at hletter
      · exact absurd (h ▸ ofWord_wordlike (String.ofList m)) (by decide)
      · exact absurd (h ▸ ofWord_wordlike (String.ofList m)) (by decide)
    | number _ hm hrest =>
      have hdigit := hm c (List.mem_of_getLast? hc)
      rcases hgoes with h | h | ⟨-, h | h⟩
      · simp [isLetter_of_isDigit hdigit] at h
      · simp [hrest d hd] at h
      · cases h
      · cases h
    | equal =>
      obtain rfl : '=' = c := Option.some.inj hc
      rcases (hgoes.operator rfl rfl).2 with h | h <;> cases h
    | notEqual =>
      obtain rfl : '=' = c := Option.some.inj hc
      rcases (hgoes.operator rfl rfl).2 with h | h <;> cases h
    | symbol hname h2 =>
      obtain rfl := Option.some.inj hc
      obtain ⟨-, hl, hdigit, -⟩ := Kind.ofSymbol_of_name hname
      obtain ⟨rfl, hk⟩ := hgoes.operator hl hdigit
      refine h2 ⟨hd, hk.imp (fun h => ?_) fun h => ?_⟩
      · subst h
        simpa [Kind.name] using (congrArg String.toList hname).symm
      · subst h
        simpa [Kind.name] using (congrArg String.toList hname).symm
    | foreign hl hdigit _ hname =>
      obtain rfl := Option.some.inj hc
      rcases (hgoes.operator hl hdigit).2 with h | h <;> cases h
    | null => exact ht rfl
    | ended => cases hc
  · intro hbs
    cases h with
    | word hne hm _ =>
      refine .word hne hm fun d hd => ?_
      obtain ⟨c, hc⟩ := Option.isSome_iff_exists.1 (List.getLast?_isSome.2 hne)
      rw [← Bool.not_eq_true]
      exact fun hl => hbs c hc d hd (.inl ⟨hm c (List.mem_of_getLast? hc), hl⟩)
    | number hne hm _ =>
      refine .number hne hm fun d hd => ?_
      obtain ⟨c, hc⟩ := Option.isSome_iff_exists.1 (List.getLast?_isSome.2 hne)
      rw [← Bool.not_eq_true]
      exact fun hl => hbs c hc d hd (.inr (.inl ⟨hm c (List.mem_of_getLast? hc), hl⟩))
    | equal => exact .equal
    | notEqual => exact .notEqual
    | @symbol c _ k hname _ =>
      refine .symbol hname fun h2 => ?_
      obtain ⟨hk, -⟩ := Kind.ofSymbol_of_name hname
      refine hbs c rfl '=' h2.1 (.inr (.inr ⟨rfl, ?_⟩))
      rcases h2.2 with rfl | rfl
      · exact .inl hk.symm
      · exact .inr hk.symm
    | foreign hl hd h0 hname => exact .foreign hl hd h0 hname
    | null => exact absurd rfl ht
    | ended => exact absurd rfl ht

/-- What is read from such a piece on is that token just if the token does not go on. -/
theorem Munches.stream_behind {c : Char} {cs : List Char} {t : Token} (h : Munches (c :: cs) [] t)
    (hc : c.isWhitespace = false) (h0 : c ≠ '\x00') (bs : List Char) :
    (Munches (c :: cs) bs t → stream (c :: cs ++ bs) = t :: stream bs) ∧
    ∃ t' us, stream (c :: cs ++ bs) = t' :: us ∧ t'.kind ≠ .endOfInput ∧
      (t' = t → Munches (c :: cs) bs t) := by
  have hstream : stream (c :: cs ++ bs) =
      (lexeme c (cs ++ bs)).1 :: stream (lexeme c (cs ++ bs)).2 := stream_lexeme hc
  refine ⟨fun hbs => ?_, _, _, hstream, lexeme_kind_ne h0, fun heq => ?_⟩
  · rw [hstream, hbs.lexeme_eq]
  · obtain ⟨m, hm, hmunches⟩ := lexeme_munches c (cs ++ bs)
    have ht : (lexeme c (cs ++ bs)).1.kind ≠ .endOfInput := lexeme_kind_ne h0
    -- The two pieces spell one literal, so the second is no longer than the first.
    have hpiece : m = c :: cs := by
      have hliteral := hmunches.literal_eq ht
      rw [heq] at hliteral ht
      rw [← hliteral, h.literal_eq ht]
    subst hpiece
    rw [heq] at hmunches
    have hrest : cs ++ bs = cs ++ (lexeme c (cs ++ bs)).2 := (List.cons.inj hm).2
    rwa [← List.append_cancel_left hrest] at hmunches

end Token

open Token

/-- The last token of the first text goes on with the second. -/
def Merges (a b : String) : Prop :=
  ∃ c ∈ a.toList.getLast?, ∃ d ∈ b.toList.head?,
    isLetter c = true ∧ isLetter d = true ∨ c.isDigit = true ∧ d.isDigit = true ∨
    d = '=' ∧ ∃ t ∈ (lex a).getLast?, t.literal.toList <:+ a.toList ∧
      (t.kind = .assign ∨ t.kind = .bang)

theorem merges_iff {a b : String} {t : Token} (ht : (lex a).getLast? = some t)
    (hliteral : t.literal.toList <:+ a.toList) :
    Merges a b ↔ ∃ c ∈ a.toList.getLast?, ∃ d ∈ b.toList.head?, t.GoesOn c d := by
  simp only [Merges, GoesOn, ht, Option.mem_some_iff, exists_eq_left', hliteral, true_and]

theorem lex_lexed (a : String) : ∀ t ∈ lex a, t.Lexed := by
  intro t ht
  rw [lex, Lexer.ofString, Lexer.collect_fst] at ht
  exact stream_lexed a.toList t (List.takeWhile_subset _ ht)

/-- A blank at the boundary keeps the tokens apart. -/
theorem not_merges_of_blank {a b : String} {w : Char} (hw : w.isWhitespace = true)
    (h : w ∈ a.toList.getLast? ∨ w ∈ b.toList.head?) : ¬ Merges a b := by
  have hletter : isLetter w = false := by
    rw [← Bool.not_eq_true]
    exact fun hl => absurd (isWhitespace_of_isLetter hl) (by simp [hw])
  have hdigit : w.isDigit = false := by
    rw [← Bool.not_eq_true]
    exact fun hd => absurd (isWhitespace_of_isDigit hd) (by simp [hw])
  rintro ⟨c, hc, d, hd, hmerge⟩
  rcases h with h | h
  · obtain rfl : w = c := Option.mem_unique h hc
    rcases hmerge with h | h | ⟨-, t, ht, hsuffix, hk⟩
    · simp [hletter] at h
    · simp [hdigit] at h
    · have hspelling : t.literal = "=" ∨ t.literal = "!" :=
        hk.imp (fun hk => (lex_lexed a t (List.mem_of_getLast? ht)).literal_eq (by rw [hk]; rfl))
          fun hk => (lex_lexed a t (List.mem_of_getLast? ht)).literal_eq (by rw [hk]; rfl)
      obtain ⟨front, hfront⟩ := hsuffix
      rw [← hfront] at hc
      rcases hspelling with h | h
      · simp [h] at hc
        simp [← hc] at hw
      · simp [h] at hc
        simp [← hc] at hw
  · obtain rfl : w = d := Option.mem_unique h hd
    rcases hmerge with h | h | ⟨rfl, -⟩
    · simp [hletter] at h
    · simp [hdigit] at h
    · cases hw

/-- What is in front of a mark is collected whatever comes behind. -/
theorem lex_append_of_stream {a b : String} {ts us : List Token} (hts : Unmarked ts)
    (h : stream (a ++ b).toList = ts ++ us) :
    lex (a ++ b) = ts ++ us.takeWhile fun t => decide (t.kind ≠ .endOfInput) := by
  rw [lex, Lexer.ofString, Lexer.collect_fst, h,
    List.takeWhile_append_of_pos fun t ht => decide_eq_true (hts t ht)]

theorem lex_append_of_stream_append {a b : String} (hn : '\x00' ∉ a.toList)
    (h : stream (a.toList ++ b.toList) = stream a.toList ++ stream b.toList) :
    lex (a ++ b) = lex a ++ lex b := by
  rw [← String.toList_append] at h
  rw [lex_append_of_stream (stream_unmarked hn) h, lex_eq_tokens hn]
  exact congrArg _ (Lexer.collect_fst _).symm

/-- Behind a text that does not end with a blank, the tokens of another follow just if its last
token does not go on. -/
theorem lex_append_iff_of_last {a b : String} (hn : '\x00' ∉ a.toList) (hne : a.toList ≠ [])
    (hlast : ∀ c ∈ a.toList.getLast?, c.isWhitespace = false) :
    lex (a ++ b) = lex a ++ lex b ↔ ¬ Merges a b := by
  obtain ⟨ts, c, cs, t, hstream, hc, hl, ⟨front, hfront⟩, hbehind⟩ :=
    exists_last_lexeme hne hlast
  have ha : lex a = ts ++ [t] := (lex_eq_tokens hn).trans hstream
  have hts : ∀ u ∈ ts ++ [t], u.kind ≠ .endOfInput := hstream ▸ stream_unmarked hn
  have ht : t.kind ≠ .endOfInput := hts t (by simp)
  have h0 : c ≠ '\x00' := fun h => hn (by simp [← hfront, h])
  have hmunches : Munches (c :: cs) [] t := by
    obtain ⟨m, hm, hmunches⟩ := lexeme_munches c cs
    rw [hl] at hm hmunches
    rwa [hm, List.append_nil]
  have hend : a.toList.getLast? = (c :: cs).getLast? := by
    rw [← hfront, List.getLast?_append]
    rfl
  have hmerges : ¬ Merges a b ↔ Munches (c :: cs) b.toList t := by
    rw [merges_iff (by rw [ha, List.getLast?_concat])
      ⟨front, by rw [hmunches.literal_eq ht, hfront]⟩, hmunches.behind_iff ht, hend]
    simp only [not_exists, not_and]
  obtain ⟨hsame, t', us, hhead, ht', heq⟩ := hmunches.stream_behind hc h0 b.toList
  rw [hmerges]
  constructor
  · intro hlex
    have hread : stream (a ++ b).toList = ts ++ t' :: us := by
      rw [String.toList_append, hbehind, hhead]
    rw [lex_append_of_stream (fun u hu => hts u (List.mem_append_left _ hu)) hread, ha,
      List.append_assoc, List.takeWhile_cons_of_pos (by simpa using ht')] at hlex
    exact heq (List.cons.inj (List.append_cancel_left hlex)).1
  · intro hm
    apply lex_append_of_stream_append hn
    rw [hbehind, hsame hm, hstream, List.append_assoc, List.singleton_append]

/-- The tokens of two texts put behind one another are those of the first and then those of the
second just if nothing is read across the boundary, and so wherever a blank stands there. -/
theorem lex_append_iff {a : String} (hn : '\x00' ∉ a.toList) (b : String) :
    (lex (a ++ b) = lex a ++ lex b ↔ ¬ Merges a b) ∧
    ((∃ w : Char, w.isWhitespace = true ∧ (w ∈ a.toList.getLast? ∨ w ∈ b.toList.head?)) →
      lex (a ++ b) = lex a ++ lex b) := by
  have hiff : lex (a ++ b) = lex a ++ lex b ↔ ¬ Merges a b := by
    cases hlast : a.toList.getLast? with
    | none =>
      have hnil : Token.scan? a.toList = none := by rw [List.getLast?_eq_none_iff.1 hlast]; rfl
      refine iff_of_true (lex_append_of_stream_append hn ?_) ?_
      · rw [stream_append_of_none hnil, stream_of_none hnil, List.nil_append]
      · rintro ⟨c, hc, -⟩
        rw [hlast] at hc
        cases hc
    | some w =>
      by_cases hw : w.isWhitespace = true
      · exact iff_of_true (lex_append_of_stream_append hn (stream_append_of_blank hw hlast _))
          (not_merges_of_blank hw (.inl hlast))
      · refine lex_append_iff_of_last hn (fun hnil => ?_) ?_
        · rw [hnil] at hlast
          cases hlast
        · simpa [hlast] using hw
  refine ⟨hiff, ?_⟩
  rintro ⟨w, hw, h⟩
  exact hiff.2 (not_merges_of_blank hw h)

/-- Two characters `=` are one token, so a third one goes on with a fourth and a second one does
not go on with a third. -/
theorem lex_append_equals :
    '\x00' ∉ "x ===".toList ∧ Merges "x ===" "=\x00y" ∧
      lex ("x ===" ++ "=\x00y") ≠ lex "x ===" ++ lex "=\x00y" ∧
    '\x00' ∉ "x ==".toList ∧ ¬ Merges "x ==" "=\x00y" ∧
      lex ("x ==" ++ "=\x00y") = lex "x ==" ++ lex "=\x00y" := by
  have hn : '\x00' ∉ "x ===".toList := by decide
  have hn' : '\x00' ∉ "x ==".toList := by decide
  have hmerges : Merges "x ===" "=\x00y" :=
    ⟨'=', rfl, '=', rfl, .inr (.inr ⟨rfl, ⟨.assign, "="⟩, by decide +kernel, by decide, .inl rfl⟩)⟩
  have happend : lex ("x ==" ++ "=\x00y") = lex "x ==" ++ lex "=\x00y" := by decide +kernel
  exact ⟨hn, hmerges, fun h => (lex_append_iff hn _).1.1 h hmerges, hn',
    (lex_append_iff hn' _).1.1 happend, happend⟩

end Monkey
