import Monkey.Proofs.EndMark
import Monkey.Proofs.Machine.Cursor

/-! Reading past null characters. They cut a text into segments, and no loop of the lexer goes
across one: a run of blanks, letters or digits stops in front of it and a `=` behind it is no part
of an operator. So each collection of tokens gives those of one segment, as if it stood alone, and
the mark at its end is used up; behind the last segment there are only marks. -/

namespace Monkey

/-- What stands between the null characters of a text. There is one more than there are of them. -/
def segments (source : String) : List String := (source.toList.splitOn '\x00').map String.ofList

/-- Induction along the segments of a text, from the last of them back. -/
theorem segments_induction {motive : List Char → Prop} (last : ∀ as, '\x00' ∉ as → motive as)
    (null : ∀ as bs, '\x00' ∉ as → motive bs → motive (as ++ '\x00' :: bs)) (text : List Char) :
    motive text := by
  induction hlength : text.length using Nat.strongRecOn generalizing text with
  | ind n ih =>
    by_cases h : '\x00' ∈ text
    · obtain ⟨as, bs, rfl, has⟩ := List.eq_append_cons_of_mem h
      refine null as bs has (ih bs.length ?_ bs rfl)
      rw [← hlength, List.length_append, List.length_cons]
      omega
    · exact last text h

theorem lex_ofList {g : List Char} (hg : '\x00' ∉ g) : lex (String.ofList g) = Token.stream g := by
  have h : lex (String.ofList g) = Token.stream (String.ofList g).toList :=
    lex_eq_tokens (by rwa [String.toList_ofList])
  rwa [String.toList_ofList] at h

/-! ### One token after another -/

/-- The tokens of a text are its segments' with a mark behind each, the last one for its end. -/
theorem stream_segments (text : List Char) : Token.stream text ++ [.endOfInput] =
    (text.splitOn '\x00').flatMap fun g => Token.stream g ++ [.endOfInput] := by
  induction text using segments_induction with
  | last as has => simp [List.splitOn_eq_singleton has]
  | null as bs has ih =>
    rw [List.splitOn_append_cons_self_of_not_mem has, List.flatMap_cons, ← ih, stream_null]
    simp

theorem take_append_replicate {α : Type} (as : List α) (a : α) {m n k : Nat} (hm : k ≤ m)
    (hn : k ≤ n) : (as ++ List.replicate m a).take k = (as ++ List.replicate n a).take k := by
  rw [List.take_append, List.take_append, List.take_replicate, List.take_replicate,
    Nat.min_eq_left (by omega), Nat.min_eq_left (by omega)]

/-- The tokens of a text are given one after another, and then marks for ever. -/
theorem Lexer.take_fst (n : Nat) (text : List Char) : (take n ⟨text⟩).1 =
    (Token.stream text ++ List.replicate n Token.endOfInput).take n := by
  induction n generalizing text with
  | zero => rfl
  | succ n ih =>
    rw [take, next]
    cases hs : Token.scan? text with
    | none =>
      simp only [ih, Token.stream_of_none hs, Token.stream_nil, List.nil_append]
      rw [List.replicate_succ, List.take_succ_cons]
    | some r =>
      simp only [ih, Token.stream_of_some hs, List.cons_append, List.take_succ_cons]
      rw [take_append_replicate _ _ (Nat.le_refl n) (Nat.le_succ n)]

/-! ### One collection after another -/

namespace Lexer

/-- What `n` collections give, one after another, and the lexer behind them. -/
def collections : Nat → Lexer → List (List Token) × Lexer
  | 0, l => ([], l)
  | n + 1, l =>
    (l.collect.1 :: (collections n l.collect.2).1, (collections n l.collect.2).2)

/-- A collection in front of a null character gives the tokens there and goes no further. -/
theorem collect_segment {as : List Char} (has : '\x00' ∉ as) (bs : List Char) :
    collect ⟨as ++ '\x00' :: bs⟩ = (Token.stream as, ⟨bs⟩) := by
  have hapart : Token.Apart ('\x00' :: bs) := by
    rintro c ⟨⟩
    decide
  fun_induction Token.stream as with
  | case1 as hs =>
    have hd : (as ++ '\x00' :: bs).dropWhile Char.isWhitespace = '\x00' :: bs := by
      rw [List.dropWhile_append, Token.scan?_eq_none_iff.1 hs]
      rfl
    exact collect_of_mark (Token.scan?_eq_some_iff.2 ⟨_, _, hd, rfl⟩) rfl
  | case2 as t rest hs ih =>
    obtain ⟨ht, hrest⟩ := Token.scan?_unmarked hs has
    rw [collect_of_token (Token.scan?_append_apart hs hapart) ht, ih hrest]

theorem collect_last {as : List Char} (has : '\x00' ∉ as) :
    collect ⟨as⟩ = (Token.stream as, ⟨[]⟩) := by
  fun_induction Token.stream as with
  | case1 as hs => exact collect_of_none hs
  | case2 as t rest hs ih =>
    obtain ⟨ht, hrest⟩ := Token.scan?_unmarked hs has
    rw [collect_of_token hs ht, ih hrest]

theorem collections_nil (n : Nat) : (collections n ⟨[]⟩).1 = List.replicate n [] := by
  induction n with
  | zero => rfl
  | succ n ih => rw [collections, collect_of_none rfl, ih, List.replicate_succ]

/-- Each collection gives the tokens of one segment, and those behind the last give none. -/
theorem collections_fst (text : List Char) (n : Nat) : (collections n ⟨text⟩).1 =
    ((text.splitOn '\x00').map Token.stream ++ List.replicate n []).take n := by
  induction text using segments_induction generalizing n with
  | last as has =>
    rw [List.splitOn_eq_singleton has]
    cases n with
    | zero => rfl
    | succ n =>
      rw [collections, collect_last has, collections_nil]
      simp [List.take_replicate]
  | null as bs has ih =>
    rw [List.splitOn_append_cons_self_of_not_mem has]
    cases n with
    | zero => rfl
    | succ n =>
      rw [collections, collect_segment has, ih]
      simp only [List.map_cons, List.cons_append, List.take_succ_cons]
      rw [take_append_replicate _ _ (Nat.le_refl n) (Nat.le_succ n)]

end Lexer

open Machine

/-- The segments of a text make it up with the null characters between them. The collections of one
lexer give the tokens of a new lexer on each of them in turn, and then nothing; one after another
the tokens are those of the segments, with a mark behind each, and then marks. A cursor gives them
as well. -/
theorem collections_segments (source : String) :
    (segments source ≠ [] ∧ (∀ g ∈ segments source, '\x00' ∉ g.toList) ∧
      "\x00".intercalate (segments source) = source) ∧
    ∀ n : Nat,
      (Lexer.collections n (Lexer.ofString source)).1 =
        ((segments source).map lex ++ List.replicate n []).take n ∧
      let tokens := ((segments source).flatMap (fun g => lex g ++ [Token.endOfInput]) ++
        List.replicate n Token.endOfInput).take n
      (Lexer.take n (Lexer.ofString source)).1 = tokens ∧
      ∃ c, (Cursor.ofString source).take n = some (tokens, c) := by
  have hnull : ∀ g ∈ source.toList.splitOn '\x00', '\x00' ∉ g :=
    fun g hg => not_mem_of_mem_splitOn hg
  have hlex : (segments source).map lex = (source.toList.splitOn '\x00').map Token.stream := by
    rw [segments, List.map_map]
    exact List.map_congr_left fun g hg => lex_ofList (hnull g hg)
  have hmarked : (segments source).flatMap (fun g => lex g ++ [Token.endOfInput]) =
      Token.stream source.toList ++ [Token.endOfInput] := by
    have hmap := List.flatMap_map lex (fun ts => ts ++ [Token.endOfInput]) (segments source)
    rw [stream_segments, ← hmap, hlex, List.flatMap_map]
  refine ⟨⟨?_, ?_, ?_⟩, fun n => ⟨?_, ?_⟩⟩
  · rw [segments, Ne, List.map_eq_nil_iff]
    exact List.splitOn_ne_nil _ _
  · intro g hg
    obtain ⟨cs, hcs, rfl⟩ := List.mem_map.1 hg
    rw [String.toList_ofList]
    exact hnull cs hcs
  · rw [← String.toList_inj, String.toList_intercalate, segments, List.map_map]
    have hid : String.toList ∘ String.ofList = id := funext fun _ => String.toList_ofList
    rw [hid, List.map_id]
    exact List.intercalate_splitOn '\x00'
  · rw [hlex]
    exact Lexer.collections_fst _ n
  · have htokens : (Lexer.take n (Lexer.ofString source)).1 =
        ((segments source).flatMap (fun g => lex g ++ [Token.endOfInput]) ++
          List.replicate n Token.endOfInput).take n := by
      have hmarks := take_append_replicate (Token.stream source.toList) Token.endOfInput
        (Nat.le_refl n) (Nat.le_succ n)
      rw [hmarked, List.append_assoc, List.singleton_append, ← List.replicate_succ, ← hmarks]
      exact Lexer.take_fst n _
    obtain ⟨c, htake, -⟩ := (Cursor.ofString_faces source).take n
    exact ⟨htokens, c, htake.trans (congrArg (fun ts => some (ts, c)) htokens)⟩

example : segments "a\x00\x00=" = ["a", "", "="] ∧
    (Lexer.collections 4 (Lexer.ofString "a\x00\x00=")).1 =
      [[⟨.identifier, "a"⟩], [], [⟨.assign, "="⟩], []] := by decide +kernel

end Monkey
