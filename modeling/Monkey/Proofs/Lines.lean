import Mathlib.Tactic.SplitIfs
import Monkey.Machine.Dialogue
import Monkey.Proofs.Tiling

/-! The lines of an input. A newline ends the line that it belongs to, and a last line may do
without; so there is one way to cut an input into lines, which reading them one after another
follows. In UTF-8 only a newline has its byte, so bytes are a text with a newline behind them or
without, or they are none, and the blanks at the ends of a line take in its newline. -/

namespace Monkey

/-! ### Reading lines -/

namespace Machine

theorem eq_nil_of_readLine {input : List UInt8} (h : (readLine input).1 = []) : input = [] := by
  cases input with
  | nil => rfl
  | cons b bs =>
    rw [readLine] at h
    split at h <;> cases h

theorem readLine_of_not_mem {piece : List UInt8} (h : 10 ∉ piece) : readLine piece = (piece, []) := by
  induction piece with
  | nil => rfl
  | cons b bs ih =>
    rw [List.mem_cons, not_or] at h
    rw [readLine, if_neg (Ne.symm h.1), ih h.2]

theorem readLine_line {piece : List UInt8} (h : 10 ∉ piece) (rest : List UInt8) :
    readLine (piece ++ 10 :: rest) = (piece ++ [10], rest) := by
  induction piece with
  | nil => rfl
  | cons b bs ih =>
    rw [List.mem_cons, not_or] at h
    rw [List.cons_append, readLine, if_neg (Ne.symm h.1), ih h.2, List.cons_append]

theorem linesOf_eq_readLine {input : List UInt8} (h : input ≠ []) :
    linesOf input = (readLine input).1 :: linesOf (readLine input).2 := by
  induction input with
  | nil => exact absurd rfl h
  | cons b bs ih =>
    rw [linesOf, readLine]
    split
    · rfl
    · cases bs with
      | nil => rfl
      | cons c bs => rw [ih (List.cons_ne_nil c bs)]

end Machine

/-! ### Cutting an input -/

/-- The input is cut behind each newline. -/
inductive Cuts : List UInt8 → List (List UInt8) → Prop where
  | nil : Cuts [] []
  | last {piece : List UInt8} : piece ≠ [] → 10 ∉ piece → Cuts piece [piece]
  | line {piece rest : List UInt8} {lines : List (List UInt8)} :
    10 ∉ piece → Cuts rest lines → Cuts (piece ++ 10 :: rest) ((piece ++ [10]) :: lines)

theorem linesOf_of_not_mem {piece : List UInt8} (h : 10 ∉ piece) (hne : piece ≠ []) :
    linesOf piece = [piece] := by
  rw [Machine.linesOf_eq_readLine hne, Machine.readLine_of_not_mem h]
  rfl

theorem linesOf_line {piece : List UInt8} (h : 10 ∉ piece) (rest : List UInt8) :
    linesOf (piece ++ 10 :: rest) = (piece ++ [10]) :: linesOf rest := by
  have hne : piece ++ 10 :: rest ≠ [] := List.append_ne_nil_of_right_ne_nil _ (List.cons_ne_nil 10 rest)
  rw [Machine.linesOf_eq_readLine hne, Machine.readLine_line h]

/-- There is one way to cut an input. -/
theorem Cuts.linesOf_eq {input : List UInt8} {lines : List (List UInt8)} (h : Cuts input lines) :
    linesOf input = lines := by
  induction h with
  | nil => rfl
  | last hne hpiece => exact linesOf_of_not_mem hpiece hne
  | line hpiece _ ih => rw [linesOf_line hpiece, ih]

theorem cuts_linesOf (input : List UInt8) : Cuts input (linesOf input) := by
  induction input with
  | nil => exact .nil
  | cons b bs ih =>
    by_cases hb : b = 10
    · subst hb
      exact @Cuts.line [] bs _ List.not_mem_nil ih
    -- A byte that ends no line belongs to the first line of the bytes behind it.
    · rw [linesOf, if_neg hb]
      generalize linesOf bs = lines at ih
      cases ih with
      | nil => exact .last (List.cons_ne_nil b []) (by simpa using Ne.symm hb)
      | last _ hpiece => exact .last (List.cons_ne_nil b _) (by simp [Ne.symm hb, hpiece])
      | @line piece _ _ hpiece hrest =>
        exact @Cuts.line (b :: piece) _ _ (by simp [Ne.symm hb, hpiece]) hrest

/-! ### Lines behind one another -/

/-- Bytes that end with a complete line, if there are any. -/
def Complete (input : List UInt8) : Prop := input = [] ∨ input.getLast? = some 10

theorem Complete.line {piece rest : List UInt8} (h : Complete rest) :
    Complete (piece ++ 10 :: rest) := by
  right
  rcases h with rfl | hlast
  · exact List.getLast?_concat
  · simp [List.getLast?_cons, hlast]

theorem Complete.of_line {piece rest : List UInt8} (h : Complete (piece ++ 10 :: rest)) :
    Complete rest := by
  cases rest with
  | nil => exact .inl rfl
  | cons b bs =>
    right
    simpa [Complete, List.getLast?_append] using h

theorem not_complete_of_not_mem {piece : List UInt8} (hne : piece ≠ []) (h : 10 ∉ piece) :
    ¬ Complete piece := by
  rintro (hnil | hlast)
  · exact hne hnil
  · exact h (List.mem_of_getLast? hlast)

theorem linesOf_append {before : List UInt8} (h : Complete before) (after : List UInt8) :
    linesOf (before ++ after) = linesOf before ++ linesOf after := by
  have hcuts := cuts_linesOf before
  generalize linesOf before = lines at hcuts
  induction hcuts with
  | nil => rfl
  | last hne hpiece => exact absurd h (not_complete_of_not_mem hne hpiece)
  | line hpiece _ ih =>
    rw [List.append_assoc, List.cons_append, linesOf_line hpiece, ih h.of_line, List.cons_append]

/-! ### Lines that are text -/

/-- The bytes of a text. -/
def bytesOf (text : String) : List UInt8 := text.toUTF8.data.toList

theorem bytesOf_append (s t : String) : bytesOf (s ++ t) = bytesOf s ++ bytesOf t := by
  simp [bytesOf]

theorem bytesOf_ofList (cs : List Char) :
    bytesOf (String.ofList cs) = cs.flatMap String.utf8EncodeChar := by
  simp [bytesOf, List.utf8Encode]

theorem bytesOf_inj {s t : String} : bytesOf s = bytesOf t ↔ s = t := by
  rw [bytesOf, bytesOf, Array.toList_inj, ← ByteArray.ext_iff, String.toUTF8_eq_toByteArray,
    String.toUTF8_eq_toByteArray, String.toByteArray_inj]

theorem fromUTF8?_eq_some_iff {bytes : List UInt8} {text : String} :
    String.fromUTF8? bytes.toByteArray = some text ↔ bytesOf text = bytes := by
  rw [String.fromUTF8?]
  constructor
  · intro h
    split at h
    · obtain rfl := Option.some.inj h
      exact List.toList_data_toByteArray
    · cases h
  · rintro rfl
    have htext : (bytesOf text).toByteArray = text.toByteArray :=
      ByteArray.ext (Array.toList_inj.1 List.toList_data_toByteArray)
    rw [htext, dif_pos text.isValidUTF8]
    rfl

theorem fromUTF8?_eq_none_iff {bytes : List UInt8} :
    String.fromUTF8? bytes.toByteArray = none ↔ ∀ text, bytesOf text ≠ bytes := by
  simp only [Option.eq_none_iff_forall_ne_some, ne_eq, fromUTF8?_eq_some_iff]

/-- No other character has the byte of a newline in its encoding. -/
theorem eq_newline_of_mem {c : Char} (h : 10 ∈ String.utf8EncodeChar c) : c = '\n' := by
  have hbyte (n : Nat) : (10 : UInt8) = UInt8.ofNat n ↔ 10 = n % 256 := UInt8.toNat_inj.symm
  have hval : c.val.toNat = 10 := by
    simp only [String.utf8EncodeChar] at h
    -- In an encoding of more than one byte all of them are 128 or more.
    split_ifs at h
    all_goals
      simp only [List.mem_cons, List.not_mem_nil, or_false, hbyte] at h
      omega
  exact Char.toNat_inj.1 hval

theorem not_mem_bytesOf {text : String} (h : '\n' ∉ text.toList) : 10 ∉ bytesOf text := by
  intro hmem
  rw [← String.ofList_toList (s := text), bytesOf_ofList, List.mem_flatMap] at hmem
  obtain ⟨c, hc, hbyte⟩ := hmem
  exact h (eq_newline_of_mem hbyte ▸ hc)

/-- Bytes with a newline behind them are a text if they are one without it. -/
theorem exists_bytesOf_line {text : String} {piece : List UInt8} (h : bytesOf text = piece ++ [10]) :
    ∃ front, bytesOf front = piece ∧ text = front ++ "\n" := by
  rcases List.eq_nil_or_concat text.toList with hnil | ⟨cs, c, hcs⟩
  · rw [String.toList_eq_nil_iff.1 hnil] at h
    exact absurd h (List.append_ne_nil_of_right_ne_nil piece (List.cons_ne_nil 10 [])).symm
  have htext : text = String.ofList cs ++ String.ofList [c] := by
    rw [← String.ofList_append, ← List.concat_eq_append, ← hcs, String.ofList_toList]
  have hlast : 10 ∈ String.utf8EncodeChar c := by
    have hbyte : (bytesOf text).getLast? = some 10 := by simp [h]
    rw [htext, bytesOf_append, bytesOf_ofList [c], List.flatMap_singleton, List.getLast?_append,
      List.getLast?_eq_some_getLast String.utf8EncodeChar_ne_nil, Option.some_or] at hbyte
    exact Option.some.inj hbyte ▸ List.getLast_mem String.utf8EncodeChar_ne_nil
  obtain rfl := eq_newline_of_mem hlast
  rw [htext, bytesOf_append] at h
  exact ⟨String.ofList cs, (List.append_inj' h rfl).1, htext⟩

/-! ### Blanks -/

/-- The text without the blanks at its ends. -/
structure Trims (text source : List Char) : Prop where
  split : ∃ front back, text = front ++ source ++ back ∧ (∀ c ∈ front, isBlank c = true) ∧
    ∀ c ∈ back, isBlank c = true
  head : ∀ c ∈ source.head?, isBlank c = false
  last : ∀ c ∈ source.getLast?, isBlank c = false

theorem trims_trim (text : List Char) : Trims text (trim text) := by
  have hback := List.takeWhile_append_dropWhile (p := isBlank) (l := (text.dropWhile isBlank).reverse)
  have hsource : text.dropWhile isBlank =
      trim text ++ ((text.dropWhile isBlank).reverse.takeWhile isBlank).reverse := by
    rw [trim, ← List.reverse_append, hback, List.reverse_reverse]
  refine ⟨⟨text.takeWhile isBlank, ((text.dropWhile isBlank).reverse.takeWhile isBlank).reverse,
    ?_, List.all_eq_true.1 List.all_takeWhile, ?_⟩, ?_, ?_⟩
  · rw [List.append_assoc, ← hsource, List.takeWhile_append_dropWhile]
  · intro c hc
    exact List.all_eq_true.1 List.all_takeWhile c (List.mem_reverse.1 hc)
  · intro c hc
    refine Token.head?_dropWhile isBlank text c ?_
    rw [hsource, List.head?_append, Option.mem_def.1 hc]
    rfl
  · intro c hc
    rw [trim, List.getLast?_reverse] at hc
    exact Token.head?_dropWhile isBlank _ c hc

theorem Trims.eq {text source : List Char} (h : Trims text source) : trim text = source := by
  obtain ⟨⟨front, back, rfl, hfront, hback⟩, hhead, hlast⟩ := h
  have hback' : ∀ c ∈ back.reverse, isBlank c = true := fun c hc => hback c (List.mem_reverse.1 hc)
  cases source with
  | nil =>
    have hall : ∀ c ∈ front ++ [] ++ back, isBlank c = true := by
      simpa [or_imp, forall_and] using ⟨hfront, hback⟩
    have hnone := @Token.dropWhile_run isBlank _ [] hall nofun
    rw [List.append_nil] at hnone
    rw [trim, hnone]
    rfl
  | cons d ds =>
    rw [trim, List.append_assoc, Token.dropWhile_run hfront (by simpa using hhead), List.reverse_append,
      Token.dropWhile_run hback' (by simpa only [List.head?_reverse] using hlast), List.reverse_reverse]

theorem Trims.append_blank {text source : List Char} {c : Char} (h : Trims text source)
    (hc : isBlank c = true) : Trims (text ++ [c]) source := by
  obtain ⟨⟨front, back, rfl, hfront, hback⟩, hhead, hlast⟩ := h
  refine ⟨⟨front, back ++ [c], by simp, hfront, ?_⟩, hhead, hlast⟩
  simpa [or_imp, forall_and] using ⟨hback, hc⟩

end Monkey
