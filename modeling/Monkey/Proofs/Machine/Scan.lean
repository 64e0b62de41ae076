import Monkey.Machine.Scan
import Monkey.Proofs.Machine.Cursor
import Monkey.Proofs.Machine.Termination

/-! A cursor is in range whenever it is read. Reading alone puts its fields in order, whatever they
were, and never moves it back; so at each step of each call the place, the place read next and the
current character fit the text, and a run is cut out of the text between two places that are in
order. Each call gives the token that the cursor reads, and moves on unless the text is at its
end. -/

namespace Monkey.Machine

/-! ### Cursors -/

namespace Cursor

variable {c : Cursor}

/-- The cursor is on a character of its text, or behind the last one on a null character. -/
def InRange (c : Cursor) : Prop :=
  (∃ h : c.place < c.text.size, c.next = c.place + 1 ∧ c.current = c.text[c.place]) ∨
    c.place = c.text.size ∧ c.next = c.text.size ∧ c.current = '\x00'

/-- Reading puts any cursor in range. -/
theorem read_inRange (c : Cursor) : c.read.InRange := by
  by_cases h : c.next < c.text.size
  · rw [read_of_lt h]
    exact .inl ⟨h, rfl, rfl⟩
  · rw [read_of_le (Nat.le_of_not_lt h)]
    exact .inr ⟨rfl, rfl, rfl⟩

theorem InRange.place_le (h : c.InRange) : c.place ≤ c.text.size := by
  rcases h with ⟨hlt, -, -⟩ | ⟨heq, -, -⟩
  · exact Nat.le_of_lt hlt
  · exact Nat.le_of_eq heq

theorem InRange.place_le_read (h : c.InRange) : c.place ≤ c.read.place := by
  by_cases hnext : c.next < c.text.size
  · rw [read_of_lt hnext]
    rcases h with ⟨-, hn, -⟩ | ⟨-, hn, -⟩
    · exact Nat.le_trans (Nat.le_succ c.place) (Nat.le_of_eq hn.symm)
    · exact absurd hnext (hn ▸ Nat.lt_irrefl _)
  · rw [read_of_le (Nat.le_of_not_lt hnext)]
    exact h.place_le

/-- A character is read next only where there is one. -/
theorem read?_eq (c : Cursor) : c.read? = some c.read := by
  by_cases h : c.text.size ≤ c.next
  · rw [read_of_le h, read?, if_pos h]
  · have hlt : c.next < c.text.size := Nat.lt_of_not_le h
    rw [read_of_lt hlt, read?, if_neg h, Array.getElem?_eq_getElem hlt]
    rfl

theorem slice?_eq {start stop : Nat} (hstart : start ≤ stop) (hstop : stop ≤ c.text.size) :
    c.slice? start stop = some (String.ofList (c.text.extract start stop).toList) :=
  if_pos ⟨hstart, hstop⟩

/-- A cursor in range stands in front of the text from its place on. -/
theorem InRange.faces (h : c.InRange) : c.Faces (c.text.toList.drop c.place) := by
  refine ⟨rfl, h.place_le, ?_, ?_⟩
  · rcases h with ⟨hlt, hnext, -⟩ | ⟨hplace, hnext, -⟩
    · rw [hnext, Nat.min_eq_left hlt]
    · rw [hnext, hplace, Nat.min_eq_right (Nat.le_succ _)]
  · rcases h with ⟨hlt, -, hcurrent⟩ | ⟨hplace, -, hcurrent⟩
    · rw [hcurrent, List.drop_eq_getElem_cons (by simpa using hlt)]
      simp
    · rw [hcurrent, hplace, List.drop_eq_nil_of_le (by simp)]
      rfl

/-! ### Loops -/

/-- A loop that ends does so on a character that it does not accept, with the cursor in range. -/
theorem InRange.of_skipWhile {accept : Char → Bool} {d : Cursor} (hc : c.InRange)
    (h : c.skipWhile accept = some d) : d.InRange ∧ ¬ accept d.current = true := by
  fun_induction Cursor.skipWhile accept c with
  | case1 => cases h
  | case2 c _ _ ih => exact ih c.read_inRange h
  | case3 c hstop =>
    cases h
    exact ⟨hc, hstop⟩

end Cursor

namespace Scan

open Cursor

variable {x y : Scan} {t : Token} {c d : Cursor} {text : Array Char}

/-! ### Steps -/

/-- What holds at each moment of a call over this text. -/
structure Sound (text : Array Char) (x : Scan) : Prop where
  text_eq : x.cursor.text = text
  inRange : x.cursor.InRange
  start_le : ∀ form start, x.stage = .run form start → start ≤ x.cursor.place

theorem sound_ofCursor (htext : c.text = text) (hc : c.InRange) : (ofCursor c).Sound text :=
  ⟨htext, hc, nofun⟩

theorem sound_run {form : RunForm} {start : Nat} (htext : c.text = text) (hc : c.InRange)
    (hstart : start ≤ c.place) : (Scan.mk (.run form start) c).Sound text := by
  refine ⟨htext, hc, fun _ _ h => ?_⟩
  cases h
  exact hstart

/-- What holds behind a step. -/
def Next.Sound (text : Array Char) : Next → Prop
  | more x => x.Sound text
  | given _ c => c.text = text ∧ c.InRange

/-- No step accesses the text out of range, or goes back. -/
theorem Sound.step (hx : x.Sound text) :
    ∃ next, x.step = some next ∧ next.Sound text ∧ x.cursor.place ≤ next.cursor.place := by
  obtain ⟨stage, c⟩ := x
  obtain ⟨htext, hc, hstart⟩ := hx
  have hread : c.read.text = text := c.read_text.trans htext
  have hplace : c.place ≤ c.read.place := hc.place_le_read
  cases stage with
  | blanks =>
    simp only [Scan.step, read?_eq]
    split
    · exact ⟨_, rfl, ⟨hread, c.read_inRange, nofun⟩, hplace⟩
    split
    · exact ⟨_, rfl, ⟨hread, c.read_inRange, nofun⟩, hplace⟩
    split
    · exact ⟨_, rfl, ⟨hread, c.read_inRange, nofun⟩, hplace⟩
    split
    · exact ⟨_, rfl, sound_run htext hc (Nat.le_refl _), Nat.le_refl _⟩
    split
    · exact ⟨_, rfl, sound_run htext hc (Nat.le_refl _), Nat.le_refl _⟩
    · exact ⟨_, rfl, ⟨htext, hc, nofun⟩, Nat.le_refl _⟩
  | run form start =>
    have hle : start ≤ c.place := hstart form start rfl
    simp only [Scan.step, read?_eq, slice?_eq hle hc.place_le]
    split
    · exact ⟨_, rfl, sound_run hread c.read_inRange (Nat.le_trans hle hplace), hplace⟩
    · exact ⟨_, rfl, ⟨htext, hc⟩, Nat.le_refl _⟩
  | last t =>
    simp only [Scan.step, read?_eq]
    exact ⟨_, rfl, ⟨hread, c.read_inRange⟩, hplace⟩

/-- A run that would have begun behind the cursor cannot be cut out. -/
example : (Scan.mk (.run .word 3) (.ofString "+ab")).step = none := by rfl

theorem Leads.sound (h : x.Leads y) (hx : x.Sound text) :
    y.Sound text ∧ x.cursor.place ≤ y.cursor.place := by
  induction h with
  | refl => exact ⟨hx, Nat.le_refl _⟩
  | more _ hstep ih =>
    obtain ⟨next, hnext, hsound, hle⟩ := ih.1.step
    cases hnext.symm.trans hstep
    exact ⟨hsound, Nat.le_trans ih.2 hle⟩
  | again _ hstep ih =>
    obtain ⟨next, hnext, hsound, hle⟩ := ih.1.step
    cases hnext.symm.trans hstep
    exact ⟨sound_ofCursor hsound.1 hsound.2, Nat.le_trans ih.2 hle⟩

theorem Gives.sound (h : x.Gives t d) (hx : x.Sound text) : d.text = text ∧ d.InRange := by
  induction h with
  | last hstep =>
    obtain ⟨next, hnext, hsound, -⟩ := hx.step
    cases hnext.symm.trans hstep
    exact hsound
  | more hstep _ ih =>
    obtain ⟨next, hnext, hsound, -⟩ := hx.step
    cases hnext.symm.trans hstep
    exact ih hsound

/-- The next call is made where this one ends. -/
theorem Gives.leads (h : y.Gives t d) (hx : x.Leads y) : x.Leads (ofCursor d) := by
  induction h with
  | last hstep => exact hx.again hstep
  | more hstep _ ih => exact ih (hx.more hstep)

/-! ### Tokens -/

theorem gives_blanks (h : c.skipWhile Char.isWhitespace = some d) {e : Cursor}
    (hd : (ofCursor d).Gives t e) : (ofCursor c).Gives t e := by
  fun_induction Cursor.skipWhile Char.isWhitespace c with
  | case1 => cases h
  | case2 c hblank _ ih =>
    refine .more (y := ofCursor c.read) ?_ (ih h)
    simp [ofCursor, Scan.step, hblank, read?_eq]
  | case3 c _ =>
    cases h
    exact hd

theorem gives_run {form : RunForm} {start : Nat} (h : c.skipWhile form.accepts = some d)
    (hc : c.InRange) (hstart : start ≤ c.place) : (Scan.mk (.run form start) c).Gives
      (form.token (String.ofList (c.text.extract start d.place).toList)) d := by
  fun_induction Cursor.skipWhile form.accepts c with
  | case1 => cases h
  | case2 c haccept _ ih =>
    have hrest := ih h c.read_inRange (Nat.le_trans hstart hc.place_le_read)
    rw [c.read_text] at hrest
    refine .more ?_ hrest
    simp [Scan.step, haccept, read?_eq]
  | case3 c hstop =>
    cases h
    refine .last ?_
    simp [Scan.step, hstop, slice?_eq hstart hc.place_le]

theorem gives_last (h : x.step = some (.more ⟨.last t, c⟩)) : x.Gives t c.read :=
  .more h (.last (by simp [Scan.step, read?_eq]))

theorem gives_readWhile {form : RunForm} {word : String}
    (h : x.step = some (.more ⟨.run form c.place, c⟩)) (hc : c.InRange)
    (hword : c.readWhile form.accepts = some (word, d)) : x.Gives (form.token word) d := by
  obtain ⟨e, hskip, hslice⟩ := Option.bind_eq_some_iff.1 hword
  cases hslice
  exact .more h (gives_run hskip hc (Nat.le_refl c.place))

/-- A call that has no blanks to skip gives the token at the cursor. -/
theorem gives_of_lexeme (hc : c.InRange) (hblank : ¬ c.current.isWhitespace = true)
    (h : c.lexeme = some (t, d)) : (ofCursor c).Gives t d := by
  rw [Cursor.lexeme] at h
  split at h
  · next hequal =>
    cases h
    exact gives_last (by simp [ofCursor, Scan.step, hequal, read?_eq])
  next hequal =>
  split at h
  · next hbang =>
    cases h
    exact gives_last (by simp [ofCursor, Scan.step, hbang, read?_eq])
  next hbang =>
  split at h
  · next hletter =>
    obtain ⟨⟨word, e⟩, hword, hgiven⟩ := Option.bind_eq_some_iff.1 h
    cases hgiven
    have hrun : c.readWhile RunForm.word.accepts = some (word, d) := hword
    refine gives_readWhile ?_ hc hrun
    rw [ofCursor, Scan.step, if_neg hblank, if_neg hequal, if_neg hbang, if_pos hletter]
  next hletter =>
  split at h
  · next hdigit =>
    obtain ⟨⟨digits, e⟩, hdigits, hgiven⟩ := Option.bind_eq_some_iff.1 h
    cases hgiven
    have hrun : c.readWhile RunForm.number.accepts = some (digits, d) := hdigits
    refine gives_readWhile ?_ hc hrun
    rw [ofCursor, Scan.step, if_neg hblank, if_neg hequal, if_neg hbang, if_neg hletter,
      if_pos hdigit]
  · next hdigit =>
    cases h
    refine gives_last ?_
    rw [ofCursor, Scan.step, if_neg hblank, if_neg hequal, if_neg hbang, if_neg hletter,
      if_neg hdigit]

theorem gives_of_token (hc : c.InRange) (h : c.token = some (t, d)) : (ofCursor c).Gives t d := by
  obtain ⟨e, hskip, hlexeme⟩ := Option.bind_eq_some_iff.1 h
  obtain ⟨he, hstop⟩ := hc.of_skipWhile hskip
  exact gives_blanks hskip (gives_of_lexeme he hstop hlexeme)

/-- Every call gives a token in the end. -/
theorem Sound.exists_gives (hx : x.Sound text) : ∃ t d, x.Gives t d := by
  obtain ⟨stage, c⟩ := x
  obtain ⟨-, hc, hstart⟩ := hx
  cases stage with
  | blanks =>
    obtain ⟨d, htoken, -⟩ := hc.faces.token
    exact ⟨_, d, gives_of_token hc htoken⟩
  | run form start =>
    have hend : form.accepts '\x00' = false := by cases form <;> rfl
    obtain ⟨d, hskip, -⟩ := hc.faces.skipWhile form.accepts hend
    exact ⟨_, d, gives_run hskip hc (hstart form start rfl)⟩
  | last t => exact ⟨t, c.read, .last (by simp [Scan.step, read?_eq])⟩

/-- A call gives the token that a lexer gives on the text from the place on, and leaves the text
that it leaves. The cursor moves on, unless the text is at its end. -/
theorem Sound.token (hx : (ofCursor c).Sound text) : ∃ t d, c.token = some (t, d) ∧
    (ofCursor c).Gives t d ∧
    Lexer.next ⟨text.toList.drop c.place⟩ = (t, ⟨text.toList.drop d.place⟩) ∧
    (c.place < text.size ∧ c.place < d.place ∨ c.place = text.size ∧ d = c) := by
  have hc : c.InRange := hx.inRange
  obtain rfl : c.text = text := hx.text_eq
  obtain ⟨d, htoken, hd⟩ := hc.faces.token
  have hgives := gives_of_token hc htoken
  have hahead := hd.ahead
  rw [(hgives.sound hx).1] at hahead
  refine ⟨_, d, htoken, hgives, by rw [hahead], ?_⟩
  rcases Nat.lt_or_eq_of_le hc.place_le with hlt | hend
  · left
    have hbefore : (Lexer.mk (c.text.toList.drop c.place)).ahead.length =
        c.text.size - c.place := by simp
    have hbehind := congrArg List.length hahead
    rw [List.length_drop, Array.length_toList] at hbehind
    rcases next_length ⟨c.text.toList.drop c.place⟩ with hnext | ⟨hnext, -⟩ <;> omega
  · right
    have hfaces := hc.faces
    rw [hend, List.drop_eq_nil_of_le (by simp)] at hfaces
    have hsame := htoken.symm.trans hfaces.token_nil
    exact ⟨hend, congrArg Prod.snd (Option.some.inj hsame)⟩

/-- Calls may be made behind one another for ever. -/
theorem exists_pull (hx : x.Sound text) (hc : x.Leads (ofCursor c)) (pulls : List Pull) :
    ∃ answers d, c.pull pulls = some (answers, d) ∧ x.Leads (ofCursor d) := by
  induction pulls generalizing c with
  | nil => exact ⟨[], c, rfl, hc⟩
  | cons p ps ih =>
    obtain ⟨t, d, htoken, hgives, -⟩ := (hc.sound hx).1.token
    obtain ⟨answers, e, hpull, he⟩ := ih (hgives.leads hc)
    refine ⟨p.answer t :: answers, e, ?_, he⟩
    simp only [Cursor.pull, htoken, Option.bind_eq_bind, Option.bind_some, hpull]
    rfl

/-- At each moment of each call the cursor is in range, nothing is accessed out of range, the call
comes to its end, and the place does not get less from there on. A call gives the token that a lexer
gives on the text from the place on; the cursor moves on, or the text is at its end and nothing
changes. So calls of both kinds may be made in any order. -/
theorem calls_in_range (source : String) :
    (∀ x, Reached source x → x.Sound source.toList.toArray ∧ (∃ next, x.step = some next) ∧
      (∃ t c, x.Gives t c) ∧ ∀ y, x.Leads y → x.cursor.place ≤ y.cursor.place) ∧
    (∀ c, Reached source (ofCursor c) → ∃ t d, c.token = some (t, d) ∧ (ofCursor c).Gives t d ∧
      Lexer.next ⟨source.toList.drop c.place⟩ = (t, ⟨source.toList.drop d.place⟩) ∧
      (c.place < source.length ∧ c.place < d.place ∨ c.place = source.length ∧ d = c)) ∧
    ∀ pulls, ∃ answers c, (Cursor.ofString source).pull pulls = some (answers, c) ∧
      Reached source (ofCursor c) := by
  have hfirst : (ofCursor (.ofString source)).Sound source.toList.toArray :=
    sound_ofCursor (read_text _) (read_inRange _)
  refine ⟨fun x hx => ?_, fun c hc => ?_, exists_pull hfirst .refl⟩
  · have hsound := (hx.sound hfirst).1
    obtain ⟨next, hnext, -⟩ := hsound.step
    exact ⟨hsound, ⟨next, hnext⟩, hsound.exists_gives, fun y hy => (hy.sound hsound).2⟩
  · have htoken := (hc.sound hfirst).1.token
    rwa [List.size_toArray, String.length_toList] at htoken

end Scan

end Monkey.Machine
