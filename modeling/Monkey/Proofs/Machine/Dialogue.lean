import Monkey.Proofs.Lines
import Monkey.Proofs.Output

/-! What is said in a session. A line makes the session say something and go on, or end, by the
text of this line alone; so a session says one prompt for each line, with the answer to the line
behind it, up to the line that ends it. The lines of an input are read one by one, and those behind
the last one that was read have no influence. -/

namespace Monkey

/-! ### Turns -/

/-- What comes of a line: the session says something and goes on, or it ends. -/
inductive Turn where
  | goOn (said : String)
  | stop (ending : Except Failure Unit)

/-- The line has this source between blanks, which is not the word to leave. -/
structure Asks (line source : String) : Prop where
  trims : Trims line.toList source.toList
  nonempty : source ≠ ""
  stays : source.toList.map Char.toLower ≠ "exit".toList

/-- What comes of the line that these bytes are. A source is answered by its canonical text, or by
the reasons why it could not be read. -/
inductive TurnOf : List UInt8 → Turn → Prop where
  | notText {bytes : List UInt8} : (∀ text, bytesOf text ≠ bytes) →
    TurnOf bytes (.stop (.error .invalidText))
  | blank {line : String} : Trims line.toList [] → TurnOf (bytesOf line) (.goOn "")
  | farewell {line : String} {word : List Char} : Trims line.toList word →
    word.map Char.toLower = "exit".toList → TurnOf (bytesOf line) (.stop (.ok ()))
  | program {line source : String} : Asks line source → (parse source).diagnostics = [] →
    TurnOf (bytesOf line) (.goOn ((parse source).value.render ++ "\n"))
  | errors {line source : String} : Asks line source → (parse source).diagnostics ≠ [] →
    TurnOf (bytesOf line) (.goOn (errorReport ((parse source).diagnostics.map Diagnostic.message)))

/-- A session over these lines says this text and ends like this. -/
inductive Held : List (List UInt8) → String → Except Failure Unit → Prop where
  | atEnd : Held [] ">> \n" (.ok ())
  | goOn {line : List UInt8} {lines : List (List UInt8)} {said text : String}
    {ending : Except Failure Unit} : TurnOf line (.goOn said) → Held lines text ending →
    Held (line :: lines) (">> " ++ said ++ text) ending
  | stop {line : List UInt8} {lines : List (List UInt8)} {ending : Except Failure Unit} :
    TurnOf line (.stop ending) → Held (line :: lines) ">> " ending

theorem exists_turnOf (bytes : List UInt8) : ∃ t, TurnOf bytes t := by
  by_cases htext : ∃ line, bytesOf line = bytes
  · obtain ⟨line, rfl⟩ := htext
    have htrims := trims_trim line.toList
    by_cases hblank : trim line.toList = []
    · exact ⟨_, .blank (hblank ▸ htrims)⟩
    by_cases hexit : (trim line.toList).map Char.toLower = "exit".toList
    · exact ⟨_, .farewell htrims hexit⟩
    rw [← String.toList_ofList (l := trim line.toList)] at htrims hblank hexit
    have hasks : Asks line (String.ofList (trim line.toList)) :=
      ⟨htrims, fun h => hblank (h ▸ String.toList_empty), hexit⟩
    by_cases hd : (parse (String.ofList (trim line.toList))).diagnostics = []
    · exact ⟨_, .program hasks hd⟩
    · exact ⟨_, .errors hasks hd⟩
  · exact ⟨_, .notText fun line h => htext ⟨line, h⟩⟩

theorem exists_held (lines : List (List UInt8)) : ∃ text ending, Held lines text ending := by
  induction lines with
  | nil => exact ⟨_, _, .atEnd⟩
  | cons line lines ih =>
    obtain ⟨t, ht⟩ := exists_turnOf line
    cases t with
    | goOn said =>
      obtain ⟨text, ending, hrest⟩ := ih
      exact ⟨_, _, .goOn ht hrest⟩
    | stop ending => exact ⟨_, _, .stop ht⟩

theorem Held.ending_ne {lines : List (List UInt8)} {text : String} {ending : Except Failure Unit}
    (h : Held lines text ending) : ending ≠ .error .sinkFull := by
  induction h with
  | atEnd => exact nofun
  | goOn _ _ ih => exact ih
  | stop ht => cases ht <;> exact nofun

open Output

/-! ### Replies -/

/-- What a turn writes, and whether the session goes on. -/
def Turn.output : Turn → Output Bool
  | goOn said => saying said (.ok true)
  | stop ending => saying "" (ending.map fun _ => false)

theorem respond_of_nil {source : String} (h : (parse source).diagnostics = []) :
    respond source = (parse source).value.render ++ "\n" := by
  rw [respond, h]
  rfl

theorem respond_of_ne_nil {source : String} (h : (parse source).diagnostics ≠ []) :
    respond source = errorReport ((parse source).diagnostics.map Diagnostic.message) := by
  simp only [respond, List.isEmpty_iff, if_neg h]

theorem Asks.toList_ne_nil {line source : String} (h : Asks line source) : source.toList ≠ [] :=
  fun hnil => h.nonempty (String.toList_eq_nil_iff.1 hnil)

theorem Asks.turnOf {line source : String} (h : Asks line source) :
    TurnOf (bytesOf line) (.goOn (respond source)) := by
  by_cases hd : (parse source).diagnostics = []
  · rw [respond_of_nil hd]
    exact .program h hd
  · rw [respond_of_ne_nil hd]
    exact .errors h hd

theorem ne_nil_of_exit {word : List Char} (h : word.map Char.toLower = "exit".toList) :
    word ≠ [] := by
  rintro rfl
  cases h

theorem Reply.ofLine_of_exit {line : String} {word : List Char} (h : Trims line.toList word)
    (hexit : word.map Char.toLower = "exit".toList) : Reply.ofLine line = .farewell := by
  rw [Reply.ofLine, h.eq]
  split
  · exact absurd rfl (ne_nil_of_exit hexit)
  · rw [if_pos hexit]

theorem Reply.ofLine_of_asks {line source : String} (h : Asks line source) :
    Reply.ofLine line = .text (respond source) := by
  rw [Reply.ofLine, h.trims.eq]
  split
  · next hnil => exact absurd hnil h.toList_ne_nil
  · rw [if_neg h.stays, String.ofList_toList]

theorem replyTo_bytesOf (line : String) : Session.replyTo (bytesOf line) =
    match Reply.ofLine line with
    | .silence => saying "" (.ok true)
    | .farewell => saying "" (.ok false)
    | .text response => saying response (.ok true) := by
  rw [Session.replyTo, fromUTF8?_eq_some_iff.2 rfl]
  simp only [← pure_eq_saying]
  rfl

theorem TurnOf.replyTo {line : List UInt8} {t : Turn} (h : TurnOf line t) :
    Session.replyTo line = t.output := by
  cases h with
  | notText hnot =>
    rw [Session.replyTo, fromUTF8?_eq_none_iff.2 hnot]
    exact throw_eq_saying .invalidText
  | blank htrims =>
    rw [replyTo_bytesOf, Reply.ofLine, htrims.eq]
    rfl
  | farewell htrims hexit =>
    rw [replyTo_bytesOf, Reply.ofLine_of_exit htrims hexit]
    rfl
  | program hasks hd =>
    rw [replyTo_bytesOf, Reply.ofLine_of_asks hasks, respond_of_nil hd]
    rfl
  | errors hasks hd =>
    rw [replyTo_bytesOf, Reply.ofLine_of_asks hasks, respond_of_ne_nil hd]
    rfl

/-- A newline is a blank, and so does not change the reply. -/
theorem replyTo_newline (piece : List UInt8) :
    Session.replyTo (piece ++ [10]) = Session.replyTo piece := by
  by_cases htext : ∃ line, bytesOf line = piece
  · obtain ⟨line, rfl⟩ := htext
    have hline : bytesOf line ++ [10] = bytesOf (line ++ "\n") := (bytesOf_append line "\n").symm
    have htrim : trim (line ++ "\n").toList = trim line.toList := by
      rw [String.toList_append]
      exact ((trims_trim line.toList).append_blank rfl).eq
    rw [hline, replyTo_bytesOf, replyTo_bytesOf, Reply.ofLine, Reply.ofLine, htrim]
  -- A text with a newline behind it would be one without it too.
  · have hnot : TurnOf piece (.stop (.error .invalidText)) := .notText fun line h => htext ⟨line, h⟩
    have hnot' : TurnOf (piece ++ [10]) (.stop (.error .invalidText)) := by
      refine .notText fun line h => htext ?_
      obtain ⟨front, hfront, -⟩ := exists_bytesOf_line h
      exact ⟨front, hfront⟩
    rw [hnot.replyTo, hnot'.replyTo]

/-! ### Sessions -/

theorem Turn.output_goOn (said : String) (rest : Output Unit) :
    ((goOn said).output >>= fun goesOn => if goesOn then rest else pure ()) =
      (write said >>= fun _ => rest) := by
  rw [output, saying, bind_assoc]
  rfl

theorem Turn.output_stop (ending : Except Failure Unit) (rest : Output Unit) :
    ((stop ending).output >>= fun goesOn => if goesOn then rest else pure ()) =
      saying "" ending := by
  cases ending with
  | ok _ =>
    rw [output, saying, bind_assoc]
    rfl
  | error e => exact saying_error_bind "" e _

theorem run_goOn {line : List UInt8} {said : String} (h : TurnOf line (.goOn said))
    (lines : List (List UInt8)) :
    Session.run (line :: lines) = (write (">> " ++ said) >>= fun _ => Session.run lines) := by
  rw [Session.run, h.replyTo, Turn.output_goOn, ← write_append, bind_assoc]
  rfl

theorem run_stop {line : List UInt8} {ending : Except Failure Unit} (h : TurnOf line (.stop ending))
    (lines : List (List UInt8)) : Session.run (line :: lines) = saying ">> " ending := by
  rw [Session.run, h.replyTo, Turn.output_stop, write_saying]
  rfl

theorem Held.run {lines : List (List UInt8)} {text : String} {ending : Except Failure Unit}
    (h : Held lines text ending) : Session.run lines = saying text ending := by
  induction h with
  | atEnd =>
    rw [Session.run, write_append, write_eq_saying]
    rfl
  | goOn ht _ ih => rw [run_goOn ht, ih, write_saying]
  | stop ht => rw [run_stop ht]

theorem held_iff {lines : List (List UInt8)} {text : String} {ending : Except Failure Unit} :
    Held lines text ending ↔ (Session.run lines).outcome none = (text.toUTF8, ending) := by
  constructor
  · intro h
    rw [h.run, outcome_saying]
  · intro h
    obtain ⟨text', ending', hheld⟩ := exists_held lines
    rw [hheld.run, outcome_saying] at h
    obtain ⟨htext, rfl⟩ := Prod.mk.inj h
    rw [String.toUTF8_eq_toByteArray, String.toUTF8_eq_toByteArray, String.toByteArray_inj] at htext
    exact htext ▸ hheld

/-- Behind a line that ends the session nothing has any influence. -/
theorem run_append_stop {line : List UInt8} {ending : Except Failure Unit}
    (h : TurnOf line (.stop ending)) (before after : List (List UInt8)) :
    Session.run (before ++ line :: after) = Session.run (before ++ [line]) := by
  induction before with
  | nil => rw [List.nil_append, List.nil_append, run_stop h, run_stop h]
  | cons b before ih => rw [List.cons_append, List.cons_append, Session.run, Session.run, ih]

/-- The newline of the last line may be missing. -/
theorem run_newline {input : List UInt8} {lines : List (List UInt8)} (h : Cuts input lines)
    (hinput : ¬ Complete input) : Session.run (linesOf (input ++ [10])) = Session.run lines := by
  induction h with
  | nil => exact absurd (.inl rfl) hinput
  | last _ hpiece =>
    rw [linesOf_line hpiece, linesOf]
    simp only [Session.run, replyTo_newline]
  | line hpiece _ ih =>
    have hrest := ih fun h => hinput (Complete.line h)
    rw [List.append_assoc, List.cons_append, linesOf_line hpiece, Session.run, Session.run, hrest]

/-! ### Reading and writing -/

namespace Machine

theorem answer_eq (source : String) : answer source = write (respond source) := by
  have hjoin : String.join ((parse source).value.statements.map Statement.render ++ ["\n"]) =
      (parse source).value.render ++ "\n" := by
    rw [Program.render, Statement.renderAll_eq_join, String.join_append]
    rfl
  have hwrites : answer source =
      if ((parse source).diagnostics.map Diagnostic.message).isEmpty then
        writeAll ((parse source).value.statements.map Statement.render ++ ["\n"])
      else printErrors ((parse source).diagnostics.map Diagnostic.message) := rfl
  rw [hwrites, respond, writeAll_eq, hjoin, printErrors_eq, List.isEmpty_map]
  split <;> rfl

/-- What is done to a line that was read, by what comes of it. -/
theorem round_eq {bytes : List UInt8} {t : Turn} (h : TurnOf bytes t) (rest : Output Unit) :
    (match String.fromUTF8? bytes.toByteArray with
      | none => throw .invalidText
      | some line =>
        let source := trim line.toList
        if source.isEmpty then rest
        else if source.map Char.toLower = "exit".toList then return
        else do
          answer (String.ofList source)
          rest) =
      (t.output >>= fun goesOn => if goesOn then rest else pure ()) := by
  have hasked {line source : String} (h : Asks line source) :
      (if (trim line.toList).isEmpty then rest
        else if (trim line.toList).map Char.toLower = "exit".toList then return
        else do
          answer (String.ofList (trim line.toList))
          rest) = (write (respond source) >>= fun _ => rest) := by
    simp only [h.trims.eq, List.isEmpty_iff, if_neg h.toList_ne_nil, if_neg h.stays,
      String.ofList_toList, answer_eq]
  cases h with
  | notText hnot =>
    rw [fromUTF8?_eq_none_iff.2 hnot, Turn.output_stop]
    exact throw_eq_saying .invalidText
  | blank htrims =>
    rw [fromUTF8?_eq_some_iff.2 rfl, Turn.output_goOn, write_empty, pure_bind]
    simp only [htrims.eq]
    rfl
  | farewell htrims hexit =>
    rw [fromUTF8?_eq_some_iff.2 rfl, Turn.output_stop, ← pure_eq_saying]
    simp only [htrims.eq, List.isEmpty_iff, if_neg (ne_nil_of_exit hexit), if_pos hexit]
  | program hasks hd =>
    rw [fromUTF8?_eq_some_iff.2 rfl, Turn.output_goOn, ← respond_of_nil hd]
    exact hasked hasks
  | errors hasks hd =>
    rw [fromUTF8?_eq_some_iff.2 rfl, Turn.output_goOn, ← respond_of_ne_nil hd]
    exact hasked hasks

theorem converse_eq (input : List UInt8) : converse input = Session.run (linesOf input) := by
  rw [converse]
  split
  · next hend =>
    rw [eq_nil_of_readLine hend]
    rfl
  · next hline =>
    have hinput : input ≠ [] := by
      rintro rfl
      exact hline rfl
    obtain ⟨t, ht⟩ := exists_turnOf (readLine input).1
    rw [linesOf_eq_readLine hinput, Session.run, ht.replyTo, ← converse_eq (readLine input).2]
    exact congrArg _ (funext fun _ => round_eq ht _)
termination_by input.length
decreasing_by exact readLine_length (by assumption)

/-- Behind a complete line that ends a session the bytes have no influence, whatever they are. -/
theorem converse_append_stop {before line : List UInt8} {ending : Except Failure Unit}
    (hbefore : Complete before) (hline : 10 ∉ line) (h : TurnOf (line ++ [10]) (.stop ending))
    (after : List UInt8) :
    converse (before ++ line ++ 10 :: after) = converse (before ++ line ++ [10]) := by
  rw [converse_eq, converse_eq, List.append_assoc, List.append_assoc, linesOf_append hbefore,
    linesOf_append hbefore, linesOf_line hline, linesOf_line hline, run_append_stop h]
  rfl

end Machine

open Machine

/-- A session answers the lines of an input one by one. The program that reads bytes and writes
piece by piece does the same; cut into lines behind each newline, which can be done in one way, the
input gives what a session over these lines says, and its end. Bytes behind a line that ends the
session do not matter, and neither does whether the last line has a newline. -/
theorem session_over_lines (input : List UInt8) :
    Session.overInput input.toByteArray = converse input ∧
    (∃ lines, Cuts input lines ∧ ∃ text ending, Held lines text ending) ∧
    (∀ lines, Cuts input lines → ∀ text ending,
      Held lines text ending ↔ (converse input).outcome none = (text.toUTF8, ending)) ∧
    (∀ before line after ending, Complete before → 10 ∉ line → TurnOf (line ++ [10]) (.stop ending) →
      input = before ++ line ++ 10 :: after → converse input = converse (before ++ line ++ [10])) ∧
    (input ≠ [] → input.getLast? ≠ some 10 → converse (input ++ [10]) = converse input) := by
  refine ⟨?_, ⟨_, cuts_linesOf input, exists_held _⟩, ?_, ?_, ?_⟩
  · rw [Session.overInput, List.toList_data_toByteArray, converse_eq]
  · intro lines hcuts text ending
    rw [converse_eq, hcuts.linesOf_eq]
    exact held_iff
  · rintro before line after ending hbefore hline ht rfl
    exact converse_append_stop hbefore hline ht after
  · intro hne hlast
    rw [converse_eq, converse_eq]
    exact run_newline (cuts_linesOf input) fun h => h.elim hne hlast

/-- A sink that is full cuts a session where it is full, and so it does a list of errors. -/
theorem sessions_obey_limits :
    (∀ input : ByteArray, (Session.overInput input).ObeysLimits ∧
      (converse input.data.toList).ObeysLimits) ∧
    ∀ messages, (printErrors messages).ObeysLimits := by
  have hrun (lines : List (List UInt8)) : (Session.run lines).ObeysLimits := by
    obtain ⟨text, ending, h⟩ := exists_held lines
    rw [h.run]
    exact saying_obeysLimits text h.ending_ne
  refine ⟨fun input => ⟨hrun _, ?_⟩, fun messages => ?_⟩
  · rw [converse_eq]
    exact hrun _
  · rw [printErrors_eq, write_eq_saying]
    exact saying_obeysLimits _ nofun

end Monkey
