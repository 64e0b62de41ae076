import Monkey.Proofs.Machine.Dialogue
import Monkey.Proofs.Printable

/-! Running a file and asking a session. A source that is the line of a session gets there the
answer that the command for a file with this source gives: the statements, which the command
prints one to a line, or the errors, and then the command prints nothing else. -/

namespace Monkey

/-! ### Files -/

theorem textOf_toUTF8 (text : String) : textOf text.toUTF8 = .ok text := by
  have hbytes : String.fromUTF8? text.toUTF8 = some text := by
    rw [String.fromUTF8?, String.toUTF8_eq_toByteArray, dif_pos text.isValidUTF8]
    rfl
  rw [textOf, hbytes]

/-- A text is read back from a file whose path is one name. -/
theorem Directory.read_ofFiles {name text : String} (hpath : name.splitOn "/" = [name])
    (hname : stays name = false) (habove : name ≠ "..") (hroot : name.startsWith "/" = false) :
    (ofFiles [(name, text.toUTF8)]).read name = .ok text := by
  have hempty : name ≠ "" := by
    rintro rfl
    cases hname
  have hfiles : ofFiles [(name, text.toUTF8)] = ⟨[([name], text.toUTF8)]⟩ := by
    simp only [ofFiles, List.map_cons, hpath]
    simp [hname]
  have hstep : step ⟨[([name], text.toUTF8)]⟩ (.inside []) name = .ok (.file text.toUTF8) := by
    simp [step, hname, habove]
  rw [hfiles, read, if_neg hempty, hpath]
  simp only [hroot, Bool.false_eq_true, if_false, List.foldlM_cons, hstep]
  exact textOf_toUTF8 text

open Machine

/-! ### Both answers -/

theorem converse_asks {line source : String} (h : Asks line source) (hline : '\n' ∉ line.toList)
    (rest : List UInt8) : converse (bytesOf line ++ 10 :: rest) =
      (Output.write (">> " ++ respond source) >>= fun _ => converse rest) := by
  have hnewline : bytesOf line ++ [10] = bytesOf (line ++ "\n") := (bytesOf_append line "\n").symm
  have hasks : Asks (line ++ "\n") source := by
    refine ⟨?_, h.nonempty, h.stays⟩
    rw [String.toList_append]
    exact h.trims.append_blank rfl
  rw [converse_eq, converse_eq, linesOf_line (not_mem_bytesOf hline), hnewline,
    run_goOn hasks.turnOf]

theorem Response.ofSource_of_nil {source : String} (h : (parse source).diagnostics = []) :
    ofSource false source = success
      (String.join ((parse source).value.statements.map fun s => s.render ++ "\n")) := by
  rw [ofSource, h]
  rfl

theorem Response.ofSource_of_ne_nil {source : String} (h : (parse source).diagnostics ≠ []) :
    ofSource false source = failure (respond source) := by
  rw [respond_of_ne_nil h]
  simp only [ofSource, List.isEmpty_iff, if_neg h]
  simp

/-- The command for a file and a session agree on every source that is a line. Either all of it
could be read: then the command succeeds and prints each statement on one line, and the session
says the same lines in one. Or else the command fails, and its errors are what the session says. -/
theorem run_agrees_with_session {directory : Directory} {file source : String}
    (hfile : directory.read file = .ok source) (hne : source ≠ "") (hline : '\n' ∉ source.toList)
    (hhead : ∀ c ∈ source.toList.head?, isBlank c = false)
    (hlast : ∀ c ∈ source.toList.getLast?, isBlank c = false)
    (hstays : source.toList.map Char.toLower ≠ "exit".toList) (input : ByteArray) (user : String) :
    let run := Command.respond directory input user (.run file false)
    ∃ response : String,
      (∀ rest, converse (bytesOf source ++ 10 :: rest) =
        (Output.write (">> " ++ response) >>= fun _ => converse rest)) ∧
      (Session.overInput source.toUTF8).outcome none =
        ((">> " ++ response ++ ">> \n").toUTF8, .ok ()) ∧
      (((parse source).diagnostics = [] ∧ run.exit = 0 ∧ run.errors = .empty ∧
          ∃ lines : List String, lines.length = (parse source).value.statements.length ∧
            (∀ line ∈ lines, '\n' ∉ line.toList) ∧
            run.output = (String.join (lines.map (· ++ "\n"))).toUTF8 ∧
            response = String.join lines ++ "\n") ∨
        ((parse source).diagnostics ≠ [] ∧ run.exit = 1 ∧ run.output = .empty ∧
          run.errors = response.toUTF8)) := by
  intro run
  have hasks : Asks source source := ⟨⟨⟨[], [], by simp, by simp, by simp⟩, hhead, hlast⟩, hne, hstays⟩
  have hrun : run = Response.ofSource false source := by
    change Response.ofRun file false (directory.read file) = _
    rw [hfile]
    rfl
  have hbytes : bytesOf source ≠ [] := fun h => hne (bytesOf_inj.1 h)
  have hcuts : Cuts (bytesOf source) [bytesOf source] := .last hbytes (not_mem_bytesOf hline)
  have hheld : Held [bytesOf source] (">> " ++ respond source ++ ">> \n") (.ok ()) :=
    .goOn hasks.turnOf .atEnd
  refine ⟨respond source, converse_asks hasks hline, ?_, ?_⟩
  · change (Session.run (linesOf (bytesOf source))).outcome none = _
    rw [hcuts.linesOf_eq]
    exact held_iff.1 hheld
  by_cases hd : (parse source).diagnostics = []
  · left
    rw [hrun, Response.ofSource_of_nil hd, respond_of_nil hd]
    refine ⟨hd, rfl, rfl, (parse source).value.statements.map Statement.render,
      List.length_map _, fun line hmem => ?_, ?_, ?_⟩
    · obtain ⟨s, hs, rfl⟩ := List.mem_map.1 hmem
      exact (Statement.printable s (parse_faithful source s hs)).newline_not_mem
    · rw [List.map_map]
      rfl
    · rw [Program.render, Statement.renderAll_eq_join]
  · right
    rw [hrun, Response.ofSource_of_ne_nil hd]
    exact ⟨hd, rfl, rfl, rfl⟩

/-- A line with errors. -/
theorem run_agrees_with_session_errors :
    let run := Command.respond (.ofFiles [("a", "let = 5".toUTF8)]) .empty "" (.run "a" false)
    run.exit = 1 ∧ run.output = .empty ∧ ∃ response : String, run.errors = response.toUTF8 ∧
      (Session.overInput "let = 5".toUTF8).outcome none =
        ((">> " ++ response ++ ">> \n").toUTF8, .ok ()) := by
  have hpath : "a".splitOn "/" = ["a"] := by
    have hrest : String.splitOnAux "a" "/" 0 ⟨1⟩ 0 [] = ["a"] := by
      rw [String.splitOnAux, if_pos (by decide +kernel)]
      decide +kernel
    rw [String.splitOn, if_neg (by decide), String.splitOnAux, if_neg (by decide +kernel),
      if_neg (by decide +kernel)]
    exact hrest
  have hfile : (Directory.ofFiles [("a", "let = 5".toUTF8)]).read "a" = .ok "let = 5" :=
    Directory.read_ofFiles hpath (by decide) (by decide) (by decide +kernel)
  have herrors : (parse "let = 5").diagnostics ≠ [] := by decide +kernel
  have hhead : ∀ c ∈ "let = 5".toList.head?, isBlank c = false := by
    rintro _ ⟨⟩
    decide
  have hlast : ∀ c ∈ "let = 5".toList.getLast?, isBlank c = false := by
    rintro _ ⟨⟩
    decide
  obtain ⟨response, -, hsession, hverdict⟩ := run_agrees_with_session hfile (by decide) (by decide)
    hhead hlast (by decide) .empty ""
  obtain ⟨hread, -⟩ | ⟨-, hexit, houtput, hrun⟩ := hverdict
  · exact absurd hread herrors
  · exact ⟨hexit, houtput, response, hrun, hsession⟩

end Monkey
