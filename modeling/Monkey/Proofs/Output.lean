import Monkey.Machine.Dialogue
import Monkey.Proofs.Tracing

/-! Programs that write. All that a program does to a sink is to say a text and then to end, with
a value or a failure; the pieces in which it says the text are not to be seen. So a sink with a
limit receives what an unlimited one receives, up to the limit, and only a text that is longer
makes the program break off. -/

namespace Monkey

namespace Output

variable {α β : Type}

/-! ### Saying a text -/

/-- Says a text and ends as told, unless the sink breaks off. -/
def saying (text : String) (ending : Except Failure α) : Output α := do
  write text
  MonadExcept.ofExcept ending

theorem write_run (text : String) (s : Sink) : (write text).run s =
    if (s.write text).2 then .ok () (s.write text).1 else .error .sinkFull (s.write text).1 := by
  change write text s = _
  unfold write
  split
  · next h => simp [h]
  · next h => simp [h]

theorem write_append (a b : String) : (do write a; write b) = write (a ++ b) := by
  funext s
  change (do write a; write b : Output Unit).run s = (write (a ++ b)).run s
  rw [EStateM.run_bind, write_run, write_run]
  by_cases h : (s.write a).2 = true
  · rw [if_pos h]
    simp only [write_run, Sink.write_of_fits h]
  · rw [if_neg h, Sink.write_of_cut (by simpa using h), if_neg h]

theorem write_empty : write "" = pure () := by
  funext s
  change (write "").run s = _
  rw [write_run, Sink.write_empty, if_pos]
  · rfl
  · exact congrArg Prod.snd (Sink.writePieces_eq s []).symm

theorem write_eq_saying (text : String) : write text = saying text (.ok ()) :=
  (bind_pure (write text)).symm

theorem pure_eq_saying (a : α) : (pure a : Output α) = saying "" (.ok a) := by
  rw [saying, write_empty, pure_bind]
  rfl

theorem throw_eq_saying (e : Failure) : (throw e : Output α) = saying "" (.error e) := by
  rw [saying, write_empty, pure_bind]
  rfl

theorem write_saying (a b : String) (ending : Except Failure α) :
    (do write a; saying b ending) = saying (a ++ b) ending := by
  simp only [saying, ← write_append, bind_assoc]

theorem saying_error_bind (text : String) (e : Failure) (f : α → Output β) :
    (saying text (.error e) >>= f) = saying text (.error e) := by
  simp only [saying, bind_assoc]
  rfl

/-! ### Pieces -/

theorem writeAll_eq (pieces : List String) : Machine.writeAll pieces = write (String.join pieces) := by
  induction pieces with
  | nil => exact write_empty.symm
  | cons piece pieces ih => rw [Machine.writeAll, ih, write_append, String.join_cons]

theorem writeMessages_eq (messages : List String) : Machine.writeMessages messages =
    write (String.join (messages.map fun m => "\t" ++ m ++ "\n")) := by
  induction messages with
  | nil => exact write_empty.symm
  | cons m messages ih =>
    rw [Machine.writeMessages, writeAll_eq, ih, write_append, List.map_cons, String.join_cons]
    simp [String.append_assoc]

theorem printErrors_eq (messages : List String) :
    Machine.printErrors messages = write (errorReport messages) := by
  rw [Machine.printErrors, writeMessages_eq, write_append, errorReport]

/-! ### Outcomes -/

/-- What a new sink with this limit, if there is one, has accepted in the end, and how the program
ended. -/
def outcome (m : Output α) (limit : Option Nat) : ByteArray × Except Failure α :=
  match m.run (.empty limit) with
  | .ok a s => (s.accepted, .ok a)
  | .error e s => (s.accepted, .error e)

theorem outcome_saying (text : String) (ending : Except Failure α) :
    (saying text ending).outcome none = (text.toUTF8, ending) := by
  have hfits : ((Sink.empty none).write text).2 = true := rfl
  rw [outcome, saying, EStateM.run_bind, write_run, if_pos hfits]
  simp only [Sink.empty_write]
  cases ending <;> rfl

theorem outcome_saying_limited (text : String) (ending : Except Failure α) (n : Nat) :
    (saying text ending).outcome (some n) = (text.toUTF8.extract 0 n,
      if n < text.toUTF8.size then .error .sinkFull else ending) := by
  rw [outcome, saying, EStateM.run_bind, write_run]
  by_cases h : text.toUTF8.size ≤ n
  · have hfits : ((Sink.empty (some n)).write text).2 = true := decide_eq_true h
    rw [if_pos hfits, if_neg (Nat.not_lt.2 h)]
    simp only [Sink.empty_write]
    cases ending <;> rfl
  · have hcut : ((Sink.empty (some n)).write text).2 ≠ true := by simpa [Sink.write, Sink.empty] using h
    rw [if_neg hcut, if_pos (Nat.lt_of_not_le h)]
    simp only [Sink.empty_write]
    rfl

/-- With a limit a sink accepts what it would accept without one, up to the limit. The program
breaks off if there is more, and otherwise it ends as it would without. -/
structure ObeysLimits (m : Output α) : Prop where
  accepted : ∀ n, (m.outcome (some n)).1 = (m.outcome none).1.extract 0 n
  breaks : ∀ n, (m.outcome (some n)).2 = .error .sinkFull ↔ n < (m.outcome none).1.size
  ends : ∀ n, (m.outcome none).1.size ≤ n → (m.outcome (some n)).2 = (m.outcome none).2

theorem saying_obeysLimits (text : String) {ending : Except Failure α}
    (h : ending ≠ .error .sinkFull) : (saying text ending).ObeysLimits := by
  refine ⟨fun n => ?_, fun n => ?_, fun n hn => ?_⟩
  · rw [outcome_saying_limited, outcome_saying]
  · rw [outcome_saying_limited, outcome_saying]
    split <;> simp_all
  · rw [outcome_saying] at hn
    rw [outcome_saying_limited, outcome_saying, if_neg (Nat.not_lt.2 hn)]

end Output

end Monkey
