import Monkey.Grammar.Expression
import Monkey.Text.Sink
import Monkey.Token.Lexer

/-! Reading programs off a lexer. A reading keeps the causes of all statements dropped
so far and writes the calls it makes to a sink, when it has one; what the sink accepts
has no influence on what is read. -/

namespace Monkey

/-- The program of a source, with the causes of the statements dropped and the calls made. -/
def parse (source : String) : Outcome Program := Grammar.program (Lexer.ofString source).tokens

/-- Programs being read one after another. -/
structure Reading where
  ahead : List Token
  diagnostics : List Diagnostic
  sink : Option Sink

namespace Reading

def ofLexer (l : Lexer) : Reading := ⟨l.tokens, [], none⟩

/-- Sends the calls from here on to a new sink. -/
def traceTo (r : Reading) (sink : Sink) : Reading := { r with sink := some sink }

/-- Reads the next program, up to an end-of-input mark, which stays ahead. -/
def program (r : Reading) : Program × Reading :=
  let o := Grammar.program r.ahead
  (o.value,
    { ahead := o.ahead
      diagnostics := r.diagnostics ++ o.diagnostics
      sink := r.sink.map fun s => (s.write (traceText o.calls)).1 })

end Reading

end Monkey
