/-! A sink for output that may accept a limited number of bytes. A write that does not
fit is cut where the room ends and reported as incomplete; a write of nothing always
fits. -/

namespace Monkey

/-- The bytes accepted so far, and how many more will be if there is a limit. -/
structure Sink where
  accepted : ByteArray
  room : Option Nat

namespace Sink

/-- The sink that has accepted nothing yet. -/
def empty (limit : Option Nat) : Sink := ⟨.empty, limit⟩

/-- Writes what fits, and tells whether that is all of it. -/
def write (s : Sink) (text : String) : Sink × Bool :=
  let bytes := text.toUTF8
  match s.room with
  | none => (⟨s.accepted ++ bytes, none⟩, true)
  | some n => (⟨s.accepted ++ bytes.extract 0 n, some (n - bytes.size)⟩, bytes.size ≤ n)

end Sink

end Monkey
