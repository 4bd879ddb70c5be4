/-!
The log that a command keeps.
-/
namespace AdapterForge

inductive LogLevel where
  | info
  | error
  deriving DecidableEq

structure LogLine where
  level : LogLevel
  message : String
  deriving DecidableEq

namespace LogLine

/-- A character as a log shows it: one that could steer a terminal is spelled out. -/
def spell (c : Char) : List Char :=
  let n := c.toNat
  if n = 0x07 ∨ n = 0x08 ∨ n = 0x0C then ['\\', 'x', '0'] ++ Nat.toDigits 16 n
  else if n = 0x1B ∨ n = 0x7F then ['\\', 'x'] ++ Nat.toDigits 16 n
  else if 0x80 ≤ n ∧ n < 0xA0 then ['\\', 'u', '\x7b'] ++ Nat.toDigits 16 n ++ ['\x7d']
  else [c]

def tell (level : LogLevel) (message : String) : LogLine :=
  ⟨level, String.ofList (message.toList.flatMap spell)⟩

end LogLine

end AdapterForge
