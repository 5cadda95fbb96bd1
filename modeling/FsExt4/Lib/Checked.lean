import FsExt4.Lib.Bytes

namespace FsExt4.Lib

namespace Checked

def add (w a b : Nat) : Option Nat := if a + b < 2 ^ w then some (a + b) else none

def mul (w a b : Nat) : Option Nat := if a * b < 2 ^ w then some (a * b) else none

def sub (a b : Nat) : Option Nat := if b ≤ a then some (a - b) else none

def range (b : Bytes) (off n : Nat) : Option Bytes := if off + n ≤ b.length
    then some (slice b off n) else none

theorem add_eq {w a b : Nat} (h : a + b < 2 ^ w) : add w a b = some (a + b) := if_pos h

theorem mul_eq {w a b : Nat} (h : a * b < 2 ^ w) : mul w a b = some (a * b) := if_pos h

theorem sub_eq {a b : Nat} (h : b ≤ a) : sub a b = some (a - b) := if_pos h

theorem range_eq {b : Bytes} {off n : Nat} (h : off + n ≤ b.length) : range b off n =
    some (slice b off n) :=
  if_pos h

end Checked

end FsExt4.Lib
