/-! Counters.  Offsets, lines, and columns are counted in 32 bits.  A number loses its higher bits where
it is made a counter.  A sum of counters is one only if it has no higher bits, and a difference only if
it is not below zero. -/

namespace OffsideCss.Counter

/-- The first number that is no counter, two to the power of 32. -/
def limit : Nat := 4294967296

/-- The counter that a number is made. -/
def wrap (n : Nat) : Nat := n % limit

/-- The sum of two counters, if it is one. -/
def add? (m n : Nat) : Option Nat := if m + n < limit then some (m + n) else none

/-- The difference of two counters, if it is one. -/
def sub? (m n : Nat) : Option Nat := if n ≤ m then some (m - n) else none

variable {m n : Nat}

theorem wrap_of_lt (h : n < limit) : wrap n = n := Nat.mod_eq_of_lt h

@[simp] theorem wrap_limit : wrap limit = 0 := Nat.mod_self limit

@[simp] theorem wrap_wrap (n : Nat) : wrap (wrap n) = wrap n := Nat.mod_mod n limit

/-- Counting on from a counter gives the counter of the sum. -/
@[simp] theorem wrap_wrap_add (m n : Nat) : wrap (wrap m + n) = wrap (m + n) := Nat.mod_add_mod m limit n

theorem add?_of_lt (h : m + n < limit) : add? m n = some (m + n) := if_pos h

theorem sub?_of_le (h : n ≤ m) : sub? m n = some (m - n) := if_pos h

end OffsideCss.Counter
