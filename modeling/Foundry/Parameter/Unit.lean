import Foundry.Text.Blank

/-!
# Units

A size may end in a letter for a power of 1024, in either case: `k`, `m` or `g`. A time may end in
the name of a unit, in either case and with blanks around it.

* `sizeFactor_pos`: scaling by a size letter never loses a value.
-/

namespace Foundry.Parameter

open Foundry.Text

-- A power with a natural exponent is the repeated product.
attribute [local instance (high)] instPowNat

/-- The power of 1024 that a letter stands for; any other character, or none, stands for none. -/
def sizePower : Option Char → Nat
  | some 'k' | some 'K' => 1
  | some 'm' | some 'M' => 2
  | some 'g' | some 'G' => 3
  | _ => 0

/-- The factor that a size letter stands for. -/
def sizeFactor (letter : Option Char) : Nat :=
  1024 ^ sizePower letter

/-- The units of simulated time, from femtoseconds to seconds. -/
inductive TimeUnit where
  | fs
  | ps
  | ns
  | us
  | ms
  | s
  deriving DecidableEq

namespace TimeUnit

/-- Every unit. -/
def all : List TimeUnit := [fs, ps, ns, us, ms, s]

/-- The suffix that names the unit. -/
def name : TimeUnit → String
  | fs => "fs"
  | ps => "ps"
  | ns => "ns"
  | us => "us"
  | ms => "ms"
  | s => "s"

/-- The enumerator that names the unit in C++. -/
def enumerator : TimeUnit → String
  | fs => "sc_core::SC_FS"
  | ps => "sc_core::SC_PS"
  | ns => "sc_core::SC_NS"
  | us => "sc_core::SC_US"
  | ms => "sc_core::SC_MS"
  | s => "sc_core::SC_SEC"

/-- The unit that a suffix names, in any case and with any blanks around it. -/
def ofSuffix? (suffix : List Char) : Option TimeUnit :=
  let folded := (trim suffix).map Char.toLower
  all.find? fun u => u.name.toList == folded

end TimeUnit

theorem sizeFactor_pos (letter : Option Char) : 0 < sizeFactor letter :=
  Nat.pow_pos (by decide)

end Foundry.Parameter
