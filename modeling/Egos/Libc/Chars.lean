import Egos.Lib.Bytes

/-!
# Strings, and `ctype.h`

The classes of characters are looked up in a table for the values from -1 to 255. Where `char` is a
signed type, most characters from 128 on have negative values, which lie in front of the table.
-/
namespace Egos.Libc

open Egos.Lib

set_option autoImplicit false

/-- A pointer into a string: the bytes from there on, with a NUL behind them if not earlier. -/
abbrev Pointer := List Byte

/-- `*s` -/
def deref (s : Pointer) : Byte := s.headD 0

/-- A character constant. -/
def chr (c : Char) : Byte := BitVec.ofNat 8 c.toNat

/-- The bits of an entry of `ctype_type` that are asked for. -/
structure Class where
  lower : Bool
  upper : Bool
  digit : Bool
  space : Bool
  deriving DecidableEq

/-- The entries of `ctype_type` for the characters from 0 on; those from 128 on are zero, and that
of -1 has none of these bits either. -/
def ctypeType (c : Byte) : Class where
  lower := 97 ≤ c.toNat && c.toNat ≤ 122
  upper := 65 ≤ c.toNat && c.toNat ≤ 90
  digit := 48 ≤ c.toNat && c.toNat ≤ 57
  space := c.toNat == 32 || 9 ≤ c.toNat && c.toNat ≤ 13

/-- The characters in front of the table: from -128 to -2, if `char` is signed. -/
def Untabled (signed : Bool) (c : Byte) : Prop := signed = true ∧ 128 ≤ c.toNat ∧ c.toNat < 255

instance (signed : Bool) (c : Byte) : Decidable (Untabled signed c) :=
  inferInstanceAs (Decidable (_ ∧ _))

section

variable (signed : Bool)

/-- `ctype_type[(int) c + 1]`, if there is such an entry. -/
def classOf (c : Byte) : Option Class :=
  if Untabled signed c then none else some (ctypeType c)

def isspace (c : Byte) : Option Bool := (classOf signed c).map Class.space

def isdigit (c : Byte) : Option Bool := (classOf signed c).map Class.digit

def islower (c : Byte) : Option Bool := (classOf signed c).map Class.lower

def isupper (c : Byte) : Option Bool := (classOf signed c).map Class.upper

def isalnum (c : Byte) : Option Bool :=
  (classOf signed c).map fun k => k.lower || k.upper || k.digit

end

end Egos.Libc
