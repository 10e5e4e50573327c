/-!
# Percent-encoding

Every byte of the UTF-8 form that is no ASCII letter or digit is written `%XX`, with upper-case digits.
-/

namespace GraphMarshal.Text

/-- The upper-case hexadecimal digit of a number below sixteen. -/
def upperHexDigit (n : Nat) : Char := (Nat.digitChar n).toUpper

def percentByte (b : UInt8) : List Char :=
  ['%', upperHexDigit (b.toNat / 16), upperHexDigit (b.toNat % 16)]

def percentChar (c : Char) : List Char :=
  if c.isAlphanum then [c] else (String.utf8EncodeChar c).flatMap percentByte

def percentEncode (cs : List Char) : List Char := cs.flatMap percentChar

@[simp] theorem percentEncode_nil : percentEncode [] = [] := rfl

@[simp] theorem percentEncode_cons (c : Char) (cs : List Char) :
    percentEncode (c :: cs) = percentChar c ++ percentEncode cs := rfl

end GraphMarshal.Text
