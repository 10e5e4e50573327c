import GraphMarshal.Text.Blank
import GraphMarshal.Text.Split

/-!
# Absolute URIs

A text reads as an absolute URI when a scheme, a colon and something more make it up and no white space stands
in it.
-/

namespace GraphMarshal.Text

def isSchemeChar (c : Char) : Bool := c.isAlphanum || c = '+' || c = '-' || c = '.'

/-- An ASCII letter, then ASCII letters, digits, `+`, `-` and `.`. -/
def isScheme : List Char → Bool
  | [] => false
  | c :: rest => c.isAlpha && rest.all isSchemeChar

def isAbsoluteUri (cs : List Char) : Bool :=
  match splitFirst ':' cs with
  | none => false
  | some (scheme, rest) => isScheme scheme && !rest.isEmpty && !cs.any isBlank

end GraphMarshal.Text
