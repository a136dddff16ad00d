import ConceptSpace.Source.Position

/-!
# Faults of source text

What can be wrong with source text, with the message, the diagnostic code and the advice that are
shown for it.
-/

namespace ConceptSpace

/-- How a fault is explained to the user. -/
structure Diagnostic where
  /-- What is wrong, in one line. -/
  message : String
  /-- The name of the kind of fault. -/
  code : String
  /-- What to do about it. -/
  help : Option String
  deriving DecidableEq, Repr

namespace Source

/-- A fault of source text. -/
inductive Error where
  /-- No token starts here; the fragment is the text from here on, at most sixteen characters. -/
  | unexpectedInput (fragment : String) (place : Position)
  /-- A closing bracket that does not close the innermost open block. -/
  | unbalanced (bracket : Char) (place : Position)
  /-- An opening bracket without its closing bracket. -/
  | unclosed (bracket : Char) (place : Position)
  /-- A word that no source text can produce. -/
  | invalidWord (word : String)
  /-- A key that names several concepts. -/
  | severalConcepts (key : String) (count : Nat)
  /-- Text that denotes nothing. -/
  | empty
  deriving DecidableEq, Repr

namespace Position

/-- A position in the form `line:column`. -/
def render (p : Position) : String :=
  toString p.line ++ ":" ++ toString p.column

end Position

namespace Error

/-- The message of a fault. -/
def message : Error → String
  | .unexpectedInput fragment place =>
    "unexpected input at " ++ place.render ++ ": \"" ++ fragment ++ "\""
  | .unbalanced bracket place =>
    "unbalanced '" ++ bracket.toString ++ "' at " ++ place.render
  | .unclosed bracket place =>
    "'" ++ bracket.toString ++ "' opened at " ++ place.render ++ " is never closed"
  | .invalidWord word => "invalid atom: \"" ++ word ++ "\""
  | .severalConcepts key count =>
    "\"" ++ key ++ "\" is not a single concept key (" ++ toString count ++ " concepts)"
  | .empty => "source contains no concept"

/-- The diagnostic code of a fault. -/
def code : Error → String
  | .unexpectedInput .. => "coeng::grammar::unexpected_input"
  | .unbalanced .. => "coeng::grammar::unbalanced"
  | .unclosed .. => "coeng::grammar::unclosed"
  | .invalidWord .. => "coeng::grammar::invalid_atom"
  | .severalConcepts .. => "coeng::grammar::not_a_key"
  | .empty => "coeng::grammar::empty"

/-- The advice for a fault. -/
def help : Error → String
  | .unexpectedInput .. =>
    "No token starts here. Concept source is made of atoms, <<string literals>>, " ++
      "/* comments */, commas or newlines, and the brackets [ ], \x7b \x7d and ( )."
  | .unbalanced .. =>
    "This closing bracket does not match the innermost open block. " ++
      "Check that every [, \x7b and ( is closed by its own kind, innermost first."
  | .unclosed .. => "Add the matching closing bracket before the end of the source."
  | .invalidWord .. =>
    "Atoms must be non-empty and may not contain whitespace, commas, " ++
      "brackets or parentheses. Wrap free text in <<...>> to use it as an atom."
  | .severalConcepts .. =>
    "A key names exactly one concept. Look up each concept on its own, " ++
      "or use a match query for several."
  | .empty => "Provide at least one atom or compound, e.g. \"john [knows javascript]\"."

/-- The explanation of a fault. -/
def diagnostic (e : Error) : Diagnostic :=
  ⟨e.message, e.code, some e.help⟩

end Error

end Source

end ConceptSpace
