import RomEmbed.Text.Basic

/-!
Patterns for the messages of records. They are regular expressions, and what these match is for
an engine to say that is no part of this program. Of any engine so much is known: a pattern
without special characters is looked for as it stands.
-/

namespace RomEmbed.Log

namespace Pattern

/-- Where none of these characters stands, all others mean themselves. -/
def special : Text := "\\.+*?()|[]\x7b\x7d^$".toList

def IsPlain (pattern : Text) : Prop := ∀ c ∈ pattern, c ∉ special

instance (pattern : Text) : Decidable (IsPlain pattern) :=
  List.decidableBAll (· ∉ special) pattern

end Pattern

structure Engine where
  /-- The messages that a pattern matches, or why it cannot be read. -/
  compile : Text → Except Text (Text → Bool)
  compile_plain : ∀ pattern, Pattern.IsPlain pattern →
    compile pattern = .ok (Text.occurs pattern)

namespace Engine

/-- The engine that reads no other patterns than plain ones. -/
def plain : Engine where
  compile pattern :=
    if Pattern.IsPlain pattern then .ok (Text.occurs pattern)
    else .error "only plain patterns are read".toList
  compile_plain _ h := if_pos h

end Engine

end RomEmbed.Log
