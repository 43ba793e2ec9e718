import TemplateLexer.Markup.Fragment

/-! # Token streams

The output of a lexer grows at its end only. A stream knows the position behind
its last token, so each new token is placed right there and the spans of a
stream have neither gaps nor overlaps.
-/

namespace TemplateLexer

/-- Tokens in the order of the input, and the position behind the last of them. -/
structure TokenStream where
  tokens : List Token := []
  offset : Nat := 0

namespace TokenStream

/-- Places lexemes behind the last token. -/
def append (stream : TokenStream) (lexemes : List Lexeme) : TokenStream :=
  { tokens := stream.tokens ++ Lexeme.placeAll stream.offset lexemes
    offset := stream.offset + (Lexeme.sourceOf lexemes).length }

/-- Places the lexemes of a fragment behind the last token. -/
def emit (stream : TokenStream) (fragment : Markup.Fragment) : TokenStream :=
  stream.append fragment.lexemes

/-- The stream of a list of fragments. -/
def ofFragments (fragments : List Markup.Fragment) : TokenStream :=
  ({} : TokenStream).append (fragments.flatMap Markup.Fragment.lexemes)

theorem append_nil (stream : TokenStream) : stream.append [] = stream := by
  simp [append, Lexeme.placeAll, Lexeme.sourceOf]

theorem append_append (stream : TokenStream) (first second : List Lexeme) :
    stream.append (first ++ second) = (stream.append first).append second := by
  simp [append, Lexeme.placeAll_append, Lexeme.sourceOf_append, Nat.add_assoc]

/-- Emitting fragments one after the other places all their lexemes. -/
theorem foldl_emit (stream : TokenStream) (fragments : List Markup.Fragment) :
    fragments.foldl emit stream = stream.append (fragments.flatMap Markup.Fragment.lexemes) := by
  induction fragments generalizing stream with
  | nil => exact (append_nil stream).symm
  | cons fragment rest ih => rw [List.foldl_cons, ih, emit, List.flatMap_cons, append_append]

end TokenStream

end TemplateLexer
