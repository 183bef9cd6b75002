/-
Streams of tokens.

* `TokenStream`: a place between the tokens of a text: those still ahead, the
  closing token, and how far the text has been read;
* `TokenStream.current`: the token ahead, the closing one at the end;
* `TokenStream.advance`: past one token; at the end it stays;
* `TokenStream.spanFrom`: the stretch of text read since an earlier stream.

A stream never changes, so that keeping an earlier one is enough to return to
it.
-/
import ArrayExpr.Token

namespace ArrayExpr

/-- A place between the tokens of a text. -/
structure TokenStream where
  /-- how many tokens have been passed -/
  index : Nat
  /-- the end of the last of them, zero before the first -/
  consumedEnd : Nat
  /-- the tokens ahead, without the closing one -/
  ahead : List Token
  /-- the closing token -/
  finish : Token
deriving DecidableEq, Repr

namespace TokenStream

/-- The stream before the first token. -/
def ofTokens (tokens : Tokens) : TokenStream := ⟨0, 0, tokens.items, tokens.finish⟩

/-- The token ahead; at the end the closing one. -/
def current (s : TokenStream) : Token := s.ahead.headD s.finish

/-- Whether only the closing token is left. -/
def atEnd (s : TokenStream) : Bool := s.ahead.isEmpty

/-- The token ahead, if it is not the closing one. -/
def peek? (s : TokenStream) : Option Token := s.ahead.head?

/-- Where the token ahead starts. -/
def offset (s : TokenStream) : Nat := s.current.start.offset

/-- Whether the token ahead is of one of the kinds. -/
def check (s : TokenStream) (kinds : List Kind) : Bool := kinds.contains s.current.kind

/-- The stream after the token ahead; the closing token is never passed. -/
def advance (s : TokenStream) : TokenStream :=
  match s.ahead with
  | [] => s
  | t :: rest => { s with index := s.index + 1, consumedEnd := t.stop, ahead := rest }

/-- The stream after `n` tokens. -/
def advanceBy (s : TokenStream) : Nat → TokenStream
  | 0 => s
  | n + 1 => s.advance.advanceBy n

/-- The empty span before the token ahead. -/
def position (s : TokenStream) : Span := .point s.offset

/-- The span of the tokens from `start` up to `s`; an empty one, if there are
none, stands before the token ahead. -/
def spanFrom (s start : TokenStream) : Span :=
  if s.index = start.index then start.position else ⟨start.offset, s.consumedEnd⟩

/-- Whether two streams over the same tokens stand at the same place. -/
def isAt (s other : TokenStream) : Bool := s.index = other.index

end TokenStream

end ArrayExpr
