import YamlPatch.Text

/-!
# Tokens

A token is a piece of the text with a kind. White space, line breaks, indentation and
comments are tokens too, the *trivia* : the tokens of a text, joined, are the text.

Plain scalars are classified by what they spell (`TokenKind.isPlain`); the kinds of quoted
scalars keep their quotes in the text (`TokenKind.isQuoted`). `TokenKind.name` is how a
message calls a token.
-/

namespace YamlPatch

/-- The kinds of tokens : indicators, marks of documents, scalars by what they spell and how
they are quoted, the properties of nodes, and trivia. -/
inductive TokenKind where
  /-- The item indicator `-`. -/
  | dash
  /-- The value indicator `:`. -/
  | colon
  /-- The key indicator `?`. -/
  | question
  | leftBracket
  | rightBracket
  | leftBrace
  | rightBrace
  | comma
  /-- The line `---` that opens a document. -/
  | documentStart
  /-- The line `...` that closes a document. -/
  | documentEnd
  /-- A plain scalar, or a word of one, that is none of the next four. -/
  | string
  | integer
  | float
  | boolean
  | null
  | singleQuoted
  | doubleQuoted
  /-- A quoted scalar without its closing quote; it runs to the end of the text. -/
  | unterminated
  /-- A literal or folded scalar, header and lines. -/
  | blockScalar
  | tag
  | anchor
  /-- The name of an anchor in place of its node, an alias such as `*name`. -/
  | reference
  /-- A line such as `%YAML 1.2`. -/
  | directive
  /-- Spaces and tabs inside a line. -/
  | space
  /-- A line feed, a carriage return or both. -/
  | lineBreak
  /-- Spaces and tabs at the start of a line. -/
  | indent
  | comment
  deriving DecidableEq, Repr

namespace TokenKind

/-- Tokens without structure. -/
def isTrivia : TokenKind → Bool
  | space | lineBreak | indent | comment => true
  | _ => false

/-- Tokens that are (words of) a plain scalar. -/
def isPlain : TokenKind → Bool
  | string | integer | float | boolean | null => true
  | _ => false

/-- Complete quoted scalars. -/
def isQuoted : TokenKind → Bool
  | singleQuoted | doubleQuoted => true
  | _ => false

/-- The lines between documents : markers and directives. -/
def isMarker : TokenKind → Bool
  | documentStart | documentEnd | directive => true
  | _ => false

/-- Anchors and tags, which precede the node they belong to. -/
def isProperty : TokenKind → Bool
  | anchor | tag => true
  | _ => false

/-- The token as messages call it. -/
def name : TokenKind → String
  | dash => "'-'"
  | colon => "':'"
  | question => "'?'"
  | leftBracket => "'['"
  | rightBracket => "']'"
  | leftBrace => "'\x7b'"
  | rightBrace => "'\x7d'"
  | comma => "','"
  | documentStart => "document start"
  | documentEnd => "document end"
  | blockScalar => "block scalar"
  | anchor => "anchor"
  | tag => "tag"
  | reference => "alias"
  | directive => "directive"
  | string | integer | float | boolean | null | singleQuoted | doubleQuoted => "scalar"
  | unterminated | space | lineBreak | indent | comment => "token"

end TokenKind

/-- A piece of text and what it is. -/
structure Token where
  kind : TokenKind
  text : Text
  deriving DecidableEq, Repr

/-- The text the tokens were cut from. -/
def Token.join (ts : List Token) : Text := ts.flatMap Token.text

@[simp] theorem Token.join_nil : Token.join [] = [] := rfl

@[simp] theorem Token.join_cons (t : Token) (ts : List Token) :
    Token.join (t :: ts) = t.text ++ Token.join ts := rfl

/-- Joining tokens is reading their texts one after the other. -/
@[simp] theorem Token.join_append (ss ts : List Token) :
    Token.join (ss ++ ts) = Token.join ss ++ Token.join ts := by
  simp [Token.join]

end YamlPatch
