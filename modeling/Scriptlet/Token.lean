import Scriptlet.Position

namespace Scriptlet

inductive Keyword
  | andWord | orWord | notWord | trueWord | falseWord | nilWord | funWord | varWord
  | ifWord | thenWord | elseWord | whileWord | doWord | returnWord
  deriving DecidableEq, Inhabited

namespace Keyword

def all : List Keyword :=
  [andWord, orWord, notWord, trueWord, falseWord, nilWord, funWord, varWord,
    ifWord, thenWord, elseWord, whileWord, doWord, returnWord]

def text : Keyword → String
  | andWord => "and" | orWord => "or" | notWord => "not"
  | trueWord => "true" | falseWord => "false" | nilWord => "nil"
  | funWord => "fun" | varWord => "var"
  | ifWord => "if" | thenWord => "then" | elseWord => "else"
  | whileWord => "while" | doWord => "do" | returnWord => "return"

def ofText? (s : String) : Option Keyword :=
  all.find? (·.text = s)

end Keyword

inductive Symbol
  | plus | minus | star | slash
  | equal | equalEqual | notEqual | less | lessEqual | greater | greaterEqual
  | leftParen | rightParen | leftBrace | rightBrace | leftBracket | rightBracket
  | comma | semicolon
  deriving DecidableEq, Inhabited

namespace Symbol

def all : List Symbol :=
  [plus, minus, star, slash, equal, equalEqual, notEqual, less, lessEqual, greater, greaterEqual,
    leftParen, rightParen, leftBrace, rightBrace, leftBracket, rightBracket, comma, semicolon]

def chars : Symbol → List Char
  | plus => ['+'] | minus => ['-'] | star => ['*'] | slash => ['/']
  | equal => ['='] | equalEqual => ['=', '='] | notEqual => ['!', '=']
  | less => ['<'] | lessEqual => ['<', '='] | greater => ['>'] | greaterEqual => ['>', '=']
  | leftParen => ['('] | rightParen => [')'] | leftBrace => ['\x7b'] | rightBrace => ['\x7d']
  | leftBracket => ['['] | rightBracket => [']'] | comma => [','] | semicolon => [';']

def text (s : Symbol) : String :=
  String.ofList s.chars

def ofChars? (cs : List Char) : Option Symbol :=
  all.find? (·.chars = cs)

def isDelimiter : Symbol → Bool
  | leftParen | rightParen | leftBrace | rightBrace | leftBracket | rightBracket
  | comma | semicolon => true
  | _ => false

def name : Symbol → String
  | plus => "PLUS" | minus => "MINUS" | star => "STAR" | slash => "SLASH"
  | equal => "EQUAL" | equalEqual => "EQUAL_EQUAL" | notEqual => "NOT_EQUAL"
  | less => "LESS" | lessEqual => "LESS_EQUAL"
  | greater => "GREATER" | greaterEqual => "GREATER_EQUAL"
  | leftParen => "LEFT_PAREN" | rightParen => "RIGHT_PAREN"
  | leftBrace => "LEFT_BRACE" | rightBrace => "RIGHT_BRACE"
  | leftBracket => "LEFT_BRACKET" | rightBracket => "RIGHT_BRACKET"
  | comma => "COMMA" | semicolon => "SEMICOLON"

end Symbol

inductive TokenKind
  | keyword (k : Keyword)
  | symbol (s : Symbol)
  | identifier
  | number
  | string
  | endOfInput
  deriving DecidableEq, Inhabited

inductive Category
  | keyword | identifier | literal | operator | delimiter | endOfInput
  deriving DecidableEq, Inhabited

def Category.name : Category → String
  | keyword => "keyword" | identifier => "identifier" | literal => "literal"
  | operator => "operator" | delimiter => "delimiter" | endOfInput => "end-of-input"

namespace TokenKind

def all : List TokenKind :=
  Keyword.all.map keyword ++ Symbol.all.map symbol ++ [identifier, number, string, endOfInput]

def category : TokenKind → Category
  | keyword _ => .keyword
  | symbol s => if s.isDelimiter then .delimiter else .operator
  | identifier => .identifier
  | number | string => .literal
  | endOfInput => .endOfInput

def name : TokenKind → String
  | keyword k => k.text.map Char.toUpper
  | symbol s => s.name
  | identifier => "IDENTIFIER"
  | number => "NUMBER"
  | string => "STRING"
  | endOfInput => "EOF"

def ofName? (s : String) : Option TokenKind :=
  all.find? (·.name = s)

def describe : TokenKind → String
  | keyword k => s!"'{k.text}'"
  | symbol s => s!"'{s.text}'"
  | identifier => "identifier"
  | number => "number"
  | string => "string"
  | endOfInput => "end of input"

end TokenKind

inductive Literal
  | number (x : Float)
  | string (s : String)

structure Token where
  kind : TokenKind
  text : String
  pos : Position
  offset : Int
  value : Option Literal

namespace Token

def ofWord (text : String) (pos : Position) (offset : Int) : Token :=
  ⟨(Keyword.ofText? text).elim .identifier .keyword, text, pos, offset, none⟩

def endOfInput (pos : Position) (offset : Int) : Token :=
  ⟨.endOfInput, "", pos, offset, none⟩

def same (a b : Token) : Bool :=
  a.kind = b.kind && a.text = b.text && a.pos = b.pos

def describe (t : Token) : String :=
  if t.kind = .endOfInput then "end of input" else s!"'{t.text}'"

def listing (t : Token) : String :=
  s!"<{t.kind.name}({t.text}) at {t.pos.describe}>"

def endBehind (t : Token) : Token :=
  if t.kind = .endOfInput then t
  else endOfInput ⟨t.pos.line, t.pos.column + t.text.length⟩ (t.offset + t.text.length)

end Token

end Scriptlet
