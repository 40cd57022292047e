import Monomorph.Json.Numeral

/-!
# Json/Reader — JSON text to values

Reading is a pass over the characters that groups them into tokens (`Lexer`) and a pass over the
tokens that keeps the open arrays and objects on a stack (`Builder`).  Both consume one element per
step, so `read?` is total with no measure.  A text is one value with nothing but blanks around it.
What has the form of a value but is none — a surrogate that stands alone, a number out of range, a
value under more than 127 open brackets — is read as `unreadable`, and so is an object with such a
key.
-/

namespace Monomorph.Json

/-! ## Tokens -/

inductive Token
  | openArray
  | closeArray
  | openObject
  | closeObject
  | comma
  | colon
  /-- A text, unless a surrogate stands alone in it. -/
  | text (s : Option String)
  | word (s : List Char)

/-- What the lexer is inside of; what was read so far is kept last first, a text as code points, in
which an escape may be a surrogate. -/
inductive Mode
  | between
  | word (read : List Char)
  | text (read : List Nat)
  | escape (read : List Nat)
  /-- `digits` of four read, with their value. -/
  | hex (read : List Nat) (digits : Nat) (value : Nat)

/-- Tokens found so far, last first, and what is being read. -/
structure Lexer where
  tokens : List Token := []
  mode : Mode := .between

def isBlank (c : Char) : Bool :=
  c = ' ' || c = '\n' || c = '\t' || c = '\r'

/-- The token a character is by itself. -/
def punctuation? : Char → Option Token
  | '[' => some .openArray
  | ']' => some .closeArray
  | '\x7b' => some .openObject
  | '\x7d' => some .closeObject
  | ',' => some .comma
  | ':' => some .colon
  | _ => none

def hexDigit? (c : Char) : Option Nat :=
  if '0' ≤ c ∧ c ≤ '9' then some (c.toNat - '0'.toNat)
  else if 'a' ≤ c ∧ c ≤ 'f' then some (c.toNat - 'a'.toNat + 10)
  else if 'A' ≤ c ∧ c ≤ 'F' then some (c.toNat - 'A'.toNat + 10)
  else none

/-- The character after a backslash, unless it is a numeric escape. -/
def unescape? : Char → Option Char
  | '"' => some '"'
  | '\\' => some '\\'
  | '/' => some '/'
  | 'b' => some '\x08'
  | 'f' => some '\x0c'
  | 'n' => some '\n'
  | 'r' => some '\r'
  | 't' => some '\t'
  | _ => none

/-- A code unit that opens a surrogate pair. -/
def isHighSurrogate (n : Nat) : Bool := 0xD800 ≤ n && n < 0xDC00

/-- A code unit that closes a surrogate pair. -/
def isLowSurrogate (n : Nat) : Bool := 0xDC00 ≤ n && n < 0xE000

/-- Put characters before `joined`, given their code points last first; surrogates go in pairs. -/
def joinSurrogates (joined : List Char) : List Nat → Option (List Char)
  | [] => some joined
  | [n] => if isHighSurrogate n || isLowSurrogate n then none else some (Char.ofNat n :: joined)
  | l :: h :: r =>
      if isHighSurrogate l then none
      else if !isLowSurrogate l then joinSurrogates (Char.ofNat l :: joined) (h :: r)
      else if isHighSurrogate h then
        joinSurrogates (Char.ofNat (0x10000 + (h - 0xD800) * 0x400 + (l - 0xDC00)) :: joined) r
      else none

/-- The token of a text, given its code points last first. -/
def Token.ofCodes (read : List Nat) : Token :=
  .text ((joinSurrogates [] read).map String.ofList)

/-- The lexer between tokens, at one more character. -/
def Lexer.start (tokens : List Token) (c : Char) : Lexer :=
  if isBlank c then ⟨tokens, .between⟩
  else if c = '"' then ⟨tokens, .text []⟩
  else match punctuation? c with
    | some t => ⟨t :: tokens, .between⟩
    | none => ⟨tokens, .word [c]⟩

/-- One more character; none where no text of JSON goes on so. -/
def Lexer.step (l : Lexer) (c : Char) : Option Lexer :=
  match l.mode with
  | .between => some (Lexer.start l.tokens c)
  | .word read =>
      if isBlank c || c = '"' || (punctuation? c).isSome then
        some (Lexer.start (.word read.reverse :: l.tokens) c)
      else some { l with mode := .word (c :: read) }
  | .text read =>
      if c = '"' then some ⟨.ofCodes read :: l.tokens, .between⟩
      else if c = '\\' then some { l with mode := .escape read }
      else if c.toNat < 0x20 then none
      else some { l with mode := .text (c.toNat :: read) }
  | .escape read =>
      if c = 'u' then some { l with mode := .hex read 0 0 }
      else (unescape? c).map fun d => { l with mode := .text (d.toNat :: read) }
  | .hex read digits value => do
      let d ← hexDigit? c
      let value := value * 16 + d
      if digits < 3 then return { l with mode := .hex read (digits + 1) value }
      else return { l with mode := .text (value :: read) }

/-- The tokens of a text. -/
def tokens? (cs : List Char) : Option (List Token) := do
  let l ← cs.foldlM Lexer.step {}
  match l.mode with
  | .between => return l.tokens.reverse
  | .word read => return (Token.word read.reverse :: l.tokens).reverse
  | _ => none

/-- The value a bare word is. -/
def word? (cs : List Char) : Option Json :=
  if cs = ['n', 'u', 'l', 'l'] then some .null
  else if cs = ['t', 'r', 'u', 'e'] then some (.bool true)
  else if cs = ['f', 'a', 'l', 's', 'e'] then some (.bool false)
  else (Numeral.ofChars? cs).map fun n => ofNumeral n cs

/-- The value a text is. -/
def ofText : Option String → Json
  | some s => .text s
  | none => .unreadable

/-! ## Values -/

/-- Members of an object that is open, last first. -/
abbrev Drafts := List (Option String × Json)

/-- The object with these members, if it has all its keys. -/
def ofMembers (members : Drafts) : Json :=
  match members.reverse.mapM fun e => e.1.map fun k => (k, e.2) with
  | some l => .object l
  | none => .unreadable

/-- An open bracket: what it holds so far, last first. -/
inductive Frame
  | array (done : List Json)
  /-- An object at the value of `key`. -/
  | object (done : Drafts) (key : Option String)

/-- What may come next. -/
inductive Expect
  | value
  /-- After an opening square bracket. -/
  | valueOrClose
  /-- After an opening curly bracket. -/
  | keyOrClose
  /-- After a comma in an object that holds `done`. -/
  | key (done : Drafts)
  | colon (done : Drafts) (key : Option String)
  /-- A value is complete. -/
  | done (j : Json)

structure Builder where
  expect : Expect := .value
  stack : List Frame := []

/-- The most brackets that may be open at once. -/
def maxDepth : Nat := 127

/-- A bracket is closed, and `j` is what it holds. -/
def Builder.close (stack : List Frame) (j : Json) : Builder :=
  ⟨.done (if stack.length < maxDepth then j else .unreadable), stack⟩

/-- A token where a value may begin. -/
def Builder.begin (stack : List Frame) : Token → Option Builder
  | .openArray => some ⟨.valueOrClose, stack⟩
  | .openObject => some ⟨.keyOrClose, stack⟩
  | .text s => some ⟨.done (ofText s), stack⟩
  | .word w => (word? w).map fun j => ⟨.done j, stack⟩
  | _ => none

/-- One more token; none where no value goes on so. -/
def Builder.step (b : Builder) (t : Token) : Option Builder :=
  match b.expect, t with
  | .value, t => Builder.begin b.stack t
  | .valueOrClose, .closeArray => some (.close b.stack (.array []))
  | .valueOrClose, t => Builder.begin (.array [] :: b.stack) t
  | .keyOrClose, .closeObject => some (.close b.stack (.object []))
  | .keyOrClose, .text k => some ⟨.colon [] k, b.stack⟩
  | .key done, .text k => some ⟨.colon done k, b.stack⟩
  | .colon done k, .colon => some ⟨.value, .object done k :: b.stack⟩
  | .done j, t =>
      match b.stack, t with
      | .array done :: stack, .comma => some ⟨.value, .array (j :: done) :: stack⟩
      | .array done :: stack, .closeArray => some (.close stack (.array (j :: done).reverse))
      | .object done k :: stack, .comma => some ⟨.key ((k, j) :: done), stack⟩
      | .object done k :: stack, .closeObject => some (.close stack (ofMembers ((k, j) :: done)))
      | _, _ => none
  | _, _ => none

/-- The value of a text, if it is one. -/
def read? (s : String) : Option Json := do
  let tokens ← tokens? s.toList
  let b ← tokens.foldlM Builder.step {}
  match b.expect, b.stack with
  | .done j, [] => return j
  | _, _ => none

end Monomorph.Json
