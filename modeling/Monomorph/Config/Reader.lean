import Monomorph.Config.Basic
import Monomorph.Json.Reader

/-!
# Config/Reader — a configuration from its text

The text is TOML.  A configuration has settings and no tables, and a setting is a string, a whole
number, a truth value or a list of strings: whatever else a text of TOML may hold makes it no
configuration, so it is refused where it begins.  As for JSON, one pass groups characters into
tokens and another reads the tokens, one element per step.
-/

namespace Monomorph.Config

/-! ## Tokens -/

inductive Token
  /-- A run of letters, digits and the signs of keys, numbers and dates. -/
  | word (s : List Char)
  /-- A string; `multiline` if it stands between three quotes. -/
  | text (s : String) (multiline : Bool)
  | equals
  | comma
  | openList
  | closeList
  | newline
deriving DecidableEq

/-- What the lexer is inside of; characters read so far are kept last first, and `long` says whether
a string stands between three quotes. -/
inductive Mode
  | between
  | word (read : List Char)
  | comment
  /-- A carriage return was read outside strings: only a line feed may follow. -/
  | return
  /-- One or two quotes were read, and nothing of a string yet. -/
  | quotes (quote : Char) (two : Bool)
  /-- Three quotes were read: a line break that follows is no part of the string. -/
  | begin (quote : Char)
  /-- The same, after a carriage return. -/
  | beginReturn (quote : Char)
  /-- Inside a string between single quotes of its kind. -/
  | short (quote : Char) (read : List Char)
  /-- Inside a string between three quotes, after a run of `run` quotes. -/
  | long (quote : Char) (read : List Char) (run : Nat)
  | longReturn (quote : Char) (read : List Char)
  | escape (long : Bool) (read : List Char)
  /-- `left` more hexadecimal digits of a character's number. -/
  | hex (long : Bool) (read : List Char) (left : Nat) (value : Nat)
  /-- Blanks after a backslash, before the line break that has to come. -/
  | skipToBreak (read : List Char)
  /-- Blanks and line breaks after a backslash and a line break. -/
  | skip (read : List Char)
  /-- The same, after a carriage return. -/
  | skipReturn (read : List Char)

structure Lexer where
  tokens : List Token := []
  mode : Mode := .between

def isWordChar (c : Char) : Bool :=
  c.isAlphanum || c = '_' || c = '-' || c = '+' || c = '.' || c = ':'

/-- Whether a character may stand in a string or a comment as it is. -/
def isPlain (c : Char) : Bool :=
  c = '\t' || (0x20 ≤ c.toNat && c.toNat ≠ 0x7F)

/-- The lexer outside strings, at one more character. -/
def Lexer.start (tokens : List Token) (c : Char) : Option Lexer :=
  if c = ' ' || c = '\t' then some ⟨tokens, .between⟩
  else if c = '\n' then some ⟨.newline :: tokens, .between⟩
  else if c = '\r' then some ⟨tokens, .return⟩
  else if c = '#' then some ⟨tokens, .comment⟩
  else if c = '=' then some ⟨.equals :: tokens, .between⟩
  else if c = ',' then some ⟨.comma :: tokens, .between⟩
  else if c = '[' then some ⟨.openList :: tokens, .between⟩
  else if c = ']' then some ⟨.closeList :: tokens, .between⟩
  else if c = '"' || c = '\'' then some ⟨tokens, .quotes c false⟩
  else if isWordChar c then some ⟨tokens, .word [c]⟩
  else none

/-- The token of a finished string. -/
def textToken (read : List Char) (multiline : Bool) : Token :=
  .text (String.ofList read.reverse) multiline

/-- Inside a string between single quotes of its kind, at one more character. -/
def Lexer.short (tokens : List Token) (quote : Char) (read : List Char) (c : Char) :
    Option Lexer :=
  if c = quote then some ⟨textToken read false :: tokens, .between⟩
  else if c = '\\' && quote = '"' then some ⟨tokens, .escape false read⟩
  else if isPlain c then some ⟨tokens, .short quote (c :: read)⟩
  else none

/-- Inside a string between three quotes and not after one, at one more character. -/
def Lexer.inLong (tokens : List Token) (quote : Char) (read : List Char) (c : Char) :
    Option Lexer :=
  if c = quote then some ⟨tokens, .long quote read 1⟩
  else if c = '\\' && quote = '"' then some ⟨tokens, .escape true read⟩
  else if c = '\n' then some ⟨tokens, .long quote ('\n' :: read) 0⟩
  else if c = '\r' then some ⟨tokens, .longReturn quote read⟩
  else if isPlain c then some ⟨tokens, .long quote (c :: read) 0⟩
  else none

/-- The string went on after an escape. -/
def Lexer.resume (tokens : List Token) (long : Bool) (read : List Char) : Lexer :=
  ⟨tokens, if long then .long '"' read 0 else .short '"' read⟩

/-- A string between three quotes, ended by a run of three to five. -/
def longToken (quote : Char) (read : List Char) (run : Nat) : Token :=
  textToken (List.replicate (run - 3) quote ++ read) true

/-- The character after a backslash, unless it is a numeric escape. -/
def unescape? : Char → Option Char
  | '"' => some '"'
  | '\\' => some '\\'
  | 'b' => some '\x08'
  | 'f' => some '\x0c'
  | 'n' => some '\n'
  | 'r' => some '\r'
  | 't' => some '\t'
  | _ => none

/-- One more character; none where no text goes on so. -/
def Lexer.step (l : Lexer) (c : Char) : Option Lexer :=
  match l.mode with
  | .between => Lexer.start l.tokens c
  | .word read =>
      if isWordChar c then some { l with mode := .word (c :: read) }
      else Lexer.start (.word read.reverse :: l.tokens) c
  | .comment =>
      if c = '\n' || c = '\r' then Lexer.start l.tokens c
      else if isPlain c then some l
      else none
  | .return => if c = '\n' then some ⟨.newline :: l.tokens, .between⟩ else none
  | .quotes q false =>
      if c = q then some { l with mode := .quotes q true } else Lexer.short l.tokens q [] c
  | .quotes q true =>
      if c = q then some { l with mode := .begin q }
      else Lexer.start (textToken [] false :: l.tokens) c
  | .begin q =>
      if c = '\n' then some { l with mode := .long q [] 0 }
      else if c = '\r' then some { l with mode := .beginReturn q }
      else Lexer.inLong l.tokens q [] c
  | .beginReturn q => if c = '\n' then some { l with mode := .long q [] 0 } else none
  | .short q read => Lexer.short l.tokens q read c
  | .long q read run =>
      if c = q && run < 5 then some { l with mode := .long q read (run + 1) }
      else if run < 3 then Lexer.inLong l.tokens q (List.replicate run q ++ read) c
      else Lexer.start (longToken q read run :: l.tokens) c
  | .longReturn q read =>
      if c = '\n' then some { l with mode := .long q ('\n' :: read) 0 } else none
  | .escape long read =>
      if c = 'u' then some { l with mode := .hex long read 4 0 }
      else if c = 'U' then some { l with mode := .hex long read 8 0 }
      else match unescape? c with
        | some d => some (Lexer.resume l.tokens long (d :: read))
        | none =>
            if !long then none
            else if c = ' ' || c = '\t' then some { l with mode := .skipToBreak read }
            else if c = '\n' then some { l with mode := .skip read }
            else if c = '\r' then some { l with mode := .skipReturn read }
            else none
  | .hex long read left value => do
      let d ← Json.hexDigit? c
      let value := value * 16 + d
      if 1 < left then some { l with mode := .hex long read (left - 1) value }
      else if value.isValidChar then some (Lexer.resume l.tokens long (Char.ofNat value :: read))
      else none
  | .skipToBreak read =>
      if c = ' ' || c = '\t' then some l
      else if c = '\n' then some { l with mode := .skip read }
      else if c = '\r' then some { l with mode := .skipReturn read }
      else none
  | .skip read =>
      if c = ' ' || c = '\t' || c = '\n' then some l
      else if c = '\r' then some { l with mode := .skipReturn read }
      else Lexer.inLong l.tokens '"' read c
  | .skipReturn read => if c = '\n' then some { l with mode := .skip read } else none

/-- The tokens of a text, a line break after the last. -/
def tokens? (cs : List Char) : Option (List Token) := do
  let l ← cs.foldlM Lexer.step {}
  match l.mode with
  | .between | .comment => return (Token.newline :: l.tokens).reverse
  | .word read => return (Token.newline :: .word read.reverse :: l.tokens).reverse
  | .quotes _ true => return (Token.newline :: textToken [] false :: l.tokens).reverse
  | .long q read run =>
      if run < 3 then none
      else return (Token.newline :: longToken q read run :: l.tokens).reverse
  | _ => none

/-! ## Settings -/

inductive Value
  | text (s : String)
  | whole (n : Int)
  | flag (b : Bool)
  | texts (l : List String)

/-- The value of digits in a base below 17, with single underscores between them. -/
def digits? (base : Nat) : List Char → Option Nat → Option Nat
  | [], n => n
  | '_' :: c :: r, some n => do
      let d ← Json.hexDigit? c
      if d < base then digits? base r (some (n * base + d)) else none
  | c :: r, n => do
      let d ← Json.hexDigit? c
      if d < base then digits? base r (some (n.getD 0 * base + d)) else none

/-- A decimal number without a sign or a leading zero. -/
def decimal? : List Char → Option Nat
  | '0' :: _ :: _ => none
  | cs => digits? 10 cs none

/-- A whole number of 63 bits and a sign. -/
def whole? (cs : List Char) : Option Int := do
  let n : Int ← match cs with
    | '0' :: 'x' :: r => digits? 16 r none
    | '0' :: 'o' :: r => digits? 8 r none
    | '0' :: 'b' :: r => digits? 2 r none
    | '+' :: r => decimal? r
    | '-' :: r => (decimal? r).map fun n => -(n : Int)
    | r => decimal? r
  if Int64.minValue.toInt ≤ n ∧ n ≤ Int64.maxValue.toInt then some n else none

/-- The value of a bare word. -/
def wordValue? (cs : List Char) : Option Value :=
  if cs = ['t', 'r', 'u', 'e'] then some (.flag true)
  else if cs = ['f', 'a', 'l', 's', 'e'] then some (.flag false)
  else (whole? cs).map .whole

/-- The key a token is. -/
def key? : Token → Option String
  | .word cs =>
      if cs.all fun c => c.isAlphanum || c = '_' || c = '-' then some (String.ofList cs) else none
  | .text s false => some s
  | _ => none

/-- Where the reader is in a line; `settings` are those read, the last first. -/
inductive Place
  | line
  | afterKey (key : String)
  | value (key : String)
  /-- In a list, where an item or the end may come. -/
  | item (key : String) (items : List String)
  | afterItem (key : String) (items : List String)
  | lineEnd

structure Reader where
  settings : List (String × Value) := []
  place : Place := .line

/-- One more token; none where no configuration goes on so. -/
def Reader.step (r : Reader) (t : Token) : Option Reader :=
  match r.place, t with
  | .line, .newline => some r
  | .line, t => (key? t).map fun k => { r with place := .afterKey k }
  | .afterKey k, .equals => some { r with place := .value k }
  | .value k, .text s _ => some ⟨(k, .text s) :: r.settings, .lineEnd⟩
  | .value k, .word w => (wordValue? w).map fun v => ⟨(k, v) :: r.settings, .lineEnd⟩
  | .value k, .openList => some { r with place := .item k [] }
  | .item _ _, .newline | .afterItem _ _, .newline => some r
  | .item k items, .text s _ => some { r with place := .afterItem k (s :: items) }
  | .afterItem k items, .comma => some { r with place := .item k items }
  | .item k items, .closeList | .afterItem k items, .closeList =>
      some ⟨(k, .texts items.reverse) :: r.settings, .lineEnd⟩
  | .lineEnd, .newline => some { r with place := .line }
  | _, _ => none

/-- A configuration with one more setting. -/
def set? (c : Config) : String × Value → Option Config
  | ("entrypoint_attribute", .text s) => some { c with entryAttribute := s }
  | ("core_namespace", .text s) => some { c with coreNamespace := s }
  | ("core_types", .texts l) => some { c with coreTypes := l }
  | ("max_fixpoint_rounds", .whole n) =>
      if 0 ≤ n then some { c with maxRounds := some (UInt64.ofNat n.toNat) } else none
  | ("infer_var_types", .flag b) => some { c with inferTypes := b }
  | _ => none

/-- The configuration a text gives, if it is one; a setting may be given once. -/
def read? (s : String) : Option Config := do
  let cs := match s.toList with
    | '\uFEFF' :: r => r
    | r => r
  let tokens ← tokens? cs
  let r ← tokens.foldlM Reader.step {}
  match r.place with
  | .line =>
      let settings := r.settings.reverse
      if (settings.map (·.1)).Nodup then settings.foldlM set? {} else none
  | _ => none

end Monomorph.Config
