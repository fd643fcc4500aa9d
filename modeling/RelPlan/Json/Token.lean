/-!
# JSON tokens

Cuts JSON text into tokens.  The characters of a string stay as they are written, escapes included,
because a string that nobody reads may hold half a surrogate pair.
-/

namespace RelPlan

/-- What stands in a string: a character, or the code unit of a `\u` escape. -/
inductive StringUnit
  | char (c : Char)
  | code (n : Nat)
deriving DecidableEq, Repr

namespace StringUnit

/-- The characters of a string.  Two code units make one character if they are a surrogate pair; a
surrogate outside a pair makes none. -/
def decode : List StringUnit → Option (List Char)
  | [] => some []
  | char c :: rest => (c :: ·) <$> decode rest
  | code high :: code low :: rest =>
    if 0xD800 ≤ high && high < 0xDC00 then
      if 0xDC00 ≤ low && low < 0xE000 then
        let c := Char.ofNat (0x10000 + (high - 0xD800) * 0x400 + (low - 0xDC00))
        (c :: ·) <$> decode rest
      else none
    else if 0xDC00 ≤ high && high < 0xE000 then none
    else (Char.ofNat high :: ·) <$> decode (code low :: rest)
  | code n :: rest =>
    if 0xD800 ≤ n && n < 0xE000 then none else (Char.ofNat n :: ·) <$> decode rest

end StringUnit

namespace Json

inductive Token
  | openArray
  | closeArray
  | openObject
  | closeObject
  | colon
  | comma
  | null
  | bool (b : Bool)
  | number (text : List Char)
  | string (s : List StringUnit)
deriving DecidableEq, Repr

/-! ### Words -/

def digits (cs : List Char) : Bool := !cs.isEmpty && cs.all Char.isDigit

/-- What may stand after the digits of a number: an exponent or nothing. -/
def isExponent : List Char → Bool
  | [] => true
  | e :: cs =>
    (e = 'e' || e = 'E')
      && match cs with
        | '+' :: cs | '-' :: cs => digits cs
        | cs => digits cs

/-- What may stand after the integral part of a number. -/
def isFraction : List Char → Bool
  | '.' :: cs => digits (cs.takeWhile Char.isDigit) && isExponent (cs.dropWhile Char.isDigit)
  | cs => isExponent cs

def isUnsigned : List Char → Bool
  | '0' :: cs => isFraction cs
  | c :: cs => c.isDigit && isFraction (cs.dropWhile Char.isDigit)
  | [] => false

/-- The grammar of numbers: no plus sign, no leading zeros, digits around a point. -/
def isNumber : List Char → Bool
  | '-' :: cs => isUnsigned cs
  | cs => isUnsigned cs

/-- A run of characters that is neither blank, punctuation nor string. -/
def word (cs : List Char) : Option Token :=
  if cs = ['n', 'u', 'l', 'l'] then some .null
  else if cs = ['t', 'r', 'u', 'e'] then some (.bool true)
  else if cs = ['f', 'a', 'l', 's', 'e'] then some (.bool false)
  else if isNumber cs then some (.number cs)
  else none

/-! ### Characters -/

def isBlank (c : Char) : Bool := c = ' ' || c = '\n' || c = '\t' || c = '\r'

def punctuation? (c : Char) : Option Token :=
  match c with
  | '[' => some .openArray
  | ']' => some .closeArray
  | '{' => some .openObject
  | '}' => some .closeObject
  | ':' => some .colon
  | ',' => some .comma
  | _ => none

/-- The character that a one-letter escape stands for. -/
def escaped? (c : Char) : Option Char :=
  match c with
  | '"' | '\\' | '/' => some c
  | 'b' => some '\x08'
  | 'f' => some '\x0c'
  | 'n' => some '\n'
  | 'r' => some '\r'
  | 't' => some '\t'
  | _ => none

def hexDigit? (c : Char) : Option Nat :=
  if '0' ≤ c && c ≤ '9' then some (c.toNat - '0'.toNat)
  else if 'a' ≤ c && c ≤ 'f' then some (c.toNat - 'a'.toNat + 10)
  else if 'A' ≤ c && c ≤ 'F' then some (c.toNat - 'A'.toNat + 10)
  else none

/-- Where the reader stands; what it has read of a token is kept in reverse. -/
inductive Place
  | between
  | inWord (read : List Char)
  | inString (read : List StringUnit)
  | afterBackslash (read : List StringUnit)
  /-- In a `\u` escape with `missing + 1` digits to come. -/
  | inCode (read : List StringUnit) (missing n : Nat)
deriving DecidableEq, Repr

/-- The tokens read so far, in reverse, and the place behind them. -/
structure Reading where
  tokens : List Token
  place : Place
deriving DecidableEq, Repr

namespace Reading

/-- Reads a character that belongs to no token yet. -/
def start (tokens : List Token) (c : Char) : Reading :=
  if isBlank c then ⟨tokens, .between⟩
  else if c = '"' then ⟨tokens, .inString []⟩
  else
    match punctuation? c with
    | some t => ⟨t :: tokens, .between⟩
    | none => ⟨tokens, .inWord [c]⟩

/-- Whether a character ends a word. -/
def endsWord (c : Char) : Bool := isBlank c || c = '"' || (punctuation? c).isSome

def step (r : Reading) (c : Char) : Option Reading :=
  match r.place with
  | .between => some (start r.tokens c)
  | .inWord read =>
    if endsWord c then do return start ((← word read.reverse) :: r.tokens) c
    else some { r with place := .inWord (c :: read) }
  | .inString read =>
    if c = '"' then some ⟨.string read.reverse :: r.tokens, .between⟩
    else if c = '\\' then some { r with place := .afterBackslash read }
    else if c.toNat < 0x20 then none
    else some { r with place := .inString (.char c :: read) }
  | .afterBackslash read =>
    if c = 'u' then some { r with place := .inCode read 3 0 }
    else do return { r with place := .inString (.char (← escaped? c) :: read) }
  | .inCode read missing n => do
    let n := n * 16 + (← hexDigit? c)
    match missing with
    | 0 => return { r with place := .inString (.code n :: read) }
    | missing + 1 => return { r with place := .inCode read missing n }

/-- All tokens, if the text ends between two of them or with a word. -/
def finish (r : Reading) : Option (List Token) :=
  match r.place with
  | .between => some r.tokens.reverse
  | .inWord read => return ((← word read.reverse) :: r.tokens).reverse
  | _ => none

end Reading

/-- The tokens of a text. -/
def tokens (cs : List Char) : Option (List Token) := do
  (← cs.foldlM Reading.step ⟨[], .between⟩).finish

end Json

end RelPlan
