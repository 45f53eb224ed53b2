import PhpRuntime.Foundation.Utf8

/-! # The next character of a string

`get_next_char` of `ext/standard/html.c`, which `php_next_utf8_char` calls for UTF-8. A read
behind the end of the string has no result.
-/

namespace PhpRuntime.Html

/-- `enum entity_charset` -/
inductive EntityCharset
  | csUtf8
  | cs88591
  | csCp1252
  | cs885915
  | csCp1251
  | cs88595
  | csCp866
  | csMacroman
  | csKoi8r
  | csBig5
  | csGb2312
  | csBig5hkscs
  | csSjis
  | csEucjp
  deriving DecidableEq, Repr

inductive Status
  | success
  | failure
  deriving DecidableEq, Repr

/-- What a call returns, and what it stores in `*cursor` and `*status`. -/
structure NextChar where
  thisChar : Nat
  cursor : Nat
  status : Status
  deriving DecidableEq, Repr

/-- `MB_FAILURE` -/
def mbFailure (pos advance : Nat) : NextChar where
  thisChar := 0
  cursor := pos + advance
  status := .failure

/-- The end of the function, with `pos` moved behind the character. -/
def mbSuccess (thisChar pos : Nat) : NextChar where
  thisChar := thisChar
  cursor := pos
  status := .success

/-- `CHECK_LEN` -/
def checkLen (str : List UInt8) (pos charsNeed : Nat) : Bool :=
  charsNeed ≤ str.length - pos

/-- `known || test(str[index])`: the byte is read when `known` is false. -/
def orAt (known : Bool) (str : List UInt8) (index : Nat) (test : UInt8 → Bool) : Option Bool :=
  if known then some true else (str[index]?).map test

/-! ## UTF-8 -/

def utf8Lead (c : UInt8) : Bool := c < 0x80 || (c ≥ 0xC2 && c ≤ 0xF4)

def utf8Trail (c : UInt8) : Bool := c ≥ 0x80 && c ≤ 0xBF

def spellTwo (c first : UInt8) : Nat :=
  ((c.toNat &&& 0x1f) <<< 6) ||| (first.toNat &&& 0x3f)

def spellThree (c first second : UInt8) : Nat :=
  ((c.toNat &&& 0x0f) <<< 12) ||| ((first.toNat &&& 0x3f) <<< 6) ||| (second.toNat &&& 0x3f)

def spellFour (c first second third : UInt8) : Nat :=
  ((c.toNat &&& 0x07) <<< 18) ||| ((first.toNat &&& 0x3f) <<< 12) |||
    ((second.toNat &&& 0x3f) <<< 6) ||| (third.toNat &&& 0x3f)

/-- The branch `c < 0xe0`. -/
def nextUtf8Two (str : List UInt8) (pos : Nat) (c : UInt8) : Option NextChar := do
  if !checkLen str pos 2 then
    return mbFailure pos 1
  let first ← str[pos + 1]?
  if !utf8Trail first then
    return mbFailure pos (if utf8Lead first then 1 else 2)
  if spellTwo c first < 0x80 then
    return mbFailure pos 2
  return mbSuccess (spellTwo c first) (pos + 2)

/-- How far an ill-formed sequence of three bytes is skipped. -/
def skipThree (str : List UInt8) (pos avail : Nat) : Option NextChar := do
  if ← orAt (avail < 2) str (pos + 1) utf8Lead then
    return mbFailure pos 1
  else if ← orAt (avail < 3) str (pos + 2) utf8Lead then
    return mbFailure pos 2
  else
    return mbFailure pos 3

/-- The branch `c < 0xf0`. -/
def nextUtf8Three (str : List UInt8) (pos : Nat) (c : UInt8) : Option NextChar := do
  let avail := str.length - pos
  let bad ← orAt (avail < 3) str (pos + 1) fun byte => !utf8Trail byte
  let bad ← orAt bad str (pos + 2) fun byte => !utf8Trail byte
  if bad then
    skipThree str pos avail
  else
    let first ← str[pos + 1]?
    let second ← str[pos + 2]?
    let thisChar := spellThree c first second
    if thisChar < 0x800 then
      return mbFailure pos 3
    else if thisChar ≥ 0xd800 && thisChar ≤ 0xdfff then
      return mbFailure pos 3
    return mbSuccess thisChar (pos + 3)

/-- How far an ill-formed sequence of four bytes is skipped. -/
def skipFour (str : List UInt8) (pos avail : Nat) : Option NextChar := do
  if ← orAt (avail < 2) str (pos + 1) utf8Lead then
    return mbFailure pos 1
  else if ← orAt (avail < 3) str (pos + 2) utf8Lead then
    return mbFailure pos 2
  else if ← orAt (avail < 4) str (pos + 3) utf8Lead then
    return mbFailure pos 3
  else
    return mbFailure pos 4

/-- The branch `c < 0xf5`. -/
def nextUtf8Four (str : List UInt8) (pos : Nat) (c : UInt8) : Option NextChar := do
  let avail := str.length - pos
  let bad ← orAt (avail < 4) str (pos + 1) fun byte => !utf8Trail byte
  let bad ← orAt bad str (pos + 2) fun byte => !utf8Trail byte
  let bad ← orAt bad str (pos + 3) fun byte => !utf8Trail byte
  if bad then
    skipFour str pos avail
  else
    let first ← str[pos + 1]?
    let second ← str[pos + 2]?
    let third ← str[pos + 3]?
    let thisChar := spellFour c first second third
    if thisChar < 0x10000 || thisChar > 0x10FFFF then
      return mbFailure pos 4
    return mbSuccess thisChar (pos + 4)

def nextUtf8 (str : List UInt8) (pos : Nat) (c : UInt8) : Option NextChar :=
  if c < 0x80 then
    some (mbSuccess c.toNat (pos + 1))
  else if c < 0xc2 then
    some (mbFailure pos 1)
  else if c < 0xe0 then
    nextUtf8Two str pos c
  else if c < 0xf0 then
    nextUtf8Three str pos c
  else if c < 0xf5 then
    nextUtf8Four str pos c
  else
    some (mbFailure pos 1)

/-! ## The other multibyte charsets -/

def between (low high c : UInt8) : Bool := c ≥ low && c ≤ high

def gb2312Lead (c : UInt8) : Bool := c != 0x8E && c != 0x8F && c != 0xA0 && c != 0xFF

def gb2312Trail (c : UInt8) : Bool := between 0xA1 0xFE c

def sjisLead (c : UInt8) : Bool := c != 0x80 && c != 0xA0 && c < 0xFD

def sjisTrail (c : UInt8) : Bool := c ≥ 0x40 && c != 0x7F && c < 0xFD

/-- A character of two bytes; a byte `next` that is no `trail` stays unread when it may start a
character of its own. -/
def nextDouble (str : List UInt8) (pos : Nat) (c : UInt8) (trail starts : UInt8 → Bool) :
    Option NextChar := do
  if !checkLen str pos 2 then
    return mbFailure pos 1
  let next ← str[pos + 1]?
  if trail next then
    return mbSuccess ((c.toNat <<< 8) ||| next.toNat) (pos + 2)
  else if starts next then
    return mbFailure pos 1
  else
    return mbFailure pos 2

def nextBig5 (str : List UInt8) (pos : Nat) (c : UInt8) : Option NextChar :=
  if between 0x81 0xFE c then
    nextDouble str pos c (fun next => between 0x40 0x7E next || between 0xA1 0xFE next)
      fun _ => true
  else
    some (mbSuccess c.toNat (pos + 1))

def nextBig5hkscs (str : List UInt8) (pos : Nat) (c : UInt8) : Option NextChar :=
  if between 0x81 0xFE c then
    nextDouble str pos c (fun next => between 0x40 0x7E next || between 0xA1 0xFE next)
      fun next => next != 0x80 && next != 0xFF
  else
    some (mbSuccess c.toNat (pos + 1))

def nextGb2312 (str : List UInt8) (pos : Nat) (c : UInt8) : Option NextChar :=
  if between 0xA1 0xFE c then
    nextDouble str pos c gb2312Trail gb2312Lead
  else if gb2312Lead c then
    some (mbSuccess c.toNat (pos + 1))
  else
    some (mbFailure pos 1)

def nextSjis (str : List UInt8) (pos : Nat) (c : UInt8) : Option NextChar :=
  if between 0x81 0x9F c || between 0xE0 0xFC c then
    nextDouble str pos c sjisTrail sjisLead
  else if c < 0x80 || between 0xA1 0xDF c then
    some (mbSuccess c.toNat (pos + 1))
  else
    some (mbFailure pos 1)

/-- The test of EUC-JP for a byte that may start a character. -/
def eucjpStarts (c : UInt8) : Bool := c != 0xA0 && c != 0xFF

def skipHojoKanji (str : List UInt8) (pos avail : Nat) : Option NextChar := do
  if ← orAt (avail < 2) str (pos + 1) eucjpStarts then
    return mbFailure pos 1
  else if ← orAt (avail < 3) str (pos + 2) eucjpStarts then
    return mbFailure pos 2
  else
    return mbFailure pos 3

def nextHojoKanji (str : List UInt8) (pos : Nat) (c : UInt8) : Option NextChar := do
  let avail := str.length - pos
  let bad ← orAt (avail < 3) str (pos + 1) fun byte => !between 0xA1 0xFE byte
  let bad ← orAt bad str (pos + 2) fun byte => !between 0xA1 0xFE byte
  if bad then
    skipHojoKanji str pos avail
  else
    let first ← str[pos + 1]?
    let second ← str[pos + 2]?
    return mbSuccess ((c.toNat <<< 16) ||| (first.toNat <<< 8) ||| second.toNat) (pos + 3)

def nextEucjp (str : List UInt8) (pos : Nat) (c : UInt8) : Option NextChar :=
  if between 0xA1 0xFE c then
    nextDouble str pos c (between 0xA1 0xFE) eucjpStarts
  else if c = 0x8E then
    nextDouble str pos c (between 0xA1 0xDF) eucjpStarts
  else if c = 0x8F then
    nextHojoKanji str pos c
  else if eucjpStarts c then
    some (mbSuccess c.toNat (pos + 1))
  else
    some (mbFailure pos 1)

/-- The `switch` of `get_next_char`. -/
def nextInCharset (charset : EntityCharset) (str : List UInt8) (pos : Nat) (c : UInt8) :
    Option NextChar :=
  match charset with
  | .csUtf8 => nextUtf8 str pos c
  | .csBig5 => nextBig5 str pos c
  | .csBig5hkscs => nextBig5hkscs str pos c
  | .csGb2312 => nextGb2312 str pos c
  | .csSjis => nextSjis str pos c
  | .csEucjp => nextEucjp str pos c
  | _ => some (mbSuccess c.toNat (pos + 1))

/-- A cursor behind the end violates the assertion of the source. -/
def getNextChar (charset : EntityCharset) (str : List UInt8) (cursor : Nat) :
    Option NextChar :=
  let pos := cursor
  if pos > str.length then
    none
  else if !checkLen str pos 1 then
    some (mbFailure pos 1)
  else do
    let c ← str[pos]?
    nextInCharset charset str pos c

def phpNextUtf8Char (str : List UInt8) (cursor : Nat) : Option NextChar :=
  getNextChar .csUtf8 str cursor

end PhpRuntime.Html
