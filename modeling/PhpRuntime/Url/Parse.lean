import PhpRuntime.Foundation.CString

/-! # Parsing URLs

`php_url_parse_ex` of `ext/standard/url.c`. A pointer into the string is the part of the
string behind it, and a byte behind the end reads as NUL. The first stage finds where the
authority or the path starts, with the jumps to `parse_port` and `just_path`; the second cuts
the authority, the third the path. Character classes are those of the C locale.
-/

namespace PhpRuntime.Url

open Decimal CString

/-- `zend_memrchr`, as an index -/
def memrchr (c : UInt8) (text : List UInt8) : Option Nat :=
  (text.reverse.idxOf? c).map fun behind => text.length - 1 - behind

def isAlpha (c : UInt8) : Bool :=
  (byte 'a' ≤ c && c ≤ byte 'z') || (byte 'A' ≤ c && c ≤ byte 'Z')

/-- `php_replace_controlchars_ex` -/
def replaceControlchars (text : List UInt8) : List UInt8 :=
  text.map fun c => if isCntrl c then byte '_' else c

/-- `strtol` in base 10, for texts too short for an overflow -/
def strtol (text : List UInt8) : Int :=
  let text := (text.dropWhile isSpace)
  match text with
  | [] => 0
  | c :: rest =>
      if c = byte '-' then -(value (rest.takeWhile isDigit) : Int)
      else if c = byte '+' then value (rest.takeWhile isDigit)
      else value (text.takeWhile isDigit)

structure PhpUrl where
  scheme : Option (List UInt8)
  user : Option (List UInt8)
  pass : Option (List UInt8)
  host : Option (List UInt8)
  port : Nat
  path : Option (List UInt8)
  query : Option (List UInt8)
  fragment : Option (List UInt8)
  deriving DecidableEq

def emptyUrl : PhpUrl := ⟨none, none, none, none, 0, none, none, none⟩

/-! ## Scheme and port -/

/-- Where the first stage leads: a result, the start `s` of an authority, or the label
`nohost` with the start of a path. -/
inductive Start
  | null
  | done (url : PhpUrl)
  | authority (url : PhpUrl) (s : List UInt8)
  | nohost (url : PhpUrl) (s : List UInt8)

def isSchemeChar (c : UInt8) : Bool :=
  isAlpha c || isDigit c || c == byte '+' || c == byte '.' || c == byte '-'

/-- `!strncasecmp("file", scheme, sizeof("file"))` -/
def isFile (scheme : List UInt8) : Bool :=
  scheme.map (fun c => if byte 'A' ≤ c && c ≤ byte 'Z' then c + 32 else c) ==
    [byte 'f', byte 'i', byte 'l', byte 'e']

def startsWithSlashes (s : List UInt8) : Bool := read s 0 == byte '/' && read s 1 == byte '/'

def validPort (port : Int) : Bool := 0 < port && port ≤ 65535

/-- The label `parse_port`; `p` is behind the first colon of the string `s`. -/
def parsePort (s p : List UInt8) : Start :=
  let digits := (p.take 6).takeWhile isDigit
  let next := read p digits.length
  if 0 < digits.length && digits.length < 6 && (next == byte '/' || next == 0) then
    if validPort (strtol digits) then
      .authority { emptyUrl with port := (strtol digits).toNat }
        (if startsWithSlashes s then s.drop 2 else s)
    else
      .null
  else if digits.length == 0 && next == 0 then
    .null
  else if startsWithSlashes s then
    .authority emptyUrl (s.drop 2)
  else
    .nohost emptyUrl s

/-- Whether the part behind the first colon looks like a port. -/
def looksLikePort (p : List UInt8) : Bool :=
  let digits := p.takeWhile isDigit
  let next := read p digits.length
  (next == 0 || next == byte '/') && digits.length + 1 < 7

/-- The string behind a scheme `scheme` and its colon. -/
def parseBehindScheme (scheme rest : List UInt8) : Start :=
  let url := { emptyUrl with scheme := some (replaceControlchars scheme) }
  if read rest 1 == byte '/' then
    if isFile scheme && read rest 2 == byte '/' then
      -- a drive letter keeps no slash in front
      .nohost url (if read rest 4 == byte ':' then rest.drop 3 else rest.drop 2)
    else
      .authority url (rest.drop 2)
  else
    .nohost url rest

def parseStart (str : List UInt8) : Start :=
  match str.idxOf? (byte ':') with
  | some e =>
      let scheme := str.take e
      let rest := str.drop (e + 1)
      if e = 0 then
        parsePort str rest
      else if !scheme.all isSchemeChar then
        if e + 1 < str.length then parsePort str rest else .nohost emptyUrl str
      else if read rest 0 == 0 then
        .done { emptyUrl with scheme := some (replaceControlchars scheme) }
      else if read rest 0 == byte '/' then
        parseBehindScheme scheme rest
      else if looksLikePort rest then
        parsePort str rest
      else
        .nohost { emptyUrl with scheme := some (replaceControlchars scheme) } rest
  | none =>
      if startsWithSlashes str then .authority emptyUrl (str.drop 2) else .nohost emptyUrl str

/-! ## Authority -/

/-- How far `e` is behind `s`. -/
def authorityLength (s : List UInt8) : Nat :=
  match s.idxOf? (byte '/') with
  | some p => p
  | none =>
      match s.idxOf? (byte '?'), s.idxOf? (byte '#') with
      | some query, some fragment => if fragment < query then fragment else query
      | some query, none => query
      | none, some fragment => fragment
      | none, none => s.length

/-- Login and password, and what is behind them. -/
def cutLogin (url : PhpUrl) (authority : List UInt8) : PhpUrl × List UInt8 :=
  match memrchr (byte '@') authority with
  | some p =>
      let login := authority.take p
      let url :=
        match login.idxOf? (byte ':') with
        | some pp =>
            { url with
              user := some (replaceControlchars (login.take pp))
              pass := some (replaceControlchars (login.drop (pp + 1))) }
        | none => { url with user := some (replaceControlchars login) }
      (url, authority.drop (p + 1))
  | none => (url, authority)

/-- Host and port. `e` itself never points to a colon. -/
def cutPort (url : PhpUrl) (s : List UInt8) : Option (PhpUrl × List UInt8) :=
  if s.head? = some (byte '[') ∧ s.getLast? = some (byte ']') then
    some (url, s)
  else
    match memrchr (byte ':') s with
    | some p =>
        if url.port = 0 then
          let portBuf := s.drop (p + 1)
          if 5 < portBuf.length then
            none
          else if 0 < portBuf.length then
            -- a NUL in the buffer ends the number, as any other character does
            if validPort (strtol portBuf) then
              some ({ url with port := (strtol portBuf).toNat }, s.take p)
            else
              none
          else
            some (url, s.take p)
        else
          some (url, s.take p)
    | none => some (url, s)

/-- The authority of length `e` in front of `s`. -/
def cutHost (url : PhpUrl) (authority : List UInt8) : Option PhpUrl :=
  let (url, s) := cutLogin url authority
  match cutPort url s with
  | some (url, host) =>
      if host.length < 1 then none else some { url with host := some (replaceControlchars host) }
  | none => none

/-! ## Path, query and fragment -/

/-- A component that is left out when it is empty. -/
def component (text : List UInt8) : Option (List UInt8) :=
  if text.isEmpty then none else some (replaceControlchars text)

/-- The label `nohost` -/
def parsePath (url : PhpUrl) (s : List UInt8) : PhpUrl :=
  match s.idxOf? (byte '?'), s.idxOf? (byte '#') with
  | some p, some pp =>
      if pp < p then
        { url with path := component (s.take pp), fragment := component (s.drop (pp + 1)) }
      else
        { url with
          path := component (s.take p)
          query := component ((s.take pp).drop (p + 1))
          fragment := component (s.drop (pp + 1)) }
  | some p, none =>
      { url with path := component (s.take p), query := component (s.drop (p + 1)) }
  | none, some p =>
      { url with path := component (s.take p), fragment := component (s.drop (p + 1)) }
  | none, none => { url with path := some (replaceControlchars s) }

/-- `php_url_parse_ex` -/
def phpUrlParseEx (str : List UInt8) : Option PhpUrl :=
  match parseStart str with
  | .null => none
  | .done url => some url
  | .nohost url s => some (parsePath url s)
  | .authority url s => do
      let e := authorityLength s
      let url ← cutHost url (s.take e)
      return if e = s.length then url else parsePath url (s.drop e)

end PhpRuntime.Url
