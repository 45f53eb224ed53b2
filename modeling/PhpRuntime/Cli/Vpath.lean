import PhpRuntime.Foundation.CString
import PhpRuntime.Foundation.Integers

/-! # Paths of the built-in web server

`php_raw_url_encode` and `php_raw_url_decode` of `ext/standard/url.c`, and `normalize_vpath` and
`php_cli_server_request_translate_vpath` of `sapi/cli/php_cli_server.c`. A buffer is its bytes
up to the end pointer, and a pointer into it an index; `memmove` over a gap drops the bytes
of the gap.
-/

namespace PhpRuntime.Cli

open Decimal CString

/-! ## Decoding -/

/-- One digit in `php_htoi`. -/
def htoiDigit (c : UInt8) : UInt8 :=
  let c := if byte 'A' ≤ c && c ≤ byte 'Z' then c + 32 else c
  if isDigit c then c - byte '0' else c - byte 'a' + 10

def phpRawUrlDecode : List UInt8 → List UInt8
  | [] => []
  | c :: first :: second :: rest =>
      if c = byte '%' ∧ isXdigit first = true ∧ isXdigit second = true then
        (htoiDigit first * 16 + htoiDigit second) :: phpRawUrlDecode rest
      else
        c :: phpRawUrlDecode (first :: second :: rest)
  | c :: rest => c :: phpRawUrlDecode rest

/-- The bytes that `php_raw_url_encode` escapes. -/
def escaped (c : UInt8) : Bool :=
  c < byte '0' && c != byte '-' && c != byte '.' || c < byte 'A' && byte '9' < c ||
    byte 'Z' < c && c < byte 'a' && c != byte '_' || byte 'z' < c && c != byte '~'

def hexchars (n : UInt8) : UInt8 := if n < 10 then byte '0' + n else byte 'A' + (n - 10)

/-- What `php_raw_url_encode` writes for a byte. -/
def urlEscape (c : UInt8) : List UInt8 :=
  if escaped c then [byte '%', hexchars (c >>> 4), hexchars (c &&& 15)] else [c]

/-- The string has no more bytes than its index `y` can count. -/
def phpRawUrlEncode (s : List UInt8) : Option (List UInt8) := do
  let str := s.flatMap urlEscape
  let _ ← Integers.counted str.length
  return str

theorem htoiDigit_hexchars (c : UInt8) :
    isXdigit (hexchars (c >>> 4)) = true ∧ isXdigit (hexchars (c &&& 15)) = true ∧
      htoiDigit (hexchars (c >>> 4)) * 16 + htoiDigit (hexchars (c &&& 15)) = c := by
  rw [← UInt8.ofNat_toNat (x := c)]
  have small := c.toNat_lt
  generalize c.toNat = n at small ⊢
  revert n
  decide +kernel

theorem phpRawUrlDecode_plain {c : UInt8} (plain : c ≠ byte '%') (rest : List UInt8) :
    phpRawUrlDecode (c :: rest) = c :: phpRawUrlDecode rest := by
  match rest with
  | [] | [_] => rfl
  | _ :: _ :: _ => rw [phpRawUrlDecode, if_neg fun escape => plain escape.1]

theorem phpRawUrlDecode_flatMap (s : List UInt8) : phpRawUrlDecode (s.flatMap urlEscape) = s := by
  induction s with
  | nil => rfl
  | cons c s induction =>
      rw [List.flatMap_cons, urlEscape]
      by_cases isEscaped : escaped c = true
      · have digits := htoiDigit_hexchars c
        rw [if_pos isEscaped]
        simp only [List.cons_append, List.nil_append]
        rw [phpRawUrlDecode, if_pos ⟨rfl, digits.1, digits.2.1⟩, digits.2.2, induction]
      · have plain : c ≠ byte '%' := by
          rintro rfl
          exact isEscaped rfl
        rw [if_neg isEscaped, List.singleton_append, phpRawUrlDecode_plain plain, induction]

/-- Decoding gives back every string that can be encoded. -/
theorem phpRawUrlDecode_encode_iff (s : List UInt8) :
    (∃ str, phpRawUrlEncode s = some str ∧ phpRawUrlDecode str = s)
      ↔ (s.flatMap urlEscape).length < 2 ^ 31 := by
  rw [phpRawUrlEncode, Integers.counted]
  split_ifs with fits
  · exact iff_of_true ⟨_, rfl, phpRawUrlDecode_flatMap s⟩ fits
  · exact iff_of_false (fun ⟨_, none_, _⟩ => nomatch none_) fits

/-! ## Normalizing -/

/-- The first index from `n` on that is the end or no slash. -/
def skipSlashes (buf : List UInt8) (n : Nat) : Nat :=
  n + ((buf.drop n).takeWhile (· == slash)).length

/-- The first index from `n` on that is the end or a slash. -/
def segmentEnd (buf : List UInt8) (n : Nat) : Nat :=
  n + ((buf.drop n).takeWhile (· != slash)).length

/-- The loop that moves `p` to the start of the segment before it. -/
def stepBack (buf : List UInt8) : Nat → Nat
  | 0 => if buf.head? = some slash then 1 else 0
  | p + 1 => if buf[p]? = some slash then p + 1 else stepBack buf p

/-- `memmove(p, n, end - n)` and the new end. -/
def closeGap (buf : List UInt8) (p n : Nat) : List UInt8 := buf.take p ++ buf.drop n

/-- One round of the loop over the segments. -/
def normalizeStep (buf : List UInt8) (p : Nat) : List UInt8 × Nat :=
  let n := segmentEnd buf p
  if (buf.take n).drop p = [dot, dot] then
    let back := if 0 < p then stepBack buf (p - 1) else p
    (closeGap buf back (skipSlashes buf n), back)
  else if (buf.take n).drop p = [dot] then
    (closeGap buf p (skipSlashes buf n), p)
  else if n < buf.length then
    (closeGap buf (n + 1) (skipSlashes buf n), n + 1)
  else
    (buf, n)

/-- The loop; each round takes a byte or more from what is behind `p`. -/
def normalizeLoop : Nat → List UInt8 → Nat → List UInt8
  | 0, buf, _ => buf
  | fuel + 1, buf, p =>
      if p < buf.length then
        let (buf, p) := normalizeStep buf p
        normalizeLoop fuel buf p
      else
        buf

/-- `normalize_vpath` -/
def normalizeVpath (vpath : List UInt8) : List UInt8 :=
  let buf := phpRawUrlDecode vpath
  if buf.head? = some slash then
    normalizeLoop buf.length (closeGap buf 1 (skipSlashes buf 0)) 1
  else
    normalizeLoop buf.length buf 0

/-! ## Translating -/

/-- What `stat` finds: `S_IFDIR`, `S_IFREG` or another mode. -/
inductive Mode
  | dir
  | reg
  | other
  deriving DecidableEq

/-- The result of a translation; `vpathLength` is negative when not even the document root
exists, and nothing is stored when there is no index file. -/
structure Translated where
  pathTranslated : List UInt8
  vpathLength : Int
  pathInfo : Option (List UInt8)

def indexFiles : List (List UInt8) :=
  ["index.php".toList.map byte, "index.html".toList.map byte]

section Translating

variable (stat : List UInt8 → Option Mode)

/-- The loop over the index files. The paths that `stat` is called with are collected. -/
def findIndex (dir : List UInt8) : List (List UInt8) → List (List UInt8) × Option (List UInt8)
  | [] => ([], none)
  | file :: files =>
      let path := cString (dir ++ file)
      if stat path = some .reg then
        ([path], some file)
      else
        let (calls, found) := findIndex dir files
        (path :: calls, found)

/-- The last slash in front of `q`, or the start of the buffer. -/
def slashBefore (buf : List UInt8) : Nat → Nat
  | 0 => 0
  | q + 1 => if q = 0 ∨ buf[q]? = some slash then q else slashBefore buf q

/-- The buffer up to `q` with a slash at its end. -/
def indexDir (buf : List UInt8) (q : Nat) : List UInt8 :=
  if buf[q - 1]? = some slash then buf.take q else buf.take q ++ [slash]

/-- The loop over the ends `q` of the path, with the path info behind `q`. -/
def translateLoop (buf : List UInt8) (rootLength : Nat) (isStaticFile : Bool) :
    Nat → Nat → Option (List UInt8) → List (List UInt8) × Option Translated
  | 0, _, _ => ([], none)
  | fuel + 1, q, prevPath =>
      if q = 0 then
        ([], some ⟨[], -rootLength, prevPath⟩)
      else
        let path := cString (buf.take q)
        match stat path with
        | some .dir =>
            let dir := indexDir buf q
            let (calls, found) := findIndex stat dir indexFiles
            match found, isStaticFile with
            | some file, false =>
                (path :: calls,
                  some ⟨dir ++ file, (dir.length + file.length : Nat) - rootLength, prevPath⟩)
            | _, _ => (path :: calls, none)
        | some _ => ([path], some ⟨buf.take q, (q : Int) - rootLength, prevPath⟩)
        | none =>
            let before := slashBefore buf q
            let (calls, translated) := translateLoop buf rootLength isStaticFile fuel before
              (some (buf.drop before))
            (path :: calls, translated)

/-- The buffer of `php_cli_server_request_translate_vpath` -/
def translateBuffer (documentRoot vpath : List UInt8) : List UInt8 :=
  documentRoot ++ (if vpath ≠ [] ∧ vpath.head? ≠ some slash then [slash] else []) ++ vpath

/-- `php_cli_server_request_translate_vpath`: the paths given to `stat`, and the result. -/
def translateVpath (documentRoot vpath : List UInt8) :
    List (List UInt8) × Option Translated :=
  let buf := translateBuffer documentRoot vpath
  translateLoop stat buf documentRoot.length ((vpath.drop 1).contains dot) (buf.length + 1)
    buf.length none

end Translating

end PhpRuntime.Cli
