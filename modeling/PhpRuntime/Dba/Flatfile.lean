import PhpRuntime.Foundation.CString
import PhpRuntime.Foundation.Integers
import Mathlib.Data.List.Nodup

/-! # Flat files

`ext/dba/libflatfile/flatfile.c`. A record has the length of the key in decimal digits, the key, the
length of the value and the value; a deleted key has a null byte in place of its first byte.
-/

namespace PhpRuntime.Dba

open CString Decimal Integers

/-! ## Streams -/

/-- A file, and the position between the bytes before it and those after it. -/
structure Stream where
  before : List UInt8 := []
  after : List UInt8 := []

namespace Stream

def tell (fp : Stream) : Nat := fp.before.length

def eof (fp : Stream) : Bool := fp.after.isEmpty

def bytes (fp : Stream) : List UInt8 := fp.before ++ fp.after

def seek (fp : Stream) (pos : Nat) : Stream := ⟨fp.bytes.take pos, fp.bytes.drop pos⟩

/-- `php_stream_seek(fp, 0L, SEEK_END)` -/
def seekEnd (fp : Stream) : Stream := ⟨fp.bytes, []⟩

def write (fp : Stream) (text : List UInt8) : Stream :=
  ⟨fp.before ++ text, fp.after.drop text.length⟩

def read (fp : Stream) (count : Nat) : List UInt8 × Stream :=
  (fp.after.take count, ⟨fp.before ++ fp.after.take count, fp.after.drop count⟩)

/-- The bytes up to the end of a line, but not more than `room`. -/
def line : Nat → List UInt8 → List UInt8
  | 0, _ => []
  | _, [] => []
  | room + 1, c :: rest => if c = byte '\n' then [c] else c :: line room rest

def gets (fp : Stream) (maxlen : Nat) : Option (List UInt8 × Stream) :=
  let text := line (maxlen - 1) fp.after
  if text = [] then none
  else some (text, ⟨fp.before ++ text, fp.after.drop text.length⟩)

end Stream

/-! ## Records -/

def atoi (text : List UInt8) : Int :=
  let text := text.dropWhile isSpace
  let negative := text.head? = some (byte '-')
  let digits := if negative ∨ text.head? = some (byte '+') then text.tail else text
  let number : Int := value (digits.takeWhile isDigit)
  int (max (-2 ^ 63) (min (if negative then -number else number) (2 ^ 63 - 1)))

/-- `"%zu\n"` -/
def sizeLine (n : Nat) : List UInt8 := print 20 n [] ++ [byte '\n']

/-- A length and as many bytes, as they are read into a buffer; `pos` is where the bytes are. -/
structure Block where
  text : List UInt8
  pos : Nat
  data : List UInt8
  fp : Stream

/-- The bytes overwrite the line in the buffer. -/
def Block.buf (block : Block) : List UInt8 :=
  block.data ++ (block.text ++ [0]).drop block.data.length

/-- `*(buf) != 0` -/
def Block.isLive (block : Block) : Bool := block.buf.head? ≠ some 0

def readBlock (fp : Stream) (maxlen : Nat) : Option Block := do
  let (text, fp) ← fp.gets maxlen
  let (data, next) := fp.read (sizeT (atoi text))
  some { text, pos := fp.tell, data, fp := next }

def writeBlock (fp : Stream) (data : List UInt8) : Stream :=
  (fp.write (sizeLine data.length)).write data

structure Flatfile where
  fp : Stream := {}
  currentFlatFilePos : Nat := 0

/-- The loop of `flatfile_findkey`, `flatfile_delete` and `flatfile_firstkey`, up to a key for which
the function returns. -/
def scanLoop (accept : Block → Bool) : Nat → Stream → Option (Option Block × Stream)
  | 0, _ => none
  | fuel + 1, fp =>
      if fp.eof then
        some (none, fp)
      else
        match readBlock fp 15 with
        | none => some (none, fp)
        | some name =>
            if accept name then
              some (some name, name.fp)
            else
              match readBlock name.fp 15 with
              | none => some (none, name.fp)
              | some value => scanLoop accept fuel value.fp

def scan (accept : Block → Bool) (fp : Stream) : Option (Option Block × Stream) :=
  scanLoop accept (fp.bytes.length + 1) (fp.seek 0)

def flatfileFindkey (fp : Stream) (key : List UInt8) : Option (Bool × Stream) :=
  (scan (fun name => name.data = key) fp).map fun (name, fp) => (name.isSome, fp)

/-- `SUCCESS` or `FAILURE`. -/
def flatfileDelete (fp : Stream) (key : List UInt8) : Option (Bool × Stream) :=
  (scan (fun name => name.data = key) fp).map fun
    | (none, fp) => (false, fp)
    | (some name, fp) => (true, ((fp.seek name.pos).write [0]).seekEnd)

/-- `FLATFILE_INSERT` and `FLATFILE_REPLACE` -/
inductive Mode where
  | insert
  | replace

def flatfileStore (fp : Stream) (key value : List UInt8) : Mode → Option (Int × Stream)
  | .insert => do
      let (found, fp) ← flatfileFindkey fp key
      if found then some (1, fp) else some (0, writeBlock (writeBlock fp.seekEnd key) value)
  | .replace => do
      let (_, fp) ← flatfileDelete fp key
      some (0, writeBlock (writeBlock fp key) value)

def flatfileFetch (fp : Stream) (key : List UInt8) : Option (Option (List UInt8) × Stream) := do
  let (found, fp) ← flatfileFindkey fp key
  if found then
    match readBlock fp 16 with
    | none => some (none, fp)
    | some value => some (some value.data, value.fp)
  else
    some (none, fp)

def nextLoop : Nat → Stream → Option (Option Block × Stream)
  | 0, _ => none
  | fuel + 1, fp =>
      if fp.eof then
        some (none, fp)
      else
        match readBlock fp 15 with
        | none => some (none, fp)
        | some value =>
            match readBlock value.fp 15 with
            | none => some (none, value.fp)
            | some name =>
                if name.isLive then some (some name, name.fp) else nextLoop fuel name.fp

/-- Where the search has found a key, the next one goes on. -/
def Flatfile.found (dba : Flatfile) (result : Option Block × Stream) :
    Option (List UInt8) × Flatfile :=
  match result with
  | (none, fp) => (none, { dba with fp })
  | (some name, fp) => (some name.data, { fp, currentFlatFilePos := fp.tell })

def flatfileFirstkey (dba : Flatfile) : Option (Option (List UInt8) × Flatfile) :=
  (scan Block.isLive dba.fp).map dba.found

def flatfileNextkey (dba : Flatfile) : Option (Option (List UInt8) × Flatfile) :=
  (nextLoop (dba.fp.bytes.length + 1) (dba.fp.seek dba.currentFlatFilePos)).map dba.found

/-! ## Calls -/

inductive Op where
  | store (mode : Mode) (key value : List UInt8)
  | fetch (key : List UInt8)
  | delete (key : List UInt8)

inductive Answer where
  | code (code : Int)
  | value (value : Option (List UInt8))
  | success (success : Bool)
deriving DecidableEq

def call (fp : Stream) : Op → Option (Answer × Stream)
  | .store mode key value =>
      (flatfileStore fp key value mode).map fun (code, fp) => (.code code, fp)
  | .fetch key => (flatfileFetch fp key).map fun (value, fp) => (.value value, fp)
  | .delete key => (flatfileDelete fp key).map fun (success, fp) => (.success success, fp)

def run (fp : Stream) : List Op → Option (List Answer × Stream)
  | [] => some ([], fp)
  | op :: ops => do
      let (answer, fp) ← call fp op
      let (answers, fp) ← run fp ops
      some (answer :: answers, fp)

/-- The keys that `flatfile_nextkey` finds until there is none. -/
def nextKeys : Nat → Flatfile → Option (List (List UInt8))
  | 0, _ => none
  | fuel + 1, dba =>
      match flatfileNextkey dba with
      | none => none
      | some (none, _) => some []
      | some (some key, dba) => (nextKeys fuel dba).map (key :: ·)

def allKeys (fuel : Nat) (dba : Flatfile) : Option (List (List UInt8)) :=
  match flatfileFirstkey dba with
  | none => none
  | some (none, _) => some []
  | some (some key, dba) => (nextKeys fuel dba).map (key :: ·)

/-! ## Blocks -/

/-- The bytes of a length and what has this length. -/
def blockBytes (data : List UInt8) : List UInt8 := sizeLine data.length ++ data

theorem line_eq {text rest : List UInt8} {room : Nat} (plain : byte '\n' ∉ text)
    (short : text.length < room) :
    Stream.line room (text ++ byte '\n' :: rest) = text ++ [byte '\n'] := by
  induction text generalizing room with
  | nil =>
      obtain ⟨room, rfl⟩ : ∃ less, room = less + 1 := ⟨room - 1, by simp at short; omega⟩
      exact if_pos rfl
  | cons c text induction =>
      obtain ⟨room, rfl⟩ : ∃ less, room = less + 1 := ⟨room - 1, by simp at short; omega⟩
      rw [List.mem_cons, not_or] at plain
      rw [List.cons_append, Stream.line, if_neg (Ne.symm plain.1),
        induction plain.2 (by simpa using short), List.cons_append]

theorem takeWhile_digits {digits : List UInt8} (all : ∀ c ∈ digits, isDigit c = true) :
    (digits ++ [byte '\n']).takeWhile isDigit = digits := by
  rw [List.takeWhile_append_of_pos all, List.takeWhile_cons_of_neg (by decide), List.append_nil]

theorem atoi_sizeLine {n : Nat} (small : n < 2 ^ 31) : atoi (sizeLine n) = n := by
  have digits := print_digits 20 n
  have number := value_print (show n < 10 ^ 20 by omega) (by decide)
  have nonempty := print_ne_nil 19 n
  rw [sizeLine]
  generalize print 20 n [] = text at digits number nonempty
  cases text with
  | nil => exact absurd rfl nonempty
  | cons c rest =>
      have bounds := isDigit_iff.mp (digits c List.mem_cons_self)
      have notSpace : ¬isSpace c = true := by
        simp only [isSpace, Bool.or_eq_true, Bool.and_eq_true, beq_iff_eq, decide_eq_true_eq,
          UInt8.le_iff_toNat_le, ← UInt8.toNat_inj]
        change ¬(c.toNat = 32 ∨ 9 ≤ c.toNat ∧ c.toNat ≤ 13)
        omega
      have notSign {d : UInt8} (sign : isDigit d = false) :
          ¬(c :: rest ++ [byte '\n']).head? = some d := by
        rintro ⟨⟩
        exact absurd (digits c List.mem_cons_self) (Bool.eq_false_iff.mp sign)
      have unsigned := @notSign (byte '-') rfl
      have plain := not_or.mpr ⟨unsigned, @notSign (byte '+') rfl⟩
      rw [atoi, List.cons_append, List.dropWhile_cons_of_neg notSpace, ← List.cons_append]
      rw [if_neg plain, if_neg unsigned, takeWhile_digits digits, number, int_eq]
      · omega
      · omega
      · omega

theorem newline_notMem (n : Nat) : byte '\n' ∉ print 20 n [] := fun member =>
  absurd (print_digits 20 n _ member) (by decide)

/-- What has been written is read back. -/
theorem readBlock_eq {data rest before : List UInt8} {maxlen : Nat} (small : data.length < 2 ^ 31)
    (room : 12 ≤ maxlen) :
    readBlock ⟨before, blockBytes data ++ rest⟩ maxlen =
      some
        { text := sizeLine data.length
          pos := (before ++ sizeLine data.length).length
          data
          fp := ⟨before ++ blockBytes data, rest⟩ } := by
  have short : (print 20 data.length []).length ≤ 10 :=
    @length_print 20 _ 9 (show data.length < 10 ^ 10 by omega)
  have isLine : Stream.line (maxlen - 1) (blockBytes data ++ rest) = sizeLine data.length := by
    rw [blockBytes, sizeLine, List.append_assoc, List.append_assoc, List.singleton_append]
    exact line_eq (newline_notMem _) (by omega)
  have nonempty : sizeLine data.length ≠ [] := List.append_ne_nil_of_right_ne_nil _ (by decide)
  have count : sizeT data.length = data.length := sizeT_eq rfl (by omega)
  rw [readBlock, Stream.gets]
  dsimp only
  rw [isLine, if_neg nonempty, Option.bind_eq_bind, Option.bind_some]
  simp [Stream.read, Stream.tell, atoi_sizeLine small, count, blockBytes]

/-! ## Entries -/

/-- A key as it is in the file, and its value. -/
abbrev Entry := List UInt8 × List UInt8

def entryBytes (entry : Entry) : List UInt8 := blockBytes entry.1 ++ blockBytes entry.2

def fileBytes (entries : List Entry) : List UInt8 := entries.flatMap entryBytes

/-- The entries that have not been deleted. -/
def isLive (entry : Entry) : Bool := entry.1.head? ≠ some 0

/-- What a key has to be, and what holds of the keys in a file. -/
structure Fits (entry : Entry) : Prop where
  nonempty : entry.1 ≠ []
  key : entry.1.length < 2 ^ 31
  value : entry.2.length < 2 ^ 31

variable {entries front back : List Entry} {key value before rest : List UInt8} {fuel : Nat}

theorem fileBytes_cons (entry : Entry) (entries : List Entry) :
    fileBytes (entry :: entries)
      = blockBytes entry.1 ++ (blockBytes entry.2 ++ fileBytes entries) := by
  rw [fileBytes, List.flatMap_cons, entryBytes, List.append_assoc, fileBytes]

theorem fileBytes_append (front back : List Entry) :
    fileBytes (front ++ back) = fileBytes front ++ fileBytes back := List.flatMap_append

theorem blockBytes_ne_nil (data : List UInt8) : blockBytes data ≠ [] := by
  simp [blockBytes, sizeLine]

theorem length_le_fileBytes (entries : List Entry) :
    entries.length ≤ (fileBytes entries).length := by
  induction entries with
  | nil => exact le_rfl
  | cons entry entries induction =>
      have block := List.length_pos_of_ne_nil (blockBytes_ne_nil entry.1)
      rw [fileBytes_cons, List.length_cons, List.length_append, List.length_append]
      omega

theorem not_eof (data : List UInt8) : ¬(Stream.mk before (blockBytes data ++ rest)).eof = true := by
  simp [Stream.eof, blockBytes_ne_nil]

section Scan

variable {accept : Block → Bool}

theorem scanLoop_skips (fits : ∀ entry ∈ front, Fits entry)
    (rejected : ∀ entry ∈ front, ∀ block : Block, block.data = entry.1 → accept block = false) :
    scanLoop accept (front.length + fuel) ⟨before, fileBytes front ++ rest⟩
      = scanLoop accept fuel ⟨before ++ fileBytes front, rest⟩ := by
  induction front generalizing before with
  | nil =>
      rw [List.length_nil, Nat.zero_add, fileBytes, List.flatMap_nil, List.nil_append,
        List.append_nil]
  | cons entry front induction =>
      have first := fits entry List.mem_cons_self
      rw [List.length_cons, Nat.add_right_comm, scanLoop, fileBytes_cons, List.append_assoc,
        List.append_assoc, if_neg (not_eof _), readBlock_eq first.key (by omega)]
      dsimp only
      rw [rejected entry List.mem_cons_self _ rfl, if_neg Bool.false_ne_true,
        readBlock_eq first.value (by omega)]
      dsimp only
      rw [induction (fun other member => fits other (.tail _ member))
        fun other member => rejected other (.tail _ member)]
      simp only [List.append_assoc]

theorem scan_eq {fp : Stream} (isFile : fp.bytes = fileBytes (front ++ back))
    (fits : ∀ entry ∈ front, Fits entry)
    (rejected : ∀ entry ∈ front, ∀ block : Block, block.data = entry.1 → accept block = false) :
    ∃ fuel, back.length ≤ fuel
      ∧ scan accept fp = scanLoop accept (fuel + 1) ⟨fileBytes front, fileBytes back⟩ := by
  have enough := length_le_fileBytes (front ++ back)
  rw [List.length_append] at enough
  refine ⟨fp.bytes.length - front.length, by rw [isFile]; omega, ?_⟩
  have isFuel : fp.bytes.length + 1 = front.length + (fp.bytes.length - front.length + 1) := by
    rw [isFile]
    omega
  rw [scan, isFuel, Stream.seek, List.take_zero, List.drop_zero, isFile, fileBytes_append]
  exact scanLoop_skips fits rejected

theorem scan_absent {fp : Stream} (isFile : fp.bytes = fileBytes entries)
    (fits : ∀ entry ∈ entries, Fits entry)
    (rejected : ∀ entry ∈ entries, ∀ block : Block, block.data = entry.1 → accept block = false) :
    scan accept fp = some (none, ⟨fileBytes entries, []⟩) := by
  rw [← List.append_nil entries] at isFile
  obtain ⟨fuel, -, scanned⟩ := scan_eq isFile fits rejected
  rw [scanned]
  rfl

theorem scan_found {fp : Stream} {entry : Entry}
    (isFile : fp.bytes = fileBytes (front ++ entry :: back))
    (fits : ∀ other ∈ front ++ entry :: back, Fits other)
    (rejected : ∀ other ∈ front, ∀ block : Block, block.data = other.1 → accept block = false)
    (accepted : ∀ block : Block, block.data = entry.1 → accept block = true) :
    ∃ name, scan accept fp = some (some name, name.fp) ∧ name.data = entry.1
      ∧ name.pos = (fileBytes front ++ sizeLine entry.1.length).length
      ∧ name.fp = ⟨fileBytes front ++ blockBytes entry.1,
        blockBytes entry.2 ++ fileBytes back⟩ := by
  have first := fits entry (by simp)
  obtain ⟨fuel, -, scanned⟩ := scan_eq isFile
    (fun other member => fits other (List.mem_append_left _ member)) rejected
  rw [scanLoop, fileBytes_cons, if_neg (not_eof _), readBlock_eq first.key (by omega)] at scanned
  dsimp only at scanned
  rw [if_pos (accepted _ rfl)] at scanned
  exact ⟨_, scanned, rfl, rfl, rfl⟩

end Scan

/-- The first byte of the key is overwritten. -/
theorem tombstone_eq (nonempty : key ≠ []) :
    (((Stream.mk (fileBytes front ++ blockBytes key) (blockBytes value ++ fileBytes back)).seek
        (fileBytes front ++ sizeLine key.length).length).write [0]).seekEnd
      = ⟨fileBytes (front ++ (0 :: key.tail, value) :: back), []⟩ := by
  cases key with
  | nil => exact absurd rfl nonempty
  | cons c key =>
      have isFile : fileBytes front ++ blockBytes (c :: key) ++ (blockBytes value ++ fileBytes back)
          = (fileBytes front ++ sizeLine (c :: key).length)
            ++ (c :: key ++ (blockBytes value ++ fileBytes back)) := by
        simp only [blockBytes, List.append_assoc]
      rw [Stream.seek, Stream.bytes, isFile, List.take_left, List.drop_left, fileBytes_append,
        fileBytes_cons]
      simp [Stream.write, Stream.seekEnd, Stream.bytes, blockBytes]

theorem writeBlock_eq (data : List UInt8) :
    writeBlock ⟨before, []⟩ data = ⟨before ++ blockBytes data, []⟩ := by
  simp [writeBlock, Stream.write, blockBytes]

theorem append_eq (key value : List UInt8) :
    writeBlock (writeBlock ⟨fileBytes entries, []⟩ key) value
      = ⟨fileBytes (entries ++ [(key, value)]), []⟩ := by
  rw [writeBlock_eq, writeBlock_eq, fileBytes_append, fileBytes_cons, fileBytes, fileBytes,
    List.flatMap_nil, List.append_nil, List.append_assoc]

/-! ## The map -/

/-- What a call does to the bindings, which are in the order in which they have been stored. -/
def Op.act (bindings : List Entry) : Op → Answer × List Entry
  | .store .insert key value =>
      if key ∈ bindings.map Prod.fst then (.code 1, bindings)
      else (.code 0, bindings ++ [(key, value)])
  | .store .replace key value =>
      (.code 0, bindings.filter (fun entry => entry.1 ≠ key) ++ [(key, value)])
  | .fetch key => (.value ((bindings.find? fun entry => entry.1 = key).map Prod.snd), bindings)
  | .delete key =>
      (.success (decide (key ∈ bindings.map Prod.fst)),
        bindings.filter fun entry => entry.1 ≠ key)

def actAll (bindings : List Entry) : List Op → List Answer × List Entry
  | [] => ([], bindings)
  | op :: ops =>
      let (answer, bindings) := op.act bindings
      let (answers, bindings) := actAll bindings ops
      (answer :: answers, bindings)

/-- A key that is not taken for a deleted one, and lengths that fit into an `int`. -/
def Op.Plain : Op → Prop
  | .store _ key value => Fits (key, value) ∧ key.head? ≠ some 0
  | .fetch key => key.head? ≠ some 0
  | .delete key => key.head? ≠ some 0

/-- The entries of a file that are live are the bindings. -/
structure Represents (fp : Stream) (bindings : List Entry) (entries : List Entry) : Prop where
  file : fp.bytes = fileBytes entries
  fits : ∀ entry ∈ entries, Fits entry
  live : entries.filter isLive = bindings
  nodup : (bindings.map Prod.fst).Nodup

variable {fp : Stream} {bindings : List Entry}

theorem isLive_iff : isLive (key, value) = true ↔ key.head? ≠ some 0 := by simp [isLive]

/-- A key is in no entry, or in one that is live. -/
theorem Represents.cases (represents : Represents fp bindings entries)
    (plain : key.head? ≠ some 0) :
    (∀ entry ∈ entries, entry.1 ≠ key)
    ∨ ∃ front value back, entries = front ++ (key, value) :: back
      ∧ ∀ entry ∈ front ++ back, entry.1 ≠ key := by
  by_cases bound : ∃ entry ∈ entries, entry.1 = key
  · obtain ⟨⟨key', value⟩, member, rfl⟩ := bound
    obtain ⟨front, back, rfl⟩ := List.append_of_mem member
    refine .inr ⟨front, value, back, rfl, fun entry other same => ?_⟩
    have nodup := represents.nodup
    rw [← represents.live, List.filter_append, List.filter_cons_of_pos (isLive_iff.mpr plain),
      List.map_append, List.map_cons, List.nodup_middle, List.nodup_cons, ← List.map_append,
      ← List.filter_append] at nodup
    have live : isLive entry = true := by
      obtain ⟨key'', value'⟩ := entry
      cases same
      exact isLive_iff.mpr plain
    exact nodup.1 (same ▸ List.mem_map_of_mem (List.mem_filter.mpr ⟨other, live⟩))
  · exact .inl fun entry member same => bound ⟨entry, member, same⟩

theorem Represents.notMem (represents : Represents fp bindings entries)
    (absent : ∀ entry ∈ entries, entry.1 ≠ key) : ∀ entry ∈ bindings, entry.1 ≠ key := by
  intro entry member
  rw [← represents.live] at member
  exact absent entry (List.mem_filter.mp member).1

theorem Represents.unbound (represents : Represents fp bindings entries)
    (absent : ∀ entry ∈ entries, entry.1 ≠ key) : key ∉ bindings.map Prod.fst := by
  intro member
  obtain ⟨entry, inside, same⟩ := List.mem_map.mp member
  exact represents.notMem absent entry inside same

/-- The stream may be anywhere, as at the end. -/
theorem Represents.moved (represents : Represents fp bindings entries) {fp' : Stream}
    (same : fp'.bytes = fp.bytes) : Represents fp' bindings entries :=
  ⟨same.trans represents.file, represents.fits, represents.live, represents.nodup⟩

theorem Represents.atEnd (represents : Represents fp bindings entries) :
    Represents ⟨fileBytes entries, []⟩ bindings entries :=
  represents.moved ((List.append_nil _).trans represents.file.symm)

theorem Represents.append (represents : Represents fp bindings entries) (fits : Fits (key, value))
    (plain : key.head? ≠ some 0) (absent : ∀ entry ∈ bindings, entry.1 ≠ key) :
    Represents (writeBlock (writeBlock ⟨fileBytes entries, []⟩ key) value)
      (bindings ++ [(key, value)]) (entries ++ [(key, value)]) := by
  rw [append_eq]
  refine ⟨List.append_nil _, fun entry member => ?_, ?_, ?_⟩
  · rcases List.mem_append.mp member with old | new
    · exact represents.fits entry old
    · rw [List.mem_singleton.mp new]
      exact fits
  · rw [List.filter_append, represents.live, List.filter_cons_of_pos (isLive_iff.mpr plain),
      List.filter_nil]
  · rw [List.map_append, List.map_singleton, ← List.concat_eq_append]
    refine represents.nodup.concat fun member => ?_
    obtain ⟨entry, inside, same⟩ := List.mem_map.mp member
    exact absent entry inside same

/-- The search for a key that the file does not have ends at its end. -/
theorem scan_key_absent (represents : Represents fp bindings entries)
    (absent : ∀ entry ∈ entries, entry.1 ≠ key) :
    scan (fun name => name.data = key) fp = some (none, ⟨fileBytes entries, []⟩) := by
  refine scan_absent represents.file represents.fits fun entry member block isData => ?_
  simpa [isData] using absent entry member

theorem scan_key_found (represents : Represents fp bindings (front ++ (key, value) :: back))
    (others : ∀ entry ∈ front ++ back, entry.1 ≠ key) :
    ∃ name, scan (fun name => name.data = key) fp = some (some name, name.fp)
      ∧ name.pos = (fileBytes front ++ sizeLine key.length).length
      ∧ name.fp = ⟨fileBytes front ++ blockBytes key, blockBytes value ++ fileBytes back⟩ := by
  obtain ⟨name, scanned, -, isPos, isFp⟩ := @scan_found front back (fun name => name.data = key) fp
    (key, value) represents.file represents.fits
    (fun entry member block isData => by
      simpa [isData] using others entry (List.mem_append_left _ member))
    (fun block isData => by simpa using isData)
  exact ⟨name, scanned, isPos, isFp⟩

/-- The bindings without a key. -/
theorem Represents.filter_live (represents : Represents fp bindings (front ++ (key, value) :: back))
    (plain : key.head? ≠ some 0) (others : ∀ entry ∈ front ++ back, entry.1 ≠ key) :
    (front ++ back).filter isLive = bindings.filter fun entry => entry.1 ≠ key := by
  have keep : ((front ++ back).filter isLive).filter (fun entry => entry.1 ≠ key)
      = (front ++ back).filter isLive := by
    refine List.filter_eq_self.mpr fun entry member => ?_
    simpa using others entry (List.mem_filter.mp member).1
  rw [← represents.live, ← keep]
  simp [List.filter_append, isLive_iff.mpr plain]

theorem Represents.find (represents : Represents fp bindings (front ++ (key, value) :: back))
    (plain : key.head? ≠ some 0) (others : ∀ entry ∈ front ++ back, entry.1 ≠ key) :
    bindings.find? (fun entry => entry.1 = key) = some (key, value) := by
  have earlier : (front.filter isLive).find? (fun entry => entry.1 = key) = none :=
    List.find?_eq_none.mpr fun entry member => by
      simpa using others entry (List.mem_append_left _ (List.mem_filter.mp member).1)
  rw [← represents.live, List.filter_append, List.filter_cons_of_pos (isLive_iff.mpr plain),
    List.find?_append, earlier, Option.none_or, List.find?_cons_of_pos (by simp)]

theorem Represents.bound (represents : Represents fp bindings (front ++ (key, value) :: back))
    (plain : key.head? ≠ some 0) (others : ∀ entry ∈ front ++ back, entry.1 ≠ key) :
    key ∈ bindings.map Prod.fst :=
  List.mem_map_of_mem (List.mem_of_find?_eq_some (represents.find plain others))

theorem delete_spec (represents : Represents fp bindings entries) (plain : key.head? ≠ some 0) :
    ∃ entries', flatfileDelete fp key
        = some (decide (key ∈ bindings.map Prod.fst), ⟨fileBytes entries', []⟩)
      ∧ Represents ⟨fileBytes entries', []⟩ (bindings.filter fun entry => entry.1 ≠ key)
        entries' := by
  rcases represents.cases plain with absent | ⟨front, value, back, rfl, others⟩
  · have notBound := represents.notMem absent
    have none := represents.unbound absent
    have all : bindings.filter (fun entry => entry.1 ≠ key) = bindings :=
      List.filter_eq_self.mpr fun entry member => by simpa using notBound entry member
    refine ⟨entries, ?_, ?_⟩
    · rw [flatfileDelete, scan_key_absent represents absent, decide_eq_false none]
      rfl
    · rw [all]
      exact represents.atEnd
  · obtain ⟨name, scanned, isPos, isFp⟩ := scan_key_found represents others
    have entryFits := represents.fits (key, value) (by simp)
    have bound := represents.bound plain others
    refine ⟨front ++ (0 :: key.tail, value) :: back, ?_, List.append_nil _, ?_, ?_, ?_⟩
    · rw [flatfileDelete, scanned, Option.map_some, decide_eq_true bound]
      dsimp only
      rw [isPos, isFp, tombstone_eq entryFits.nonempty]
    · intro entry member
      rcases List.mem_cons.mp (List.perm_middle.mem_iff.mp member) with rfl | old
      · have length : (0 :: key.tail).length = key.length := by
          rw [List.length_cons, List.length_tail]
          have positive : 0 < key.length := List.length_pos_of_ne_nil entryFits.nonempty
          omega
        exact ⟨List.cons_ne_nil _ _, length ▸ entryFits.key, entryFits.value⟩
      · exact represents.fits entry (List.perm_middle.mem_iff.mpr (.tail _ old))
    · rw [← represents.filter_live plain others]
      simp [List.filter_append, isLive]
    · exact represents.nodup.sublist (List.filter_sublist.map _)

theorem insert_spec (represents : Represents fp bindings entries) (fits : Fits (key, value))
    (plain : key.head? ≠ some 0) :
    ∃ fp' entries', flatfileStore fp key value .insert
        = some (if key ∈ bindings.map Prod.fst then 1 else 0, fp')
      ∧ Represents fp'
        (if key ∈ bindings.map Prod.fst then bindings else bindings ++ [(key, value)])
        entries' := by
  rcases represents.cases plain with absent | ⟨front, old, back, rfl, others⟩
  · have none := represents.unbound absent
    rw [if_neg none, if_neg none]
    refine ⟨_, _, ?_, represents.append fits plain (represents.notMem absent)⟩
    rw [flatfileStore, flatfileFindkey, scan_key_absent represents absent]
    simp [Stream.seekEnd, Stream.bytes]
  · obtain ⟨name, scanned, -, isFp⟩ := scan_key_found represents others
    have bound := represents.bound plain others
    rw [if_pos bound, if_pos bound]
    refine ⟨name.fp, _, ?_, represents.moved ?_⟩
    · rw [flatfileStore, flatfileFindkey, scanned]
      rfl
    · rw [isFp, represents.file, fileBytes_append, fileBytes_cons, Stream.bytes, List.append_assoc]

theorem replace_spec (represents : Represents fp bindings entries) (fits : Fits (key, value))
    (plain : key.head? ≠ some 0) :
    ∃ fp' entries', flatfileStore fp key value .replace = some (0, fp')
      ∧ Represents fp' (bindings.filter (fun entry => entry.1 ≠ key) ++ [(key, value)])
        entries' := by
  obtain ⟨entries', deleted, rest⟩ := delete_spec represents plain
  refine ⟨_, _, ?_, rest.append fits plain fun entry member => ?_⟩
  · rw [flatfileStore, deleted]
    rfl
  · simpa using (List.mem_filter.mp member).2

theorem fetch_spec (represents : Represents fp bindings entries) (plain : key.head? ≠ some 0) :
    ∃ fp', flatfileFetch fp key
        = some ((bindings.find? fun entry => entry.1 = key).map Prod.snd, fp')
      ∧ Represents fp' bindings entries := by
  rcases represents.cases plain with absent | ⟨front, value, back, rfl, others⟩
  · have none : bindings.find? (fun entry => entry.1 = key) = none :=
      List.find?_eq_none.mpr fun entry member => by
        simpa using represents.notMem absent entry member
    refine ⟨⟨fileBytes entries, []⟩, ?_, represents.atEnd⟩
    rw [flatfileFetch, flatfileFindkey, scan_key_absent represents absent, none]
    rfl
  · obtain ⟨name, scanned, -, isFp⟩ := scan_key_found represents others
    have isBound := represents.find plain others
    have small := (represents.fits (key, value) (by simp)).value
    refine ⟨⟨fileBytes front ++ blockBytes key ++ blockBytes value, fileBytes back⟩, ?_,
      represents.moved ?_⟩
    · rw [flatfileFetch, flatfileFindkey, scanned, isBound, isFp]
      simp only [Option.map_some, Option.bind_eq_bind, Option.bind_some, Option.isSome_some,
        if_true]
      rw [readBlock_eq small (by omega)]
    · rw [represents.file, fileBytes_append, fileBytes_cons, Stream.bytes]
      simp only [List.append_assoc]

theorem call_spec (represents : Represents fp bindings entries) {op : Op} (plain : op.Plain) :
    ∃ fp' entries', call fp op = some ((op.act bindings).1, fp')
      ∧ Represents fp' (op.act bindings).2 entries' := by
  cases op with
  | store mode key value =>
      cases mode with
      | insert =>
          obtain ⟨fp', entries', stored, represents'⟩ := insert_spec represents plain.1 plain.2
          refine ⟨fp', entries', ?_, ?_⟩
          · rw [call, stored, Op.act]
            split
            · rfl
            · rfl
          · rw [Op.act]
            split at represents'
            · rename_i bound
              rwa [if_pos bound]
            · rename_i bound
              rwa [if_neg bound]
      | replace =>
          obtain ⟨fp', entries', stored, represents'⟩ := replace_spec represents plain.1 plain.2
          refine ⟨fp', entries', ?_, represents'⟩
          rw [call, stored]
          rfl
  | fetch key =>
      obtain ⟨fp', fetched, represents'⟩ := fetch_spec represents plain
      refine ⟨fp', entries, ?_, represents'⟩
      rw [call, fetched]
      rfl
  | delete key =>
      obtain ⟨entries', deleted, represents'⟩ := delete_spec represents plain
      refine ⟨_, entries', ?_, represents'⟩
      rw [call, deleted]
      rfl

theorem run_spec (represents : Represents fp bindings entries) {ops : List Op}
    (plain : ∀ op ∈ ops, op.Plain) :
    ∃ fp' entries', run fp ops = some ((actAll bindings ops).1, fp')
      ∧ Represents fp' (actAll bindings ops).2 entries' := by
  induction ops generalizing fp bindings entries with
  | nil => exact ⟨fp, entries, rfl, represents⟩
  | cons op ops induction =>
      obtain ⟨next, middle, called, represents'⟩ :=
        call_spec represents (plain op List.mem_cons_self)
      obtain ⟨fp', entries', runs, final⟩ :=
        induction represents' fun other member => plain other (.tail _ member)
      refine ⟨fp', entries', ?_, final⟩
      rw [run, called, Option.bind_eq_bind, Option.bind_some]
      dsimp only
      rw [runs]
      rfl

/-! ## The keys -/

theorem Block.isLive_eq {block : Block} (isData : block.data = key) (nonempty : key ≠ []) :
    block.isLive = Dba.isLive (key, value) := by
  cases key with
  | nil => exact absurd rfl nonempty
  | cons c key => simp [Block.isLive, Block.buf, Dba.isLive, isData]

/-- At the value of an entry, with some others to come: the next key is that of the first one that
is live. -/
theorem nextLoop_spec (small : value.length < 2 ^ 31) (fits : ∀ entry ∈ back, Fits entry)
    (enough : back.length < fuel) :
    (back.filter isLive = []
      ∧ ∃ fp', nextLoop fuel ⟨before, blockBytes value ++ fileBytes back⟩ = some (none, fp'))
    ∨ ∃ dead entry more name, back = dead ++ entry :: more
      ∧ back.filter isLive = entry :: more.filter isLive
      ∧ nextLoop fuel ⟨before, blockBytes value ++ fileBytes back⟩ = some (some name, name.fp)
      ∧ name.data = entry.1
      ∧ name.fp = ⟨before ++ (blockBytes value ++ (fileBytes dead ++ blockBytes entry.1)),
        blockBytes entry.2 ++ fileBytes more⟩ := by
  obtain ⟨fuel, rfl⟩ : ∃ less, fuel = less + 1 := ⟨fuel - 1, by omega⟩
  induction back generalizing before value fuel with
  | nil =>
      refine .inl ⟨rfl, ⟨before ++ blockBytes value, []⟩, ?_⟩
      rw [nextLoop, if_neg (not_eof _), readBlock_eq small (by omega)]
      rfl
  | cons entry back induction =>
      have first := fits entry List.mem_cons_self
      have isLive_ (block : Block) (isData : block.data = entry.1) : block.isLive = isLive entry :=
        Block.isLive_eq isData first.nonempty
      rw [nextLoop, if_neg (not_eof _), readBlock_eq small (by omega), fileBytes_cons]
      dsimp only
      rw [readBlock_eq first.key (by omega)]
      dsimp only
      rw [isLive_ _ rfl]
      by_cases live : isLive entry = true
      · refine .inr ⟨[], entry, back, _, rfl, List.filter_cons_of_pos live, if_pos live, rfl, ?_⟩
        simp [fileBytes]
      · rw [if_neg live, List.filter_cons_of_neg live]
        cases fuel with
        | zero =>
            rw [List.length_cons] at enough
            omega
        | succ fuel =>
            have later := @induction entry.2 (before ++ blockBytes value ++ blockBytes entry.1)
              first.value (fun other member => fits other (.tail _ member)) fuel
              (by simpa using enough)
            rcases later with none | ⟨dead, other, more, name, rfl, isFirst, found, isData, isFp⟩
            · exact .inl none
            · refine .inr ⟨entry :: dead, other, more, name, rfl, isFirst, found, isData, ?_⟩
              rw [isFp, fileBytes_cons]
              simp only [List.append_assoc]

/-- `dba` has found the key of an entry. -/
structure At (dba : Flatfile) (front : List Entry) (entry : Entry) (back : List Entry) : Prop where
  file : dba.fp.bytes = fileBytes (front ++ entry :: back)
  fits : ∀ other ∈ front ++ entry :: back, Fits other
  pos : dba.currentFlatFilePos = (fileBytes front ++ blockBytes entry.1).length

theorem nextKeys_eq {dba : Flatfile} {entry : Entry} (at_ : At dba front entry back)
    (enough : back.length < fuel) :
    nextKeys fuel dba = some ((back.filter isLive).map Prod.fst) := by
  induction fuel generalizing dba front entry back with
  | zero => omega
  | succ fuel induction =>
      have isFile : fileBytes (front ++ entry :: back)
          = (fileBytes front ++ blockBytes entry.1) ++ (blockBytes entry.2 ++ fileBytes back) := by
        rw [fileBytes_append, fileBytes_cons, List.append_assoc]
      have many := length_le_fileBytes (front ++ entry :: back)
      rw [List.length_append, List.length_cons] at many
      have small := (at_.fits entry (by simp)).value
      have fits : ∀ other ∈ back, Fits other := fun other member =>
        at_.fits other (List.mem_append_right _ (.tail _ member))
      rw [nextKeys, flatfileNextkey, Stream.seek, at_.pos, at_.file, isFile, List.take_left,
        List.drop_left, ← isFile]
      rcases @nextLoop_spec _ _ (fileBytes front ++ blockBytes entry.1) _ small fits
        (show back.length < (fileBytes (front ++ entry :: back)).length + 1 by omega) with
        ⟨none, fp', ended⟩ | ⟨dead, other, more, name, rfl, isFirst, found, isData, isFp⟩
      · rw [ended, none]
        rfl
      · have next : At { fp := name.fp, currentFlatFilePos := name.fp.tell }
            (front ++ entry :: dead) other more := by
          refine ⟨?_, fun member inside => at_.fits member (by simpa using inside), ?_⟩
          · rw [isFp, Stream.bytes]
            simp only [fileBytes_append, fileBytes_cons, List.append_assoc]
          · rw [isFp, Stream.tell]
            simp only [fileBytes_append, fileBytes_cons, List.append_assoc]
        have later := induction next (by simp at enough; omega)
        rw [found, isFirst]
        simp only [Option.map_some, Flatfile.found, later, isData, List.map_cons]

/-- The keys that are found are those of the bindings. -/
theorem allKeys_eq {dba : Flatfile} (represents : Represents dba.fp bindings entries)
    (enough : entries.length ≤ fuel) : allKeys fuel dba = some (bindings.map Prod.fst) := by
  have rejects {entry : Entry} (member : entry ∈ entries) (dead : isLive entry = false)
      (block : Block) (isData : block.data = entry.1) : block.isLive = false :=
    (Block.isLive_eq isData (represents.fits entry member).nonempty).trans dead
  cases isBindings : bindings with
  | nil =>
      have dead : ∀ entry ∈ entries, isLive entry = false := by
        intro entry member
        have none := List.filter_eq_nil_iff.mp (represents.live.trans isBindings) entry member
        exact Bool.eq_false_iff.mpr none
      rw [allKeys, flatfileFirstkey, scan_absent represents.file represents.fits
        fun entry member => rejects member (dead entry member)]
      rfl
  | cons entry others =>
      obtain ⟨dead, back, rfl, isDead, live, isOthers⟩ :=
        List.filter_eq_cons_iff.mp (represents.live.trans isBindings)
      have fits := represents.fits
      obtain ⟨name, scanned, isData, -, isFp⟩ := scan_found represents.file fits
        (fun other member => rejects (List.mem_append_left _ member)
          (Bool.eq_false_iff.mpr (isDead other member)))
        fun block isData =>
          (Block.isLive_eq isData (fits entry (by simp)).nonempty).trans live
      have first : At { fp := name.fp, currentFlatFilePos := name.fp.tell } dead entry back := by
        refine ⟨?_, fits, ?_⟩
        · rw [isFp, Stream.bytes, fileBytes_append, fileBytes_cons, List.append_assoc]
        · rw [isFp]
          rfl
      have later := nextKeys_eq first (show back.length < fuel by simp at enough; omega)
      rw [allKeys, flatfileFirstkey, scanned]
      simp only [Option.map_some, Flatfile.found, later, isData, isOthers, List.map_cons]

/-- A flat file is a map: every call answers as it should, and the keys that are found one after the
other are those that are there. Keys must not start with a null byte, and lengths have to fit into
an `int`. -/
theorem flatfile_is_map (ops : List Op) (plain : ∀ op ∈ ops, op.Plain) :
    ∃ fp, run {} ops = some ((actAll [] ops).1, fp)
      ∧ ((actAll [] ops).2.map Prod.fst).Nodup
      ∧ ∃ enough, ∀ fuel ≥ enough, ∀ currentFlatFilePos,
        allKeys fuel { fp, currentFlatFilePos } = some ((actAll [] ops).2.map Prod.fst) := by
  have start : Represents {} [] [] := ⟨rfl, nofun, rfl, List.nodup_nil⟩
  obtain ⟨fp, entries, runs, represents⟩ := run_spec start plain
  exact ⟨fp, runs, represents.nodup, entries.length, fun fuel enough _ =>
    allKeys_eq represents enough⟩

/-- One key, with a value that is replaced. -/
theorem flatfile_is_map_replace :
    let ops := [.store .insert [97] [1], .store .replace [97] [2], .fetch [97]]
    (∀ op ∈ ops, op.Plain)
    ∧ ∃ fp, run {} ops = some ([.code 0, .code 0, .value (some [2])], fp) := by
  intro ops
  have plain : ∀ op ∈ ops, op.Plain := by
    simp [ops, Op.Plain, Fits.mk]
  obtain ⟨fp, runs, -⟩ := flatfile_is_map ops plain
  exact ⟨plain, fp, runs⟩

/-- A deleted key is one that starts with a null byte, and such a key is taken for a deleted one. -/
theorem flatfile_null_byte :
    (run {} [.store .insert [97] [1], .delete [97], .fetch [0]]).map Prod.fst
      = some [.code 0, .success true, .value (some [1])]
    ∧ (actAll [] [.store .insert [97] [1], .delete [97], .fetch [0]]).1
      = [.code 0, .success true, .value none]
    ∧ ((run {} [.store .insert [0] [1], .fetch [0]]).bind fun (answers, fp) =>
        (allKeys 9 { fp }).map fun keys => (answers, keys))
      = some ([.code 0, .value (some [1])], []) := by
  decide

end PhpRuntime.Dba
