import PhpRuntime.Validation.Addresses

/-! # Ranges of addresses

`php_filter_validate_ip` of `ext/filter/logical_filters.c`. The numbers of an IPv4 address are
compared, but of an IPv6 address the text.
-/

namespace PhpRuntime.Validation

open Decimal CString Positional

def filterFlagIpv4 : Nat := 0x100000
def filterFlagIpv6 : Nat := 0x200000
def filterFlagNoResRange : Nat := 0x400000
def filterFlagNoPrivRange : Nat := 0x800000

/-- `!strncasecmp(pattern, str, strlen(pattern))` -/
def startsWithCase (pattern str : List UInt8) : Bool :=
  (str.take pattern.length).map toLower == pattern.map toLower

def bytes (text : String) : List UInt8 := text.toList.map byte

/-- The private ranges of IPv4 -/
def ipv4Private (ip : List Nat) : Bool :=
  let at' (n : Nat) := ip.getD n 0
  at' 0 == 10 || (at' 0 == 172 && 16 ≤ at' 1 && at' 1 ≤ 31) || (at' 0 == 192 && at' 1 == 168)

/-- The reserved ranges of IPv4 -/
def ipv4Reserved (ip : List Nat) : Bool :=
  let at' (n : Nat) := ip.getD n 0
  at' 0 == 0 || (at' 0 == 100 && 64 ≤ at' 1 && at' 1 ≤ 127) || (at' 0 == 169 && at' 1 == 254)
    || (at' 0 == 192 && at' 1 == 0 && at' 2 == 2)
    || (at' 0 == 127 && at' 1 == 0 && at' 2 == 0 && at' 3 == 1)
    || (224 ≤ at' 0 && at' 0 ≤ 255)

def ipv6Private (value : List UInt8) : Bool :=
  2 ≤ value.length && (startsWithCase (bytes "FC") value || startsWithCase (bytes "FD") value)

/-- The switch over the length of the text -/
def ipv6Reserved (value : List UInt8) : Bool :=
  match value.length with
  | 0 | 1 => false
  | 2 => value == bytes "::"
  | 3 => value == bytes "::1" || value == bytes "5f:"
  | length =>
      (5 ≤ length && (startsWithCase (bytes "fe8") value || startsWithCase (bytes "fe9") value
        || startsWithCase (bytes "fea") value || startsWithCase (bytes "feb") value))
      || (9 ≤ length && startsWithCase (bytes "2001:0db8") value)
      || (2 ≤ length && startsWithCase (bytes "5f") value)
      || (4 ≤ length && startsWithCase (bytes "3ff3") value)
      || (8 ≤ length && startsWithCase (bytes "2001:001") value)

/-- `php_filter_validate_ip`; whether the validation succeeds. -/
def phpFilterValidateIp (flags : Nat) (value : List UInt8) : Bool :=
  let ipv4Only := flags &&& filterFlagIpv4 ≠ 0 ∧ flags &&& filterFlagIpv6 = 0
  let ipv6Only := flags &&& filterFlagIpv6 ≠ 0 ∧ flags &&& filterFlagIpv4 = 0
  if colon ∈ value then
    if ipv4Only then false
    else if !phpFilterValidateIpv6 value then false
    else if flags &&& filterFlagNoPrivRange ≠ 0 ∧ ipv6Private value then false
    else if flags &&& filterFlagNoResRange ≠ 0 ∧ ipv6Reserved value then false
    else true
  else if byte '.' ∈ value then
    if ipv6Only then false
    else
      match phpFilterValidateIpv4 value with
      | none => false
      | some ip =>
          if flags &&& filterFlagNoPrivRange ≠ 0 ∧ ipv4Private ip then false
          else if flags &&& filterFlagNoResRange ≠ 0 ∧ ipv4Reserved ip then false
          else true
  else
    false

/-! ## The first group -/

section First

variable {str : List UInt8} {groups : List Nat}

theorem Spells.mem_colon (spelled : Spells str groups) : colon ∈ str := by
  have valid := spelled.valid
  by_contra missing
  rw [phpFilterValidateIpv6, if_pos missing] at valid
  contradiction

/-- The digits at the start of a text are those of the first group, which is zero if there are
none. -/
theorem Spells.first (spelled : Spells str groups) :
    (str.takeWhile isXdigit).length ≤ 4
      ∧ ∃ more, groups = xvalue (str.takeWhile isXdigit) :: more := by
  obtain ⟨g, rest, more, short, digits, rfl, stops, rfl⟩ : ∃ g rest more, g.length ≤ 4
      ∧ (∀ c ∈ g, isXdigit c = true) ∧ str = g ++ rest ∧ Stops isXdigit rest
      ∧ groups = xvalue g :: more := by
    cases spelled with
    | @full pieces groups ending eight =>
        cases ending with
        | groups all =>
            cases pieces with
            | nil => contradiction
            | cons g gs =>
                exact ⟨g, follow gs, _, (all g List.mem_cons_self).2.1,
                  (all g List.mem_cons_self).2.2, intercalate_cons _ _ _, stops_follow gs, rfl⟩
        | @dotted gs text a b c d all bundled =>
            cases gs with
            | nil => simp at eight
            | cons g gs =>
                exact ⟨g, follow (gs ++ [text]), _, (all g List.mem_cons_self).2.1,
                  (all g List.mem_cons_self).2.2, intercalate_cons _ _ _, stops_follow _, rfl⟩
    | @compressed gs pieces groups all ending room =>
        cases gs with
        | nil =>
            refine ⟨[], _, List.replicate (7 - groups.length) 0 ++ groups, by decide, nofun, rfl,
              .cons rfl _, ?_⟩
            have isFirst : 8 - ([] : List (List UInt8)).length - groups.length
                = 7 - groups.length + 1 := by
              rw [List.length_nil] at room ⊢
              omega
            rw [isFirst]
            rfl
        | cons g gs =>
            refine ⟨g, follow gs ++ ([colon, colon] ++ [colon].intercalate pieces), _,
              (all g List.mem_cons_self).2.1, (all g List.mem_cons_self).2.2, ?_, ?_, rfl⟩
            · rw [intercalate_cons, follow, List.append_assoc, List.append_assoc]
            · cases gs with
              | nil => exact .cons rfl _
              | cons g gs => exact .cons rfl _
  rw [(stops.span digits).1]
  exact ⟨short, more, rfl⟩

end First

/-! ## Spellings of an address -/

/-- The first group is written with four digits. -/
def FourDigits (str : List UInt8) : Prop := (str.takeWhile isXdigit).length = 4

instance (str : List UInt8) : Decidable (FourDigits str) := inferInstanceAs (Decidable (_ = _))

/-- The addresses of `fc00::/7`. -/
def UniqueLocal (groups : List Nat) : Prop :=
  ∃ first rest, groups = first :: rest ∧ first / 2 ^ 9 = 126

theorem toNat_toLower {c : UInt8} (isXdigit : isXdigit c = true) :
    (hexDigit c).getD 0 < 16 ∧ (toLower c).toNat
      = if (hexDigit c).getD 0 < 10 then 48 + (hexDigit c).getD 0
        else 87 + (hexDigit c).getD 0 := by
  have codes : (byte '0').toNat = 48 ∧ (byte '9').toNat = 57 ∧ (byte 'a').toNat = 97
      ∧ (byte 'f').toNat = 102 ∧ (byte 'A').toNat = 65 ∧ (byte 'F').toNat = 70
      ∧ (byte 'Z').toNat = 90 := by decide
  simp only [CString.isXdigit, Decimal.isDigit, Bool.or_eq_true, Bool.and_eq_true,
    decide_eq_true_eq, UInt8.le_iff_toNat_le, codes] at isXdigit
  simp only [hexDigit, toLower, UInt8.le_iff_toNat_le, codes]
  split_ifs <;> simp only [Option.getD_some, Option.getD_none, UInt8.toNat_add] at * <;>
    first | omega | (simp; omega)

/-- With four digits, the prefixes of the text are the private range. -/
theorem ipv6Private_iff {str : List UInt8} {groups : List Nat} (spelled : Spells str groups)
    (four : FourDigits str) : ipv6Private str = true ↔ UniqueLocal groups := by
  obtain ⟨_, more, rfl⟩ := spelled.first
  obtain ⟨a, b, c, d, digits⟩ := List.length_eq_four.mp four
  have parts := List.takeWhile_append_dropWhile (p := isXdigit) (l := str)
  rw [digits] at parts
  have isXdigit : ∀ e ∈ [a, b, c, d], isXdigit e = true := by
    rw [← digits]
    exact fun e member => List.mem_takeWhile_imp member
  obtain ⟨smallA, lowerA⟩ := toNat_toLower (isXdigit a (by simp))
  obtain ⟨smallB, lowerB⟩ := toNat_toLower (isXdigit b (by simp))
  have smallC := (toNat_toLower (isXdigit c (by simp))).1
  have smallD := (toNat_toLower (isXdigit d (by simp))).1
  have codes : (byte 'f').toNat = 102 ∧ (byte 'c').toNat = 99 ∧ (byte 'd').toNat = 100 := by decide
  have prefixes : ipv6Private str = true ↔ (toLower a).toNat = 102
      ∧ ((toLower b).toNat = 99 ∨ (toLower b).toNat = 100) := by
    rw [← parts, ipv6Private]
    have patterns : (bytes "FC").map toLower = [byte 'f', byte 'c']
        ∧ (bytes "FD").map toLower = [byte 'f', byte 'd'] := by decide
    simp only [startsWithCase, patterns, show (bytes "FC").length = 2 from rfl,
      show (bytes "FD").length = 2 from rfl]
    simp [← codes, UInt8.toNat_inj, ← and_or_left]
  have first : xvalue (str.takeWhile CString.isXdigit)
      = (((hexDigit a).getD 0 * 16 + (hexDigit b).getD 0) * 16 + (hexDigit c).getD 0) * 16
        + (hexDigit d).getD 0 := by
    rw [digits]
    simp [xvalue, number]
  have range : UniqueLocal (xvalue (str.takeWhile CString.isXdigit) :: more) ↔
      xvalue (str.takeWhile CString.isXdigit) / 2 ^ 9 = 126 := by
    refine ⟨?_, fun range => ⟨_, _, rfl, range⟩⟩
    rintro ⟨_, _, equal, range⟩
    exact (List.cons.inj equal).1 ▸ range
  rw [prefixes, range, first, lowerA, lowerB]
  split_ifs <;> omega

/-- The first group of such an address has four digits, so that the prefixes are right unless
they stand for a shorter group. -/
theorem ipv6Private_agrees_iff {str : List UInt8} {groups : List Nat}
    (spelled : Spells str groups) :
    (ipv6Private str = true ↔ UniqueLocal groups) ↔
      (ipv6Private str = true → FourDigits str) := by
  have large (range : UniqueLocal groups) : FourDigits str := by
    obtain ⟨short, more, rfl⟩ := spelled.first
    obtain ⟨_, _, equal, range⟩ := range
    obtain ⟨rfl, _⟩ := List.cons.inj equal
    have below : xvalue (str.takeWhile isXdigit) < 16 ^ (str.takeWhile isXdigit).length := by
      have bound := @number_lt UInt8 16 (fun c => (hexDigit c).getD 0)
        (str.takeWhile isXdigit)
        (fun c member => (toNat_toLower (List.mem_takeWhile_imp member)).1) 0
      rwa [Nat.zero_add, Nat.one_mul] at bound
    by_contra notFour
    have less : (str.takeWhile isXdigit).length ≤ 3 := by
      rw [FourDigits] at notFour
      omega
    have bound := Nat.lt_of_lt_of_le below (Nat.pow_le_pow_right (by decide) less)
    omega
  constructor
  · exact fun agrees found => large (agrees.mp found)
  · intro four
    exact ⟨fun found => (ipv6Private_iff spelled (four found)).mp found,
      fun range => (ipv6Private_iff spelled (large range)).mpr range⟩

/-- The flags ask for IPv4 addresses only. -/
def Ipv4Only (flags : Nat) : Prop := flags &&& filterFlagIpv4 ≠ 0 ∧ flags &&& filterFlagIpv6 = 0

/-- The text of an address is one that the flags do not allow. -/
def Refused (flags : Nat) (str : List UInt8) : Prop :=
  flags &&& filterFlagNoPrivRange ≠ 0 ∧ ipv6Private str = true
    ∨ flags &&& filterFlagNoResRange ≠ 0 ∧ ipv6Reserved str = true

/-- Of the ranges, the flags exclude the private one only. -/
def PrivateOnly (flags : Nat) : Prop :=
  flags &&& filterFlagNoPrivRange ≠ 0 ∧ flags &&& filterFlagNoResRange = 0

theorem phpFilterValidateIp_spelled {flags : Nat} {str : List UInt8} {groups : List Nat}
    (spelled : Spells str groups) :
    phpFilterValidateIp flags str = true ↔ ¬Ipv4Only flags ∧ ¬Refused flags str := by
  rw [phpFilterValidateIp, Ipv4Only, Refused]
  simp only [if_pos spelled.mem_colon, spelled.valid]
  split_ifs <;> simp_all

end PhpRuntime.Validation
