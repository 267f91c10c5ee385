import Mathlib

/-!
# Python string operations

The `str` methods and the string form of `int()` that the pipeline calls, on lists of
characters, as the Python 3.12 documentation and its Unicode 15.0 tables describe them.

## Main definitions

* `PyStr.isdigit`, `PyStr.strip`, `PyStr.partition`: the methods of the same names;
* `PyStr.int?`: `int(s)`, with `none` for the `ValueError` it raises.

## Main results

* `PyStr.isDigitChar_of_decimal`: every decimal digit is a digit; the converse fails
  (`'²'.isdigit()` is true, `int('²')` raises);
* `Decimal.append_toString_inj`: a numbered name determines its stem and its number.
-/

namespace PyStr

/-! ### Character classes -/

/-- The code points of the digits zero of Unicode's decimal digit blocks; each block has
its ten digits in order. -/
def decimalZeros : List ℕ :=
  [0x30, 0x660, 0x6F0, 0x7C0, 0x966, 0x9E6, 0xA66, 0xAE6, 0xB66, 0xBE6, 0xC66, 0xCE6, 0xD66,
    0xDE6, 0xE50, 0xED0, 0xF20, 0x1040, 0x1090, 0x17E0, 0x1810, 0x1946, 0x19D0, 0x1A80, 0x1A90,
    0x1B50, 0x1BB0, 0x1C40, 0x1C50, 0xA620, 0xA8D0, 0xA900, 0xA9D0, 0xA9F0, 0xAA50, 0xABF0,
    0xFF10, 0x104A0, 0x10D30, 0x11066, 0x110F0, 0x11136, 0x111D0, 0x112F0, 0x11450, 0x114D0,
    0x11650, 0x116C0, 0x11730, 0x118E0, 0x11950, 0x11C50, 0x11D50, 0x11DA0, 0x11F50, 0x16A60,
    0x16AC0, 0x16B50, 0x1D7CE, 0x1D7D8, 0x1D7E2, 0x1D7EC, 0x1D7F6, 0x1E140, 0x1E2F0, 0x1E4F0,
    0x1E950, 0x1FBF0]

/-- Code point ranges of the digits that are not decimal digits (superscripts, circled
digits and the like): `isdigit` accepts them, `int` does not. -/
def otherDigitRanges : List (ℕ × ℕ) :=
  [(0xB2, 0xB3), (0xB9, 0xB9), (0x1369, 0x1371), (0x19DA, 0x19DA), (0x2070, 0x2070),
    (0x2074, 0x2079), (0x2080, 0x2089), (0x2460, 0x2468), (0x2474, 0x247C), (0x2488, 0x2490),
    (0x24EA, 0x24EA), (0x24F5, 0x24FD), (0x24FF, 0x24FF), (0x2776, 0x277E), (0x2780, 0x2788),
    (0x278A, 0x2792), (0x10A40, 0x10A43), (0x10E60, 0x10E68), (0x11052, 0x1105A),
    (0x1F100, 0x1F10A)]

/-- Code point ranges of the whitespace characters. -/
def spaceRanges : List (ℕ × ℕ) :=
  [(0x9, 0xD), (0x1C, 0x20), (0x85, 0x85), (0xA0, 0xA0), (0x1680, 0x1680), (0x2000, 0x200A),
    (0x2028, 0x2029), (0x202F, 0x202F), (0x205F, 0x205F), (0x3000, 0x3000)]

/-- The code point of `c` lies in one of the ranges. -/
def inRanges (ranges : List (ℕ × ℕ)) (c : Char) : Bool :=
  ranges.any fun r => decide (r.1 ≤ c.toNat) && decide (c.toNat ≤ r.2)

/-- The value of a decimal digit, `none` for any other character. -/
def decimal? (c : Char) : Option ℕ :=
  (decimalZeros.find? fun z => decide (z ≤ c.toNat) && decide (c.toNat < z + 10)).map
    fun z => c.toNat - z

/-- `c` is a decimal digit: what `\d` matches in a `str` pattern. -/
def isDecimalChar (c : Char) : Bool := (decimal? c).isSome

/-- `c.isdigit()`. -/
def isDigitChar (c : Char) : Bool := isDecimalChar c || inRanges otherDigitRanges c

/-- `c.isspace()`. -/
def isSpaceChar (c : Char) : Bool := inRanges spaceRanges c

/-- Every decimal digit is a digit. -/
theorem isDigitChar_of_decimal {c : Char} (h : isDecimalChar c = true) :
    isDigitChar c = true := by
  simp [isDigitChar, h]

/-- The newline is not a digit. -/
theorem isDigitChar_newline : isDigitChar '\n' = false := by decide

/-! ### Methods of `str` -/

/-- `s.isdigit()`: not empty, and every character is a digit. -/
def isdigit (s : List Char) : Bool := !s.isEmpty && s.all isDigitChar

/-- `s.strip()`. -/
def strip (s : List Char) : List Char :=
  ((s.dropWhile isSpaceChar).reverse.dropWhile isSpaceChar).reverse

/-- `s.partition(sep)` for a one-character separator: what stands before its first
occurrence and what stands behind it (empty when it does not occur). -/
def partition (sep : Char) (s : List Char) : List Char × List Char :=
  (s.takeWhile (· ≠ sep), (s.dropWhile (· ≠ sep)).tail)

/-! ### `int()` -/

/-- `s.replace(old, new, 1)`, for an `old` that is not empty. -/
def replaceFirst (old new : List Char) : List Char → List Char
  | [] => []
  | c :: cs =>
    if old.isPrefixOf (c :: cs) then new ++ (c :: cs).drop old.length
    else c :: replaceFirst old new cs

/-- `sys.get_int_max_str_digits()` at its default. -/
def intMaxStrDigits : ℕ := 4300

/-- The digits of an integer literal: decimal digits, single underscores allowed between
two of them. -/
def digitGroups : List Char → Option (List ℕ)
  | [] => none
  | [c] => (decimal? c).map fun d => [d]
  | c :: '_' :: rest => do
    let d ← decimal? c
    let ds ← digitGroups rest
    return d :: ds
  | c :: rest => do
    let d ← decimal? c
    let ds ← digitGroups rest
    return d :: ds

/-- The value of a digit string, most significant digit first. -/
def digitsValue (ds : List ℕ) : ℕ := ds.foldl (fun acc d => 10 * acc + d) 0

/-- An unsigned literal, within the interpreter's length limit. -/
def natLiteral? (s : List Char) : Option ℕ := do
  let ds ← digitGroups s
  if ds.length ≤ intMaxStrDigits then return digitsValue ds else none

/-- `int(s)` in base ten, `none` for its `ValueError`: surrounding whitespace is dropped, one
sign is allowed. -/
def int? (s : List Char) : Option ℤ :=
  match strip s with
  | '-' :: rest => (natLiteral? rest).map fun n => -(n : ℤ)
  | '+' :: rest => (natLiteral? rest).map fun n => (n : ℤ)
  | rest => (natLiteral? rest).map fun n => (n : ℤ)

example : int? " 1_0 ".toList = some 10 ∧ int? "-5".toList = some (-5) ∧
    int? "²".toList = none ∧ isdigit "²".toList = true := by
  decide

end PyStr

/-! ## Numbered names -/

namespace Decimal

open List

variable {c : Char} {t s a b : List Char}

/-- The decimal notation of a natural number consists of digits. -/
theorem notMem_toString_nat (hc : c.isDigit = false) (n : ℕ) :
    c ∉ (toString n).toList := by
  intro hmem
  have hdigits : (toString n).toList = Nat.toDigits 10 n := by
    show (Nat.repr n).toList = _
    simp [Nat.repr]
  rw [hdigits] at hmem
  rw [Nat.isDigit_of_mem_toDigits (by decide) (by decide) hmem] at hc
  cases hc

/-- Decimal notation contains no underscore. -/
theorem underscore_notMem_toString (d : ℤ) : '_' ∉ (toString d).toList := by
  have hnat : ∀ n : ℕ, '_' ∉ (Nat.repr n).toList := notMem_toString_nat rfl
  cases d with
  | ofNat n => exact hnat n
  | negSucc n =>
    have happ : (toString (Int.negSucc n)).toList = '-' :: (Nat.repr (n + 1)).toList := by
      rw [show toString (Int.negSucc n) = "-" ++ Nat.repr (n + 1) from rfl, String.toList_append]
      rfl
    rw [happ, mem_cons, not_or]
    exact ⟨by decide, hnat _⟩

/-- Decimal notation determines the integer. -/
theorem toString_inj {d e : ℤ} : toString d = toString e ↔ d = e := Int.repr_inj

/-- A list is parted at its last occurrence of an element in one way only. -/
theorem append_cons_inj (hs : c ∉ s) (ht : c ∉ t) (h : a ++ c :: s = b ++ c :: t) :
    a = b ∧ s = t := by
  have hrev := congrArg List.reverse h
  simp only [reverse_append, reverse_cons, append_assoc, singleton_append] at hrev
  have htake : ∀ {u v : List Char}, c ∉ u →
      (u.reverse ++ c :: v).takeWhile (· ≠ c) = u.reverse := by
    intro u v hu
    rw [takeWhile_append_of_pos]
    · simp
    · intro x hx
      have hxu := mem_reverse.mp hx
      simp only [ne_eq, decide_eq_true_eq]
      rintro rfl
      exact hu hxu
  have hst : s = t := by
    have := congrArg (takeWhile (· ≠ c)) hrev
    rw [htake hs, htake ht] at this
    exact reverse_injective this
  subst hst
  exact ⟨append_cancel_right h, rfl⟩

/-- A list is parted at its first occurrence of an element in one way only. -/
theorem append_cons_inj_left (ha : c ∉ a) (hb : c ∉ b) (h : a ++ c :: s = b ++ c :: t) :
    a = b ∧ s = t := by
  have hrev := congrArg List.reverse h
  simp only [reverse_append, reverse_cons, append_assoc, singleton_append] at hrev
  obtain ⟨hs, hab⟩ := append_cons_inj (mt mem_reverse.mp ha) (mt mem_reverse.mp hb) hrev
  exact ⟨reverse_injective hab, reverse_injective hs⟩

/-- A numbered name determines its stem and its number. -/
theorem append_toString_inj {a b sep : String} {d e : ℤ}
    (h : a ++ (sep ++ "_") ++ toString d = b ++ (sep ++ "_") ++ toString e) : a = b ∧ d = e := by
  have hlist := congrArg String.toList h
  have hsplit : (a.toList ++ sep.toList) ++ '_' :: (toString d).toList =
      (b.toList ++ sep.toList) ++ '_' :: (toString e).toList := by
    simpa using hlist
  obtain ⟨hstem, hnum⟩ := append_cons_inj (underscore_notMem_toString d)
    (underscore_notMem_toString e) hsplit
  exact ⟨String.toList_inj.mp (append_cancel_right hstem),
    toString_inj.mp (String.toList_inj.mp hnum)⟩

end Decimal
