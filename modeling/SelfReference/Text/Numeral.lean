/-!
# Numerals

Digits in a base up to sixteen, the number that a list of digits writes, and the shortest decimal
numeral of a number.
-/

namespace SelfReference.Text

def digitValue? (c : Char) : Option Nat :=
  if '0' ≤ c ∧ c ≤ '9' then some (c.toNat - 48)
  else if 'a' ≤ c ∧ c ≤ 'f' then some (c.toNat - 87)
  else if 'A' ≤ c ∧ c ≤ 'F' then some (c.toNat - 55)
  else none

def isDigitOf (base : Nat) (c : Char) : Bool :=
  match digitValue? c with
  | some d => d < base
  | none => false

/-- The number that digits of a base write, the first one weighing most. -/
def numeral (base : Nat) (digits : List Char) : Nat :=
  digits.foldl (fun n c => base * n + (digitValue? c).getD 0) 0

/-- The digits of the hexadecimal system, small and capital. -/
def smallDigits : List Char := "0123456789abcdef".toList
def capitalDigits : List Char := "0123456789ABCDEF".toList

/-- A number below 65536 in four digits of an alphabet of sixteen. -/
def fourDigits (alphabet : List Char) (n : Nat) : List Char :=
  [n / 4096 % 16, n / 256 % 16, n / 16 % 16, n % 16].map fun d => alphabet.getD d '0'

def decimalDigit (d : Nat) : Char := Char.ofNat (48 + d)

/-- The decimal numeral of a number, without leading zeros. -/
def decimal (n : Nat) : List Char :=
  if n < 10 then [decimalDigit n] else decimal (n / 10) ++ [decimalDigit (n % 10)]
termination_by n

theorem digitValue?_decimalDigit {d : Nat} (h : d < 10) :
    digitValue? (decimalDigit d) = some d := by
  have : ∀ d : Fin 10, digitValue? (decimalDigit d) = some d.val := by decide
  exact this ⟨d, h⟩

/-- A numeral reads back. -/
theorem numeral_decimal (n : Nat) : numeral 10 (decimal n) = n := by
  fun_induction decimal n with
  | case1 n h => simp [numeral, digitValue?_decimalDigit h]
  | case2 n h ih =>
    have hd : n % 10 < 10 := Nat.mod_lt _ (by omega)
    simp only [numeral, List.foldl_append, List.foldl_cons, List.foldl_nil,
      digitValue?_decimalDigit hd, Option.getD_some] at ih ⊢
    omega

theorem isDigitOf_decimal (n : Nat) : ∀ c ∈ decimal n, isDigitOf 10 c = true := by
  have one {d : Nat} (h : d < 10) : isDigitOf 10 (decimalDigit d) = true := by
    simp [isDigitOf, digitValue?_decimalDigit h, h]
  fun_induction decimal n with
  | case1 n h => simpa using one h
  | case2 n h ih =>
    intro c hc
    rcases List.mem_append.1 hc with hc | hc
    · exact ih c hc
    · rw [List.mem_singleton.1 hc]
      exact one (Nat.mod_lt _ (by omega))

theorem digitValue?_smallDigits : ∀ d < 16, digitValue? (smallDigits.getD d '0') = some d := by
  decide

theorem digitValue?_capitalDigits : ∀ d < 16, digitValue? (capitalDigits.getD d '0') = some d := by
  decide

section FourDigits

variable {alphabet : List Char} (h : ∀ d < 16, digitValue? (alphabet.getD d '0') = some d)
include h

theorem numeral_fourDigits {n : Nat} (hn : n < 65536) :
    numeral 16 (fourDigits alphabet n) = n := by
  have hdigit (k : Nat) : digitValue? (alphabet.getD (k % 16) '0') = some (k % 16) :=
    h (k % 16) (Nat.mod_lt k (by decide))
  simp only [numeral, fourDigits, List.map_cons, List.map_nil, List.foldl_cons, List.foldl_nil,
    hdigit, Option.getD_some]
  omega

theorem isDigitOf_fourDigits (n : Nat) : (fourDigits alphabet n).all (isDigitOf 16) = true := by
  have hdigit (k : Nat) : isDigitOf 16 (alphabet.getD (k % 16) '0') = true := by
    have hk : k % 16 < 16 := Nat.mod_lt k (by decide)
    rw [isDigitOf, h (k % 16) hk]
    exact decide_eq_true hk
  simp only [fourDigits, List.map_cons, List.map_nil, List.all_cons, List.all_nil, hdigit,
    Bool.and_self]

end FourDigits

def wordLimit : Nat := 18446744073709551616

def decimalText (n : Nat) : String := String.ofList (decimal n)

end SelfReference.Text
