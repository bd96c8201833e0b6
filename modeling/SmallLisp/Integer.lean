/-!
# Integers of 64 bits

The integers of the language are the signed integers of 64 bits. A result outside of them is an
error and never wraps, so every operation computes in `Int` and asks whether the result fits.
-/

namespace SmallLisp.Integer

/-- Whether an integer fits into 64 bits. -/
def Fits (n : Int) : Prop := -9223372036854775808 ≤ n ∧ n ≤ 9223372036854775807

instance (n : Int) : Decidable (Fits n) := inferInstanceAs (Decidable (_ ∧ _))

/-- An integer in 64 bits, if it fits. -/
def ofInt? (n : Int) : Option Int64 :=
  if Fits n then some (Int64.ofInt n) else none

def ofDigits (digits : List Char) : Nat :=
  digits.foldl (fun n c => n * 10 + (c.toNat - '0'.toNat)) 0

/-- The integer that an optional sign and decimal digits denote, if it fits. -/
def ofNumeral? (sign : Option Char) (digits : List Char) : Option Int64 :=
  let size : Int := ofDigits digits
  ofInt? (if sign = some '-' then -size else size)

def text (n : Int64) : String :=
  let digits := String.ofList (Nat.toDigits 10 n.toInt.natAbs)
  if n.toInt < 0 then "-" ++ digits else digits

theorem toInt_of_ofInt? {n : Int} {m : Int64} (h : ofInt? n = some m) : m.toInt = n := by
  unfold ofInt? at h
  split at h
  · next fits =>
    obtain rfl := Option.some.inj h
    exact Int64.toInt_ofInt_of_le fits.1 (Int.lt_add_one_of_le fits.2)
  · simp at h

theorem ofInt?_toInt (m : Int64) : ofInt? m.toInt = some m := by
  have fits : Fits m.toInt := ⟨Int64.le_toInt m, Int.le_of_lt_add_one (Int64.toInt_lt m)⟩
  simp [ofInt?, fits]

theorem ofInt?_eq_some_iff {n : Int} {m : Int64} : ofInt? n = some m ↔ m.toInt = n :=
  ⟨toInt_of_ofInt?, fun h => h ▸ ofInt?_toInt m⟩

end SmallLisp.Integer
