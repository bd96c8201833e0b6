import SmallLisp.Value.Basic

/-!
# Equality of values

Lists and vectors are equal when their elements are, and a list can equal a vector. Maps are equal
when they have the same keys with equal values. Functions and atoms are equal only to themselves.
Metadata takes no part.
-/

namespace SmallLisp.Value

mutual

def equal : Value → Value → Bool
  | nil, nil => true
  | bool a, bool b => a == b
  | int a, int b => a == b
  | str a, str b => a == b
  | keyword a, keyword b => a == b
  | symbol a, symbol b => a == b
  | list a _, list b _ => equalAll a b
  | list a _, vector b _ => equalAll a b
  | vector a _, list b _ => equalAll a b
  | vector a _, vector b _ => equalAll a b
  | map a _, map b _ => equalEntries a b
  | native _ a _, native _ b _ => a == b
  | closure a _ _, closure b _ _ => a.identity == b.identity
  | atom a, atom b => a == b
  | _, _ => false

def equalAll : List Value → List Value → Bool
  | [], [] => true
  | a :: as, b :: bs => equal a b && equalAll as bs
  | _, _ => false

/-- Whether two tables have the same keys with equal values. -/
def equalEntries : List (String × Value) → List (String × Value) → Bool
  | [], [] => true
  | (k, a) :: as, (l, b) :: bs => k == l && equal a b && equalEntries as bs
  | _, _ => false

end

instance : BEq Value := ⟨equal⟩

end SmallLisp.Value
