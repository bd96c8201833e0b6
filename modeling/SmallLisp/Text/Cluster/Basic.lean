import SmallLisp.Text.Basic
import SmallLisp.Text.Cluster.Ranges

/-!
# Clusters of characters

A cluster is what a person takes for one character: a letter with its marks, a syllable, a flag, a
picture made up of several. These are the extended grapheme clusters of Unicode. Whether a
character joins the cluster before it depends on its class and on a few facts about the text in
front of it. Main statement: clusters are a text cut into pieces, and nothing is lost.
-/

namespace SmallLisp.Text.Cluster

/-! ### Classes of characters -/

/-- How a character takes part in clusters. `linker` and `nonJoiner` are the marks that conjuncts
are linked by and that keep them apart, and a `syllable` is a Hangul one with a trailing
consonant. -/
inductive Class where
  | other
  | carriageReturn
  | newline
  | control
  | mark
  | linker
  | nonJoiner
  | joiner
  | spacing
  | prepended
  | regional
  | leading
  | vowel
  | trailing
  | openSyllable
  | syllable
  | pictograph
  | consonant
  deriving DecidableEq, Repr

/-- The class of a Hangul syllable, which has a trailing consonant unless its place among the
syllables is a multiple of 28. -/
def syllableClass (place : Nat) : Class := if place % 28 = 0 then .openSyllable else .syllable

def classOf (c : Char) : Class :=
  if c = '\r' then .carriageReturn
  else if c = '\n' then .newline
  else if c = '\u200c' then .nonJoiner
  else if c = '\u200d' then .joiner
  else if isWithin [(0x1F1E6, 0x1F1FF)] c then .regional
  else if isWithin [(0xAC00, 0xD7A3)] c then syllableClass (c.toNat - 0xAC00)
  else if isWithin controlRanges c then .control
  else if isWithin linkerRanges c then .linker
  else if isWithin extendRanges c then .mark
  else if isWithin spacingRanges c then .spacing
  else if isWithin prependRanges c then .prepended
  else if isWithin leadingRanges c then .leading
  else if isWithin vowelRanges c then .vowel
  else if isWithin trailingRanges c then .trailing
  else if isWithin pictographRanges c then .pictograph
  else if isWithin consonantRanges c then .consonant
  else .other

/-! ### What stands before a character -/

/-- Whether a text ends in a picture and its marks, or in those and a joiner. -/
inductive Picture where
  | none
  | shown
  | joined
  deriving DecidableEq, Repr

/-- Whether a text ends in a consonant and its marks, or in those with a linker among them. -/
inductive Conjunct where
  | none
  | single
  | linked
  deriving DecidableEq, Repr

/-- What matters of a text for the character behind it: the class of its last character, the
picture and the conjunct that it ends in, and whether the number of regional indicators at its end
is odd. -/
structure Context where
  last : Class
  picture : Picture
  conjunct : Conjunct
  oddRegionals : Bool
  deriving DecidableEq, Repr

namespace Context

/-- The context of no text. Nothing joins it, as nothing joins a control character. -/
def start : Context := ⟨.control, .none, .none, false⟩

/-- The picture behind one more character. -/
def nextPicture : Picture → Class → Picture
  | _, .pictograph => .shown
  | .shown, .mark => .shown
  | .shown, .linker => .shown
  | .shown, .nonJoiner => .shown
  | .shown, .joiner => .joined
  | _, _ => .none

def nextConjunct : Conjunct → Class → Conjunct
  | _, .consonant => .single
  | .none, _ => .none
  | _, .linker => .linked
  | conjunct, .mark => conjunct
  | conjunct, .joiner => conjunct
  | _, _ => .none

def next (x : Context) (k : Class) : Context :=
  ⟨k, nextPicture x.picture k, nextConjunct x.conjunct k, k == .regional && !x.oddRegionals⟩

/-- Whether a character joins the cluster before it. A newline joins only a carriage return, and
nothing else joins a control character or is joined to one; the parts of a Hangul syllable join;
marks join everything, and everything joins a sign that is prepended; consonants join by a linker,
pictures by a joiner, and regional indicators in pairs. -/
def joins (x : Context) (k : Class) : Bool :=
  match x.last, k with
  | .carriageReturn, .newline => true
  | .carriageReturn, _ => false
  | .newline, _ => false
  | .control, _ => false
  | _, .carriageReturn => false
  | _, .newline => false
  | _, .control => false
  | .leading, .leading => true
  | .leading, .vowel => true
  | .leading, .openSyllable => true
  | .leading, .syllable => true
  | .openSyllable, .vowel => true
  | .openSyllable, .trailing => true
  | .vowel, .vowel => true
  | .vowel, .trailing => true
  | .syllable, .trailing => true
  | .trailing, .trailing => true
  | _, .mark => true
  | _, .linker => true
  | _, .nonJoiner => true
  | _, .joiner => true
  | _, .spacing => true
  | .prepended, _ => true
  | _, .consonant => x.conjunct == .linked
  | _, .pictograph => x.picture == .joined
  | .regional, .regional => x.oddRegionals
  | _, _ => false

end Context

/-! ### Clusters of a text -/

/-- The characters that join the cluster before a text, and the clusters behind them. -/
def cut (x : Context) : List Char → List Char × List (List Char)
  | [] => ([], [])
  | c :: cs =>
    let (joined, others) := cut (x.next (classOf c)) cs
    if x.joins (classOf c) then (c :: joined, others) else ([], (c :: joined) :: others)

def list (cs : List Char) : List (List Char) := (cut .start cs).2

theorem flatten_cut (x : Context) (cs : List Char) :
    (cut x cs).1 ++ (cut x cs).2.flatten = cs := by
  induction cs generalizing x with
  | nil => rfl
  | cons c cs ih =>
    have whole := ih (x.next (classOf c))
    rw [cut]
    cases x.joins (classOf c) with
    | true => simpa using whole
    | false => simpa using whole

theorem fst_cut_start (cs : List Char) : (cut .start cs).1 = [] := by
  cases cs with
  | nil => rfl
  | cons c cs => rfl

theorem flatten_list (cs : List Char) : (list cs).flatten = cs := by
  have whole := flatten_cut .start cs
  rw [fst_cut_start] at whole
  exact whole

end SmallLisp.Text.Cluster
