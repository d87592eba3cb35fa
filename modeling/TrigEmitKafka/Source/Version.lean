import Mathlib.Data.List.Infix

/-!
# Source — the version of `build-deb.sh`

How the script turns the output of `git describe --tags --always --dirty` into a package version.
A string of the shell is the list of its characters; a range in a bracket expression is one of
ASCII.

`Describe` is what `git describe` prints: the name of a tag, a tag's name with a number of commits
since and an abbreviated hash, or an abbreviated hash when no tag is reachable; and `-dirty` when
the work tree is.
-/

namespace TrigEmit

/-- A string of the shell. -/
abbrev Text := List Char

/-! ### The two regular expressions -/

/-- `[0-9.]` -/
def isDigitOrDot (c : Char) : Bool := c.isDigit || c == '.'

/-- `[0-9a-f]` -/
def isHex (c : Char) : Bool := c.isDigit || (decide ('a' ≤ c) && decide (c ≤ 'f'))

/-- `[0-9][0-9.]*` -/
def isRelease : Text → Bool
  | []     => false
  | c :: n => c.isDigit && n.all isDigitOrDot

/-- What `v?` leaves. -/
def dropV : Text → Text
  | 'v' :: s => s
  | s        => s

/-- `^v?([0-9][0-9.]*)$`, and its group. -/
def matchTag (s : Text) : Option Text :=
  if isRelease (dropV s) then some (dropV s) else none

/-- `^v?([0-9][0-9.]*)-([0-9]+)-g([0-9a-f]+)$`, and its groups.  No group can take a hyphen, so a
string is split in one way at most. -/
def matchCommits (s : Text) : Option (Text × Text × Text) :=
  let n := (dropV s).takeWhile isDigitOrDot
  match (dropV s).dropWhile isDigitOrDot with
  | '-' :: s₁ =>
      let d := s₁.takeWhile Char.isDigit
      match s₁.dropWhile Char.isDigit with
      | '-' :: 'g' :: h =>
          if isRelease n ∧ d ≠ [] ∧ h ≠ [] ∧ h.all isHex then some (n, d, h) else none
      | _ => none
  | _ => none

/-! ### The version -/

def dirtySuffix : Text := "-dirty".toList

/-- The first `case`: what is left of `describe`, and `dirty`. -/
def stripDirty (describe : Text) : Text × Text :=
  if dirtySuffix <:+ describe then
    (describe.take (describe.length - dirtySuffix.length), "+dirty".toList)
  else (describe, [])

/-- The three branches: `version` before `dirty` is appended. -/
def versionOf (describe : Text) : Text :=
  match matchCommits describe with
  | some (n, d, h) => n ++ '+' :: (d ++ '.' :: 'g' :: h)
  | none =>
      match matchTag describe with
      | some n => n
      | none   => "0.0.0+git.".toList ++ describe

/-- The derivation: nothing where there is no git information. -/
def deriveVersion (describe : Text) : Option Text :=
  if describe = [] then none
  else some (versionOf (stripDirty describe).1 ++ (stripDirty describe).2)

/-! ### What `git describe` prints -/

/-- The name of a tag.  Of git's rules for it only one matters here. -/
structure TagName where
  name : Text
  nonempty : name ≠ []

/-- An abbreviated hash. -/
structure Hash where
  digits : Text
  nonempty : digits ≠ []
  hex : ∀ c ∈ digits, isHex c = true

/-- What is described: a tag, commits after a tag, or no tag. -/
inductive Described where
  | tag (t : TagName)
  | commits (t : TagName) (distance : Nat) (hash : Hash)
  | bare (hash : Hash)

/-- An output of `git describe --tags --always --dirty`. -/
structure Describe where
  what : Described
  dirty : Bool

def Described.text : Described → Text
  | .tag t              => t.name
  | .commits t n hash   => t.name ++ '-' :: (Nat.toDigits 10 n ++ '-' :: 'g' :: hash.digits)
  | .bare hash          => hash.digits

def Describe.text (d : Describe) : Text := d.what.text ++ if d.dirty then dirtySuffix else []

end TrigEmit
