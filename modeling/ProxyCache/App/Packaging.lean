import ProxyCache.Python.Text
import Mathlib.Data.List.DropRight
import Mathlib.Data.List.Lex
import Mathlib.Order.Defs.LinearOrder

/-!
# Names and versions of wheels (`packaging`)

The library is a parameter. What the code relies on is the order on versions, and which of
its exceptions are an `InvalidWheelFilename` or an `InvalidVersion`: a number that is too long
for `int` is neither.
-/

namespace ProxyCache.App

open ProxyCache.Python

/-- What `packaging` raises: an `InvalidWheelFilename` or `InvalidVersion`, or the
`ValueError` of a number that is too long. -/
inductive PackagingError where
  | invalid
  | valueError
  deriving DecidableEq

/-- What the code calls of `packaging`. -/
structure Packaging where
  Version : Type
  order : LinearOrder Version
  canonicalizeName : Str → Str
  /-- `parse_wheel_filename`: the distribution and the version. -/
  parseWheelFilename : Str → Except PackagingError (Str × Version)
  /-- `Version(...)`. -/
  version : Str → Except PackagingError Version

instance (P : Packaging) : LinearOrder P.Version := P.order

/-! ## Plain releases -/

/-- Runs of `-`, `_` and `.` become one hyphen. -/
def collapseSeparators : Str → Str
  | [] => []
  | c :: rest =>
    if c = '-' ∨ c = '_' ∨ c = '.' then
      match collapseSeparators rest with
      | '-' :: rest' => '-' :: rest'
      | rest' => '-' :: rest'
    else c :: collapseSeparators rest

/-- A release: numbers with dots in between. Zeros at its end do not count. -/
def releaseOf (text : Str) : Except PackagingError (List ℕ) :=
  let parts := text.splitOn '.'
  if parts.all fun part => part != [] && part.all Char.isDigit then
    match parts.mapM intOfDigits with
    | some numbers => .ok (numbers.rdropWhile (· == 0))
    | none => .error .valueError
  else .error .invalid

/-- A wheel filename with a release and three tags. -/
def parseReleaseName (filename : Str) : Except PackagingError (Str × List ℕ) :=
  match filename.splitOn '-' with
  | [distribution, release, _, _, platform] =>
    if (".whl" : Str).isSuffixOf platform then do
      return ((collapseSeparators distribution).map Char.toLower, ← releaseOf release)
    else .error .invalid
  | _ => .error .invalid

/-- `packaging` on ASCII names and on releases without further parts. -/
def plainReleases : Packaging where
  Version := List ℕ
  order := inferInstance
  canonicalizeName name := (collapseSeparators name).map Char.toLower
  parseWheelFilename := parseReleaseName
  version := releaseOf

example : plainReleases.parseWheelFilename ("one-1.0-py3-none-any.whl" : Str) =
    .ok (("one" : Str), [1]) := by decide

end ProxyCache.App
