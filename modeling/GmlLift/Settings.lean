import GmlLift.Report

/-!
# Settings of a run

The version of the bytecode format and the wanted verbosity. Versions before 2.3 are the legacy
dialect: it flattens two-dimensional array indices, and it swaps operands inside a postfix
increment.
-/

namespace GmlLift

/-- A version of the bytecode format (`FormatVersion`). -/
structure Version where
  major : UInt32 := 0
  minor : UInt32 := 0
  release : UInt32 := 0
  build : UInt32 := 0
  deriving DecidableEq, Repr

namespace Version

/-- Versions are ordered by their parts, from left to right. -/
instance : Ord Version where
  compare a b :=
    (compare a.major b.major).then <| (compare a.minor b.minor).then <|
      (compare a.release b.release).then <| compare a.build b.build

/-- Is this version `major.minor` or later (`is_at_least`)? -/
def isAtLeast (v : Version) (major minor : UInt32) : Bool :=
  major < v.major || (major = v.major && minor ≤ v.minor)

/-- The four parts, divided by points. -/
def text (v : Version) : String :=
  s!"{v.major.toNat}.{v.minor.toNat}.{v.release.toNat}.{v.build.toNat}"

end Version

/-- What a run depends on besides its input (`DecompileContext`). -/
structure Settings where
  version : Version := {}
  verbosity : Option Level := none
  deriving DecidableEq, Repr

namespace Settings

/-- Multi-dimensional arrays came with version 2.3 (`MULTI_DIMENSIONAL_ARRAYS_SINCE`). -/
def isLegacy (cfg : Settings) : Bool :=
  !cfg.version.isAtLeast 2 3

/-- Are two-dimensional indices flattened into one number (`uses_legacy_arrays`)? -/
def flattensIndices (cfg : Settings) : Bool :=
  cfg.isLegacy

/-- May a postfix increment swap its operands between the copy and the addition
(`supports_postfix_swap_window`)? -/
def swapsInIncrement (cfg : Settings) : Bool :=
  cfg.isLegacy

end Settings

end GmlLift
