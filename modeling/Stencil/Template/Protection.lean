import Stencil.Decimal.Integer
import Stencil.Tag.Syntax

/-!
# Protected regions

What stands between `{noparse}` and `{/noparse}` is never looked at. Before everything else, each
such region is replaced by a placeholder and put aside; after everything else, placeholders are
replaced by the regions again. Placeholders stand between two private characters that no tag has
a place for, and they number the regions of a render in the order in which they are found.
-/

namespace Stencil

/-- The regions put aside so far. -/
abbrev ProtectedRegions := List Text

namespace ProtectedRegions

/-- The character in front of a placeholder. -/
def opener : Char := Char.ofNat 0xE000

/-- The character behind a placeholder. -/
def closer : Char := Char.ofNat 0xE001

/-- What stands in the place of a region. -/
def placeholder (index : Nat) : Text :=
  opener :: ("noparse:".toList ++ Decimal.natText index ++ [closer])

/-- Puts the protected regions of a text aside, behind those put aside before. -/
def extract (d : Delimiters) (regions : ProtectedRegions) (s : Text) :
    Text × ProtectedRegions :=
  let tags := Tag.scan d.protectedRegion s
  (s.splice ((tags.zipIdx regions.length).map fun (t, index) =>
      ⟨t.start, t.stop, placeholder index⟩),
    regions ++ tags.map (·.content))

/-- Puts regions back, one after the other. -/
def restore (regions : ProtectedRegions) (s : Text) : Text :=
  regions.zipIdx.foldl (fun s (region, index) => s.replace (placeholder index) region) s

end ProtectedRegions

end Stencil
