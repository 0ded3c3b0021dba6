import Mathlib

/-!
The negation of a finite floating-point number is finite.
-/

namespace Quarry.Numeral

open Float.Model (Format)
open Float.Model.UnpackedFloat

end Quarry.Numeral
