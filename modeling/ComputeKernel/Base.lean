import Mathlib.Data.List.Basic

/-! The two sequence types of the simulator: text and byte strings. -/

namespace ComputeKernel

/-- Text as its sequence of code points. -/
abbrev Str := List Char

abbrev Bytes := List UInt8

end ComputeKernel
