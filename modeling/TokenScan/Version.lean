/-
Module: TokenScan.Version
Purpose: The version of the library, which the host engine shows beside its own.
Main exports: version
-/

namespace TokenScan

/-- The version of the library. -/
def version : String := "0.4.0"

end TokenScan
