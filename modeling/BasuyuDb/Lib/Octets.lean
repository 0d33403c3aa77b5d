import Mathlib

/-
  Byte strings. Their instances have names here, so that a definition refers to the same one in every module.
-/

namespace KvLib

abbrev Octets := List (Fin 256)

instance neZeroOctet : NeZero 256 := ⟨by decide⟩

instance lawfulOctet : LawfulBEq (Fin 256) := inferInstance

instance lawfulOctets : LawfulBEq Octets := inferInstance

end KvLib
