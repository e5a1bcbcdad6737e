/-!
# Texts as they are shown

A NUL character ends a text where it is shown. Names of fields may hold one, and so may the error
texts that quote them.
-/

namespace ByteRecord

/-- A text as it is shown: up to its first NUL character. -/
def shown (s : String) : String := String.ofList (s.toList.takeWhile (· != '\x00'))

end ByteRecord
