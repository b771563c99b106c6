import Crossing.Text.Utf8

/-!
# Names of the system

The system takes any bytes for the name of a file, but for a slash and a zero byte. What is written
in the program or on a command line is UTF-8; what is found on a disk need not be. A name that is
not is shown with replacement characters, so that different names can be shown alike.
-/

namespace Crossing

open Text

/-- A text of the system: bytes, which need not be UTF-8. -/
@[ext]
structure OsText where
  bytes : List UInt8
deriving DecidableEq, Inhabited

namespace OsText

/-- The bytes of a text. -/
def ofString (s : String) : OsText :=
  ⟨Utf8.encode s.toList⟩

instance : Coe String OsText :=
  ⟨ofString⟩

/-- The text that is shown for the bytes, with a replacement character for what is not UTF-8. -/
def shown (t : OsText) : String :=
  .ofList (Utf8.decodeLossy t.bytes)

end OsText

end Crossing
