import GioForge.Diagnostic
import GioForge.Value

/-!
Writing findings as data. A finding without a place says so.
-/

namespace GioForge

def Diagnostic.encode (d : Diagnostic) : Value :=
  .object [("severity", .text d.severity.word), ("phase", .text d.phase),
    ("message", .text d.message), ("location", (d.location.map Value.text).getD .null)]

end GioForge
