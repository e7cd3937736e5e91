import Nameserver.Text.Basic
/-!
# Columns of printed text

Printed records stand in columns.  At least one space separates two columns.
-/

namespace Nameserver.Text

/-- The text with spaces after it up to `width` octets, and at least one. -/
def padToWidth (width : Nat) (t : Text) : Text :=
  t ++ List.replicate (max 1 (width - t.length)) space

/-- The text with spaces after it up to the next tab stop; tab stops are eight octets apart. -/
def padToTabStop (t : Text) : Text :=
  t ++ List.replicate (8 - t.length % 8) space

/-- The columns one after another, each but the last filled up to a tab stop. -/
def joinAtTabStops : Text → List Text → Text
  | t, [] => t
  | t, column :: columns => joinAtTabStops (padToTabStop t ++ column) columns

end Nameserver.Text
