import Nameserver.Message.Basic
import Nameserver.Record.Text
/-!
# The text of a message

A printed message has two lines for the header and, for each section that is not empty, an empty
line, a title and a line for each entry.
-/

namespace Nameserver.Message

/-- The names of the flags that are set, with a space before each. -/
def flagNames (m : Message) : Text :=
  [(m.isResponse, " qr"), (m.authoritative, " aa"), (m.truncated, " tc"),
      (m.recursionDesired, " rd"), (m.recursionAvailable, " ra")].flatMap
    fun (isSet, flagName) => if isSet then Text.ofString flagName else []

def headerLines (m : Message) : List Text :=
  [Text.ofString ";; ->>HEADER<<- opcode: " ++ m.opcode.text ++ Text.ofString ", status: " ++
      m.code.text ++ Text.ofString ", id: " ++ Text.decimal m.id.toNat,
    Text.ofString ";; flags:" ++ m.flagNames ++
      Text.ofString "; QUERY: " ++ Text.decimal m.questions.length ++
      Text.ofString ", ANSWER: " ++ Text.decimal m.answers.length ++
      Text.ofString ", AUTHORITY: " ++ Text.decimal m.authorities.length ++
      Text.ofString ", ADDITIONAL: " ++ Text.decimal m.additionals.length]

def sectionLines (title : String) (entries : List Text) : List Text :=
  if entries.isEmpty then []
  else [] :: (Text.ofString ";; " ++ Text.ofString title ++ Text.ofString " SECTION:") :: entries

def lines (m : Message) : List Text :=
  m.headerLines ++
    sectionLines "QUESTION" (m.questions.map fun q => Text.semicolon :: q.text) ++
    sectionLines "ANSWER" (m.answers.map Record.display) ++
    sectionLines "AUTHORITY" (m.authorities.map Record.display) ++
    sectionLines "ADDITIONAL" (m.additionals.map Record.display)

def text (m : Message) : Text := m.lines.flatMap (· ++ [Text.lineFeed])

end Nameserver.Message
