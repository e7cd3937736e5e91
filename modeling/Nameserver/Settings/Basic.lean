import Nameserver.Address
import Nameserver.Log
import Nameserver.Name.Text
import Nameserver.Settings.Document
/-!
# Settings of the server

The settings say where to listen, which zone file to serve and how to read it.
-/

namespace Nameserver

structure Settings where
  bind : SocketAddress
  zone : String
  strictNames : Bool
  printRecords : Bool
  deriving DecidableEq, Repr

namespace Settings

def defaultIp : IpAddress := .v6 #v[0, 0, 0, 0, 0, 0, 0, 1]

def defaultPort : UInt16 := 53

def strictness (s : Settings) : Name.Strictness :=
  if s.strictNames then .trailingDot else .relaxed

/-- What is reported of settings once they are known. -/
def entry (s : Settings) : LogEntry :=
  ⟨.debug, "Configuration loaded:\nBind address:   " ++ s.bind.text ++
    "\nZone file:      " ++ s.zone ++
    "\nStrict FQDNs:   " ++ toString s.strictNames ++
    "\nPrint records:  " ++ toString s.printRecords⟩

/-! ## From a settings file -/

/-- Why a settings file gives no settings. -/
inductive FileError where
  | unreadable
  | malformed
  deriving DecidableEq, Repr

def FileError.message : FileError → String
  | unreadable => "failed to read the configuration file"
  | malformed => "failed to parse the configuration file"

/-- What a settings file has said so far. -/
structure Fields where
  bind : Option SocketAddress := none
  zone : Option String := none
  strictNames : Option Bool := none
  printRecords : Option Bool := none

/-- Adds an entry.  Each key is known, comes once and has a value of its kind. -/
def Fields.add (fields : Fields) : String × Value → Option Fields
  | ("bind", .string text) =>
    if fields.bind.isSome then none
    else (SocketAddress.ofString? text).map fun bind => { fields with bind := some bind }
  | ("zone", .string text) =>
    if fields.zone.isSome then none else some { fields with zone := some text }
  | ("strict_fqdn", .boolean value) =>
    if fields.strictNames.isSome then none else some { fields with strictNames := some value }
  | ("print_records", .boolean value) =>
    if fields.printRecords.isSome then none else some { fields with printRecords := some value }
  | _ => none

/-- The settings in the text of a settings file. -/
def ofDocument? (text : String) : Option Settings := do
  let entries ← Document.read? text
  let fields ← entries.foldlM Fields.add {}
  let zone ← fields.zone
  return {
    bind := fields.bind.getD { ip := defaultIp, port := defaultPort }
    zone
    strictNames := fields.strictNames.getD true
    printRecords := fields.printRecords.getD false }

/-! ## Paths -/

def isAbsolute (path : String) : Bool := path.toList.head? == some '/'

/-- The zone file of settings that stand in a file: a relative path is taken from the directory of
that file. -/
def zoneBeside (settingsFile : String) (s : Settings) : String :=
  if isAbsolute s.zone then s.zone
  else "/".intercalate ((settingsFile.splitOn "/").dropLast ++ [s.zone])

/-- The path without the parts at its front that name the directory it is taken from: empty parts
and single dots. -/
def dropCurrent : List String → List String
  | [] => []
  | part :: parts => if part == "" || part == "." then dropCurrent parts else part :: parts

/-- A relative path as it stands below the directory of the settings file. -/
def belowDirectory (path : String) : String :=
  "/".intercalate (dropCurrent (dropCurrent (path.splitOn "/")).reverse).reverse

end Settings

end Nameserver
