import Nameserver.Main
import Nameserver.Message.Text
import Nameserver.Stub
import Nameserver.Proofs.Label.Order
import Nameserver.Proofs.Zone.Tree
import Nameserver.Proofs.Zone.Lookup
import Nameserver.Proofs.Zone.Answer
import Nameserver.Proofs.Name.Wire
import Nameserver.Proofs.Name.Pointers
import Nameserver.Proofs.Record.Layout
import Nameserver.Proofs.Record.Wire
import Nameserver.Proofs.Message.Encoding
import Nameserver.Proofs.Message.Spelling
import Nameserver.Proofs.Message.RoundTrip
import Nameserver.Proofs.Message.Decoded
import Nameserver.Proofs.Message.Trailing
import Nameserver.Proofs.Message.Relay
import Nameserver.Proofs.Responder.Decision
import Nameserver.Proofs.Message.Front
import Nameserver.Proofs.Responder.Trailing
import Nameserver.Proofs.Name.Text
import Nameserver.Proofs.Record.Data
import Nameserver.Proofs.Record.Text
import Nameserver.Proofs.Zone.Traversal
import Nameserver.Proofs.Zone.Agreement
import Nameserver.Proofs.Zone.Dump
import Nameserver.Proofs.Zone.Run
import Nameserver.Proofs.Responder.Answers
import Nameserver.Proofs.Stub.Agreement
import Nameserver.Proofs.Checked.Octets
import Nameserver.Proofs.Checked.Name
import Nameserver.Proofs.Checked.Message
import Nameserver.Proofs.Name.Construction
import Nameserver.Proofs.Message.Text
import Nameserver.Proofs.Zone.Order
import Nameserver.Proofs.Zone.Sorted
import Nameserver.Proofs.Zone.Unordered
import Nameserver.Proofs.Responder.QuestionClass
import Nameserver.Proofs.Record.Expansion
import Nameserver.Proofs.Name.Grammar
import Nameserver.Proofs.Zone.Strictness
import Nameserver.Proofs.Record.Fields
import Nameserver.Proofs.InPlace.Message
import Nameserver.Proofs.Name.Uncompressed
import Nameserver.Proofs.Zone.Lines
import Nameserver.Proofs.Record.Vocabulary
import Nameserver.Proofs.InPlace.Fields
import Nameserver.Proofs.Name.Comparison
import Nameserver.Proofs.Zone.Keys
