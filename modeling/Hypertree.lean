import Hypertree.Main
import Hypertree.Pool
import Hypertree.Engine.SingleTree
import Hypertree.OneTime.Walking
import Hypertree.Proofs.OneTime.Chain
import Hypertree.Proofs.OneTime.LTree
import Hypertree.Proofs.Params
import Hypertree.Proofs.Merkle.Eviction
import Hypertree.Proofs.Key.Canonical
import Hypertree.Proofs.Key.Respaced
import Hypertree.Proofs.Signature.Canonical
import Hypertree.Proofs.Command.History
import Hypertree.Proofs.Custody
import Hypertree.Proofs.Binding
import Hypertree.Proofs.Domains
import Hypertree.Proofs.Key.Tampering
import Hypertree.Proofs.Merkle.Cleaning
import Hypertree.Proofs.Session.Cleaning
import Hypertree.Proofs.Command.Delivery
import Hypertree.Proofs.Merkle.Agreement
import Hypertree.Proofs.Checked.Backup
import Hypertree.Proofs.Checked.Verify
import Hypertree.Proofs.Engine.Encoded
import Hypertree.Proofs.OneTime.Levels
import Hypertree.Proofs.Merkle.Complete
import Hypertree.Proofs.Position.Cached
import Hypertree.Proofs.Session.TopTree
import Hypertree.Proofs.Merkle.Interleaving
import Hypertree.Proofs.Engine.Shape
import Hypertree.Proofs.Engine.SingleTree
import Hypertree.Proofs.Pool
import Hypertree.Proofs.Text.Base64
import Hypertree.Proofs.Text.Format
import Hypertree.Proofs.Key.Variants
import Hypertree.Proofs.Command.Precedence
import Hypertree.Proofs.Bytes.Buffer
import Hypertree.Proofs.OneTime.Bits
import Hypertree.Proofs.Bytes.Varint
import Hypertree.Proofs.Engine.Radix
import Hypertree.Proofs.OneTime.Walking
