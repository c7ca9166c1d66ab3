import ScriptTree.Command.FileTree
import ScriptTree.Json.Named
import ScriptTree.Main
import ScriptTree.Proofs.Category
import ScriptTree.Proofs.Comments
import ScriptTree.Proofs.Depth
import ScriptTree.Proofs.Erasure
import ScriptTree.Proofs.Escapes
import ScriptTree.Proofs.Fallback
import ScriptTree.Proofs.Growth
import ScriptTree.Proofs.Lossless
import ScriptTree.Proofs.Nesting
import ScriptTree.Proofs.Output
import ScriptTree.Proofs.Place
import ScriptTree.Proofs.Positions
import ScriptTree.Proofs.Precedence
import ScriptTree.Proofs.Roles
import ScriptTree.Proofs.Schema
import ScriptTree.Proofs.Session
import ScriptTree.Proofs.Shapes
import ScriptTree.Proofs.Sniff
import ScriptTree.Proofs.Spelling
import ScriptTree.Proofs.Text.Lossy
import ScriptTree.Proofs.UnitOffsets
import ScriptTree.Proofs.Walk
import ScriptTree.Proofs.Source
import ScriptTree.Proofs.Modifiers
import ScriptTree.Proofs.Malformed
import ScriptTree.Proofs.Command.Line
import ScriptTree.Proofs.Command.Order
import ScriptTree.Proofs.Classification
import ScriptTree.Proofs.Bytewise
