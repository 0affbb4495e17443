import GetterRename.Main
import GetterRename.Proofs.Getter.Definition
import GetterRename.Proofs.Getter.Expression
import GetterRename.Proofs.Getter.Session
import GetterRename.Proofs.Patch.Account
import GetterRename.Proofs.Patch.Tokens
import GetterRename.Proofs.Run.Pointwise
import GetterRename.Proofs.Source.Brackets
import GetterRename.Proofs.Source.Tiling
import GetterRename.Proofs.Getter.Conservative
import GetterRename.Proofs.Getter.Shape
import GetterRename.Proofs.Patch.Alias
import GetterRename.Proofs.Getter.Collision
import GetterRename.Proofs.Getter.Snippet
import GetterRename.Proofs.Getter.DocRuns
import GetterRename.Proofs.Run.Output
import GetterRename.Proofs.Naming.BoolName
import GetterRename.Proofs.Naming.Clash
import GetterRename.Proofs.Naming.Usable
import GetterRename.Proofs.Source.Number
import GetterRename.Proofs.Getter.CallRecall
import GetterRename.Proofs.Getter.TrailingComma
import GetterRename.Proofs.Bounds.Engine
import GetterRename.Proofs.Run.Replica
import GetterRename.Proofs.Patch.Occurrence
import GetterRename.Proofs.Source.Segment
