import Phrasebook.Cancellation
import Phrasebook.Catalogue
import Phrasebook.Collector
import Phrasebook.Compile
import Phrasebook.Compile.Log
import Phrasebook.Contents
import Phrasebook.Csv
import Phrasebook.Csv.Spelling
import Phrasebook.Decimal.Binary64
import Phrasebook.Decimal.Shortest
import Phrasebook.Diagnostic
import Phrasebook.Dict
import Phrasebook.Error
import Phrasebook.Event
import Phrasebook.FileTree
import Phrasebook.FileTree.Walk
import Phrasebook.Identifier
import Phrasebook.Identifier.FieldNames
import Phrasebook.Json.Fault
import Phrasebook.Json.Literal
import Phrasebook.Json.Number
import Phrasebook.Json.Printer
import Phrasebook.Json.Reader
import Phrasebook.Json.Spelling
import Phrasebook.Json.Tree
import Phrasebook.Json.Value
import Phrasebook.Language.Choice
import Phrasebook.Language.Tag
import Phrasebook.Merge
import Phrasebook.ModuleIndex
import Phrasebook.Options
import Phrasebook.Options.Document
import Phrasebook.OutputDir
import Phrasebook.Path
import Phrasebook.Placement
import Phrasebook.ReadFile
import Phrasebook.Resource
import Phrasebook.Session
import Phrasebook.SourceUnit
import Phrasebook.SourceUnit.Reader
import Phrasebook.Table
import Phrasebook.Template
import Phrasebook.Text.Blank
import Phrasebook.Text.Encoding
import Phrasebook.Text.Hidden
import Phrasebook.Text.Quoted
import Phrasebook.Text.Utf8
import Phrasebook.TextFile
import Phrasebook.Toml.Fault
import Phrasebook.Toml.Node
import Phrasebook.Toml.Reader
import Phrasebook.Toml.Scalar
import Phrasebook.Proofs.Choice
import Phrasebook.Proofs.Contents
import Phrasebook.Proofs.Dict
import Phrasebook.Proofs.Merge
import Phrasebook.Proofs.Catalogue
import Phrasebook.Proofs.FileName
import Phrasebook.Proofs.Filing
import Phrasebook.Proofs.Items
import Phrasebook.Proofs.Lines
import Phrasebook.Proofs.Lookup
import Phrasebook.Proofs.Path
import Phrasebook.Proofs.SourceRoot
import Phrasebook.Proofs.Success
import Phrasebook.Proofs.Transcript
import Phrasebook.Proofs.Reordering
import Phrasebook.Proofs.Isolation
import Phrasebook.Proofs.Stopping
import Phrasebook.Proofs.TableFiles
import Phrasebook.Proofs.Partition
import Phrasebook.Proofs.Recovery
import Phrasebook.Proofs.Session
import Phrasebook.Proofs.OutputNames
import Phrasebook.Proofs.Relocation
import Phrasebook.Proofs.Substitution
import Phrasebook.Proofs.RecordLines
import Phrasebook.Proofs.Requests
import Phrasebook.Proofs.Conflicts
import Phrasebook.Proofs.Literal
import Phrasebook.Proofs.Marks
import Phrasebook.Proofs.Tree
import Phrasebook.Proofs.Repetition
import Phrasebook.Proofs.Tolerance
import Phrasebook.Proofs.Rounding
import Phrasebook.Proofs.Shortest
import Phrasebook.Proofs.Decimals
import Phrasebook.Proofs.Parts
import Phrasebook.Proofs.NormalForm
import Phrasebook.Proofs.Numbers
import Phrasebook.Proofs.FieldNames
import Phrasebook.Proofs.Rejection
import Phrasebook.Proofs.Naming
import Phrasebook.Proofs.Containment
import Phrasebook.Proofs.Header
import Phrasebook.Proofs.Encoding
import Phrasebook.Proofs.Choosing
import Phrasebook.Proofs.ModuleIndex
import Phrasebook.Proofs.Sanitizing
import Phrasebook.Proofs.Template
import Phrasebook.Proofs.Shadowing
