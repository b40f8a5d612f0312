import SpeechMarkup.Position
import SpeechMarkup.Binary64
import SpeechMarkup.Binary64.Decimal
import SpeechMarkup.Token
import SpeechMarkup.Token.Scan
import SpeechMarkup.Inventory
import SpeechMarkup.VoiceSettings
import SpeechMarkup.Node
import SpeechMarkup.Node.Parse
import SpeechMarkup.Command
import SpeechMarkup.Command.Rules
import SpeechMarkup.Instruction
import SpeechMarkup.Path
import SpeechMarkup.Files
import SpeechMarkup.Store
import SpeechMarkup.Diagnostic
import SpeechMarkup.Expansion
import SpeechMarkup.Compile
import SpeechMarkup.Processor
import SpeechMarkup.Disk
import SpeechMarkup.Target
import SpeechMarkup.Yaml
import SpeechMarkup.Yaml.Glyph
import SpeechMarkup.Yaml.Scalar
import SpeechMarkup.Yaml.Property
import SpeechMarkup.Yaml.Token
import SpeechMarkup.Yaml.Parse
import SpeechMarkup.Settings
import SpeechMarkup.Arguments
import SpeechMarkup.CommandLine
import SpeechMarkup.Main
import SpeechMarkup.Proofs.Rounding
import SpeechMarkup.Proofs.DecimalText
import SpeechMarkup.Proofs.Lexemes
import SpeechMarkup.Proofs.ReadNodes
import SpeechMarkup.Proofs.Rendering
import SpeechMarkup.Proofs.Reparse
import SpeechMarkup.Proofs.RoundTrip
import SpeechMarkup.Proofs.Steps
import SpeechMarkup.Proofs.Groups
import SpeechMarkup.Proofs.Lengths
import SpeechMarkup.Proofs.Paths
import SpeechMarkup.Proofs.Emission
import SpeechMarkup.Proofs.Nesting
import SpeechMarkup.Proofs.ImportChain
import SpeechMarkup.Proofs.Chunks
import SpeechMarkup.Proofs.Definitions
import SpeechMarkup.Proofs.Grammar
import SpeechMarkup.Proofs.ReadParts
import SpeechMarkup.Proofs.Derivations
import SpeechMarkup.Proofs.Blame
import SpeechMarkup.Proofs.Layout
import SpeechMarkup.Proofs.Scanning
import SpeechMarkup.Proofs.Unbounded
import SpeechMarkup.Proofs.Correspondence
import SpeechMarkup.Proofs.InPlace
import SpeechMarkup.Proofs.Splicing
import SpeechMarkup.Proofs.Places
import SpeechMarkup.Proofs.Concatenation
import SpeechMarkup.Proofs.Spacing
import SpeechMarkup.Proofs.Additions
import SpeechMarkup.Proofs.Unplaced
import SpeechMarkup.Proofs.Context
import SpeechMarkup.Proofs.Nearest
import SpeechMarkup.Proofs.Tempo
import SpeechMarkup.Proofs.Finding
import SpeechMarkup.Proofs.Resolution
import SpeechMarkup.Proofs.Writing
import SpeechMarkup.Proofs.Targets
import SpeechMarkup.Proofs.Outputs
import SpeechMarkup.Proofs.Unrolling
import SpeechMarkup.Proofs.SoundTiming
import SpeechMarkup.Proofs.Inspection
import SpeechMarkup.Proofs.RuleTable
import SpeechMarkup.Proofs.Origins
import SpeechMarkup.Proofs.RuleGuard
import SpeechMarkup.Proofs.Placement
import SpeechMarkup.Proofs.Provenance
import SpeechMarkup.Proofs.VoiceSelection
import SpeechMarkup.Proofs.DefinitionOrder
import SpeechMarkup.Proofs.Resumption
import SpeechMarkup.Proofs.Spelling
