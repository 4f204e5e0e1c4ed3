import YamlPatch.Main
import YamlPatch.Tool.Disk
import YamlPatch.Proofs.RoundTrip
import YamlPatch.Proofs.Bumps
import YamlPatch.Proofs.Refusals
import YamlPatch.Proofs.Flaws
import YamlPatch.Proofs.Indentation
import YamlPatch.Proofs.Projects
import YamlPatch.Proofs.LineEndings
import YamlPatch.Proofs.Settled
import YamlPatch.Proofs.Positions
import YamlPatch.Proofs.Markers
import YamlPatch.Proofs.BlockScalars
import YamlPatch.Proofs.SequenceWrites
import YamlPatch.Proofs.Nulls
import YamlPatch.Proofs.PlainScalars
import YamlPatch.Proofs.Chomping
import YamlPatch.Proofs.Escapes
import YamlPatch.Proofs.Lockstep
import YamlPatch.Proofs.NumberedEscapes
import YamlPatch.Proofs.Branches
import YamlPatch.Proofs.Headers
import YamlPatch.Proofs.Delimiters
import YamlPatch.Proofs.Mappings
