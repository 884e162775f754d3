import ArtifactHarvest.Main
import ArtifactHarvest.Proofs.Artifact.Answering
import ArtifactHarvest.Proofs.Artifact.Keeping
import ArtifactHarvest.Proofs.Artifact.Record
import ArtifactHarvest.Proofs.Checksum.Outcome
import ArtifactHarvest.Proofs.Collection.Cancelling
import ArtifactHarvest.Proofs.Collection.Composition
import ArtifactHarvest.Proofs.Collection.Counting
import ArtifactHarvest.Proofs.Collection.Describing
import ArtifactHarvest.Proofs.Collection.Failing
import ArtifactHarvest.Proofs.Collection.Forms
import ArtifactHarvest.Proofs.Collection.Moving
import ArtifactHarvest.Proofs.Collection.Reading
import ArtifactHarvest.Proofs.Collection.Reporting
import ArtifactHarvest.Proofs.Collection.Stages
import ArtifactHarvest.Proofs.Collection.Touring
import ArtifactHarvest.Proofs.CommandLine.Running
import ArtifactHarvest.Proofs.Digest.Standard
import ArtifactHarvest.Proofs.Digest.Streaming
import ArtifactHarvest.Proofs.Expansion.Climbing
import ArtifactHarvest.Proofs.Expansion.Depth
import ArtifactHarvest.Proofs.Expansion.Folding
import ArtifactHarvest.Proofs.Expansion.Links
import ArtifactHarvest.Proofs.Expansion.Meaning
import ArtifactHarvest.Proofs.Expansion.Narrowing
import ArtifactHarvest.Proofs.Expansion.Ordering
import ArtifactHarvest.Proofs.Expansion.Outset
import ArtifactHarvest.Proofs.Expansion.Policies
import ArtifactHarvest.Proofs.Expansion.Respelling
import ArtifactHarvest.Proofs.Expansion.Returning
import ArtifactHarvest.Proofs.Expansion.Spellings
import ArtifactHarvest.Proofs.Expansion.Trails
import ArtifactHarvest.Proofs.Expansion.Walking
import ArtifactHarvest.Proofs.Expansion.Wildcards
import ArtifactHarvest.Proofs.Experiments.Deciding
import ArtifactHarvest.Proofs.FileSystem.Direct
import ArtifactHarvest.Proofs.FileSystem.Moving
import ArtifactHarvest.Proofs.FileSystem.Resolution
import ArtifactHarvest.Proofs.FileSystem.Spelling
import ArtifactHarvest.Proofs.Glob.Reading
import ArtifactHarvest.Proofs.Options.Rendering
import ArtifactHarvest.Proofs.Path.Clean
import ArtifactHarvest.Proofs.Path.Logical
import ArtifactHarvest.Proofs.Path.Normal
import ArtifactHarvest.Proofs.Path.Returning
import ArtifactHarvest.Proofs.Path.Separators
import ArtifactHarvest.Proofs.Path.Steps
import ArtifactHarvest.Proofs.Path.Writing
import ArtifactHarvest.Proofs.Pattern.Climbing
import ArtifactHarvest.Proofs.Pattern.Coverage
import ArtifactHarvest.Proofs.Pattern.Declaring
import ArtifactHarvest.Proofs.Pattern.Language
import ArtifactHarvest.Proofs.Pattern.Splitting
import ArtifactHarvest.Proofs.Summary.Totals
import ArtifactHarvest.Proofs.Text.Encoding
