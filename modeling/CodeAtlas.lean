import CodeAtlas.Duration.Units
import CodeAtlas.Inspect
import CodeAtlas.Main
import CodeAtlas.Naming
import CodeAtlas.Scan.KnownModules
import CodeAtlas.Value.Reader
import CodeAtlas.Proofs.ScannedFiles
import CodeAtlas.Proofs.Isolation
import CodeAtlas.Proofs.FileOrder
import CodeAtlas.Proofs.SourceSpelling
import CodeAtlas.Proofs.Loading
import CodeAtlas.Proofs.Superclasses
import CodeAtlas.Proofs.SeparateClasses
import CodeAtlas.Proofs.LinkedImports
import CodeAtlas.Proofs.ScriptModules
import CodeAtlas.Proofs.Siblings
import CodeAtlas.Proofs.DirectoryNames
import CodeAtlas.Proofs.IgnoredImports
import CodeAtlas.Proofs.OnePass
import CodeAtlas.Proofs.QuotedBlocks
import CodeAtlas.Proofs.NodeLabels
import CodeAtlas.Proofs.RecordedPaths
import CodeAtlas.Proofs.CommunityNumbers
import CodeAtlas.Proofs.Indents
import CodeAtlas.Proofs.TermTags
import CodeAtlas.Proofs.MethodNames
import CodeAtlas.Proofs.SummaryTables
import CodeAtlas.Proofs.Clusters
