import BrightCoverage.Grammar.Shape
import BrightCoverage.Main
import BrightCoverage.Proofs.TreePositions
import BrightCoverage.Proofs.Grouping
import BrightCoverage.Proofs.ReadingBack
import BrightCoverage.Proofs.RoundTrip
import BrightCoverage.Proofs.SessionHistory
import BrightCoverage.Proofs.Passes
import BrightCoverage.Proofs.Resemblance
import BrightCoverage.Proofs.Weaving
import BrightCoverage.Proofs.InstrumentedTrees
import BrightCoverage.Proofs.EmittedMaps
import BrightCoverage.Proofs.FileTrees
import BrightCoverage.Proofs.RunEffects
import BrightCoverage.Proofs.RunOutcomes
import BrightCoverage.Proofs.DryRuns
import BrightCoverage.Proofs.CaseFolding
import BrightCoverage.Proofs.LineEndings
import BrightCoverage.Proofs.Munching
import BrightCoverage.Proofs.LineLocality
import BrightCoverage.Proofs.LineOwners
import BrightCoverage.Proofs.InstrumentedLines
import BrightCoverage.Proofs.DirectiveSpellings
import BrightCoverage.Proofs.ErrorLists
import BrightCoverage.Proofs.KeywordPairs
import BrightCoverage.Proofs.StringLiterals
import BrightCoverage.Proofs.Placeholders
import BrightCoverage.Proofs.Discoveries
import BrightCoverage.Proofs.Writings
import BrightCoverage.Proofs.Footers
import BrightCoverage.Proofs.Completeness
import BrightCoverage.Proofs.Components
import BrightCoverage.Proofs.Tiling
import BrightCoverage.Proofs.PhysicalLines
import BrightCoverage.Proofs.IntegerLiterals
import BrightCoverage.Proofs.Totality
import BrightCoverage.Proofs.RecoveredTrees
