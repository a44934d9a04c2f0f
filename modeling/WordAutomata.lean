import WordAutomata.Main
import WordAutomata.Tool.FileSystem
import WordAutomata.Pattern.Matching
import WordAutomata.Random.Nfa
import WordAutomata.Random.Pattern
import WordAutomata.Random.Trial
import WordAutomata.StateName
import WordAutomata.Proofs.Discovery
import WordAutomata.Proofs.Paths
import WordAutomata.Proofs.Fragments
import WordAutomata.Proofs.PatternLanguage
import WordAutomata.Proofs.DfaRuns
import WordAutomata.Proofs.SubsetConstruction
import WordAutomata.Proofs.EndlessRuns
import WordAutomata.Proofs.ClosureBound
import WordAutomata.Proofs.TruncatedClosures
import WordAutomata.Proofs.Trails
import WordAutomata.Proofs.PushdownAgreement
import WordAutomata.Proofs.DiscoveredSets
import WordAutomata.Proofs.DeterminizedPaths
import WordAutomata.Proofs.DeterminizedFiles
import WordAutomata.Proofs.RenamedStates
import WordAutomata.Proofs.CanonicalFiles
import WordAutomata.Proofs.Verdicts
import WordAutomata.Proofs.Layouts
import WordAutomata.Proofs.PushdownCourses
import WordAutomata.Proofs.RestingRuns
import WordAutomata.Proofs.IdleStacks
import WordAutomata.Proofs.SingleStates
import WordAutomata.Proofs.PatternAutomata
import WordAutomata.Proofs.PrintedPatterns
import WordAutomata.Proofs.ReportedSizes
import WordAutomata.Proofs.NumberedStates
import WordAutomata.Proofs.ShownWords
import WordAutomata.Proofs.ByteOffsets
import WordAutomata.Proofs.UniqueTrails
import WordAutomata.Proofs.SharedPlaces
import WordAutomata.Proofs.FreeClosures
import WordAutomata.Proofs.ConsecutiveStates
import WordAutomata.Proofs.SetHistories
import WordAutomata.Proofs.RuleScans
import WordAutomata.Proofs.ExchangedStacks
import WordAutomata.Proofs.ComparedStacks
