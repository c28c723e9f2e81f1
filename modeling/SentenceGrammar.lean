import SentenceGrammar.Main
import SentenceGrammar.Recipe.Session
import SentenceGrammar.Proofs.Places
import SentenceGrammar.Proofs.Words
import SentenceGrammar.Proofs.Derivation
import SentenceGrammar.Proofs.Enumeration
import SentenceGrammar.Proofs.FirstPerPlace
import SentenceGrammar.Proofs.LeftRecursion
import SentenceGrammar.Proofs.Refinement
import SentenceGrammar.Proofs.Replay
import SentenceGrammar.Proofs.ScriptAcceptance
import SentenceGrammar.Proofs.SentenceOrder
import SentenceGrammar.Proofs.Guards
import SentenceGrammar.Proofs.Termination
import SentenceGrammar.Proofs.LongerText
import SentenceGrammar.Proofs.Beginnings
import SentenceGrammar.Proofs.ScriptBeginnings
import SentenceGrammar.Proofs.CutOffs
import SentenceGrammar.Proofs.ScriptCutOffs
import SentenceGrammar.Proofs.Fronts
import SentenceGrammar.Proofs.Attempts
import SentenceGrammar.Proofs.AttemptSearch
import SentenceGrammar.Proofs.CutLeaves
import SentenceGrammar.Proofs.ScriptAttempts
import SentenceGrammar.Proofs.ScriptFronts
import SentenceGrammar.Proofs.CompletedBeginnings
import SentenceGrammar.Proofs.Substance
import SentenceGrammar.Proofs.EndedScans
import SentenceGrammar.Proofs.FurthestAttempts
import SentenceGrammar.Proofs.EndedAttempts
import SentenceGrammar.Proofs.FailurePosition
import SentenceGrammar.Proofs.Layout
import SentenceGrammar.Proofs.UnfinishedTrees
import SentenceGrammar.Proofs.ByteScans
import SentenceGrammar.Proofs.Checks
import SentenceGrammar.Proofs.SoundChecks
import SentenceGrammar.Proofs.Offers
import SentenceGrammar.Proofs.LeadingBlanks
import SentenceGrammar.Proofs.ContinuedAttempts
import SentenceGrammar.Proofs.NumberScans
import SentenceGrammar.Proofs.AcceptedLiterals
import SentenceGrammar.Proofs.NotedExpectations
import SentenceGrammar.Proofs.GenuineExpectations
import SentenceGrammar.Proofs.RegistryContents
import SentenceGrammar.Proofs.SharedNodes
import SentenceGrammar.Proofs.EvaluationRules
import SentenceGrammar.Proofs.SteadyEvaluation
import SentenceGrammar.Proofs.WatchedEvaluation
import SentenceGrammar.Proofs.Variables
import SentenceGrammar.Proofs.MemoizedEvaluation
import SentenceGrammar.Proofs.SessionInvariants
import SentenceGrammar.Proofs.Transactions
import SentenceGrammar.Proofs.PatternWords
import SentenceGrammar.Proofs.PlaceholderGrammar
import SentenceGrammar.Proofs.PatternGrammar
import SentenceGrammar.Proofs.PatternSpans
import SentenceGrammar.Proofs.ClassBodies
import SentenceGrammar.Proofs.PatternRendering
import SentenceGrammar.Proofs.ReadParts
import SentenceGrammar.Proofs.NumeralValues
import SentenceGrammar.Proofs.NumberNodes
import SentenceGrammar.Proofs.PreprocessErrors
import SentenceGrammar.Proofs.SingleSentences
import SentenceGrammar.Proofs.PhysicalUnits
import SentenceGrammar.Proofs.DeferringCompleters
import SentenceGrammar.Proofs.SuggestionOrder
import SentenceGrammar.Proofs.WiderQuantifiers
import SentenceGrammar.Proofs.Descendants
import SentenceGrammar.Proofs.NearestVariables
import SentenceGrammar.Proofs.RepetitionValues
import SentenceGrammar.Proofs.LoneSentences
import SentenceGrammar.Proofs.DefaultSuggestions
import SentenceGrammar.Proofs.SourceLines
import SentenceGrammar.Proofs.UndefinedTypes
