import PrefixCalculus.Dependence.Reach
import PrefixCalculus.Environment.Tidy
import PrefixCalculus.Expression.Printing
import PrefixCalculus.Phrase.Definition
import PrefixCalculus.Phrase.Grammar
import PrefixCalculus.Phrase.Lawful
import PrefixCalculus.Proofs.Encoding
import PrefixCalculus.Proofs.TreeValue
import PrefixCalculus.Proofs.Walking
import PrefixCalculus.Settings
import PrefixCalculus.Settings.Location
import PrefixCalculus.Simplification
import PrefixCalculus.Term.Occurrence
import PrefixCalculus.Term.Value
import PrefixCalculus.Proofs.FlatEvaluation
import PrefixCalculus.Proofs.Denotation
import PrefixCalculus.Proofs.Instantiation
import PrefixCalculus.Proofs.Doubles
import PrefixCalculus.Proofs.Numerals
import PrefixCalculus.Proofs.ParserOutcomes
import PrefixCalculus.Proofs.GuardedParsers
import PrefixCalculus.Proofs.PhraseReading
import PrefixCalculus.Proofs.PhraseSoundness
import PrefixCalculus.Proofs.AcceptedTokens
import PrefixCalculus.Phrase.Reader
import PrefixCalculus.Proofs.LawfulReader
import PrefixCalculus.Phrase.Derivation
import PrefixCalculus.Proofs.UniqueDerivation
import PrefixCalculus.Proofs.Rendering
import PrefixCalculus.Proofs.PrintedPhrase
import PrefixCalculus.Proofs.PrintedForm
import PrefixCalculus.Proofs.PrintedText
import PrefixCalculus.Proofs.DoubleArithmetic
import PrefixCalculus.Proofs.ClosedValue
import PrefixCalculus.Proofs.SimplifiedForm
import PrefixCalculus.Proofs.ReducedForm
import PrefixCalculus.Proofs.ReducedValue
import PrefixCalculus.Proofs.SimplifiedValue
import PrefixCalculus.Proofs.Allocation
import PrefixCalculus.Proofs.SpanDistances
import PrefixCalculus.Proofs.UniqueDecoding
import PrefixCalculus.Proofs.DependenceSearch
import PrefixCalculus.Proofs.Unrolling
import PrefixCalculus.Proofs.DerivativeTermination
import PrefixCalculus.Proofs.Agreement
import PrefixCalculus.Proofs.Restoration
import PrefixCalculus.Proofs.DerivedForm
import PrefixCalculus.Proofs.DerivedTerms
import PrefixCalculus.Proofs.DerivativeValidity
import PrefixCalculus.Proofs.Shielding
import PrefixCalculus.Proofs.UnrolledLoop
import PrefixCalculus.Proofs.Naming
import PrefixCalculus.Proofs.Registry
import PrefixCalculus.Proofs.PhraseMeaning
import PrefixCalculus.Proofs.DefinitionText
import PrefixCalculus.Proofs.LoopVariables
import PrefixCalculus.Proofs.FunctionIds
import PrefixCalculus.Proofs.OperandEnds
import PrefixCalculus.Proofs.VariableReplacement
import PrefixCalculus.Proofs.LoopInstances
import PrefixCalculus.Proofs.ReaderExpansion
import PrefixCalculus.Proofs.OpenNodes
import PrefixCalculus.Proofs.SimplifiedNodes
import PrefixCalculus.Proofs.DescentComparison
import PrefixCalculus.Proofs.SuppliedTerms
import PrefixCalculus.Proofs.VanishingDerivative
import PrefixCalculus.Proofs.ExactSimplification
import PrefixCalculus.Proofs.RepeatedReading
import PrefixCalculus.Proofs.TextLength
import PrefixCalculus.Proofs.WellScoped
import PrefixCalculus.Proofs.ExactValues
import PrefixCalculus.Proofs.RangeEnumeration
import PrefixCalculus.Proofs.CertifiedRoot
import PrefixCalculus.Proofs.AcyclicEvaluation
import PrefixCalculus.Proofs.MalformedEvaluation
import PrefixCalculus.Proofs.KnownNames
import PrefixCalculus.Proofs.NearestDouble
import PrefixCalculus.Proofs.ShortestDigits
import PrefixCalculus.Proofs.PrintedNumbers
import PrefixCalculus.Proofs.CalledNames
import PrefixCalculus.Proofs.Redefinition
import PrefixCalculus.Proofs.CollectedChain
import PrefixCalculus.Proofs.WholeDoubles
import PrefixCalculus.Proofs.BinomialCoefficients
import PrefixCalculus.Proofs.WrittenNumbers
import PrefixCalculus.Proofs.WrittenLines
import PrefixCalculus.Proofs.DocumentWords
import PrefixCalculus.Proofs.PlainDocuments
import PrefixCalculus.Proofs.SectionTables
import PrefixCalculus.Proofs.LawfulDocuments
import PrefixCalculus.Proofs.SettingsText
import PrefixCalculus.Proofs.SkippedOperands
import PrefixCalculus.Environment.Store
import PrefixCalculus.Proofs.StoredFunctions
import PrefixCalculus.Proofs.StoredVariables
import PrefixCalculus.Toml.Format
import PrefixCalculus.Toml.Reading
import PrefixCalculus.Toml.Lawful
import PrefixCalculus.Proofs.AddressAllocation
