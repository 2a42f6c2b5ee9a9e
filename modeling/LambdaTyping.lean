import LambdaTyping.Surface.Printer
import LambdaTyping.Main
import LambdaTyping.Proofs.Shifting
import LambdaTyping.Proofs.NameMaps
import LambdaTyping.Proofs.FreshNames
import LambdaTyping.Proofs.Schemes
import LambdaTyping.Proofs.MostGeneralUnifiers
import LambdaTyping.Proofs.HindleyMilner
import LambdaTyping.Proofs.Admission
import LambdaTyping.Proofs.InferenceSoundness
import LambdaTyping.Proofs.PrincipalTypes
import LambdaTyping.Proofs.AlphaEquivalence
import LambdaTyping.Proofs.Equations
import LambdaTyping.Proofs.RuleChecks
import LambdaTyping.Proofs.SimplyTypedTrees
import LambdaTyping.Proofs.CheckedTrees
import LambdaTyping.Proofs.DamasMilner
import LambdaTyping.Proofs.PrincipalUnifiers
import LambdaTyping.Proofs.OpeningRounds
import LambdaTyping.Proofs.RigidCalls
import LambdaTyping.Proofs.Formation
import LambdaTyping.Proofs.SystemF
import LambdaTyping.Proofs.SystemFRules
import LambdaTyping.Proofs.SystemFSoundness
import LambdaTyping.Proofs.SystemFTrees
import LambdaTyping.Proofs.HindleyMilnerRules
import LambdaTyping.Proofs.HindleyMilnerTrees
import LambdaTyping.Proofs.CommonFragment
import LambdaTyping.Proofs.Matching
import LambdaTyping.Proofs.PolymorphicRules
import LambdaTyping.Proofs.WrittenOutTrees
import LambdaTyping.Proofs.SchemeComparison
import LambdaTyping.Proofs.SupplyHistories
import LambdaTyping.Proofs.SchemeUnifiers
import LambdaTyping.Proofs.LocalNames
import LambdaTyping.Proofs.ParserOutcomes
import LambdaTyping.Proofs.Grammar
import LambdaTyping.Proofs.SyntaxErrors
import LambdaTyping.Proofs.ParseTrees
import LambdaTyping.Proofs.Lexing
import LambdaTyping.Proofs.Reparsing
import LambdaTyping.Proofs.RoundTrip
import LambdaTyping.Proofs.OpeningAnswers
import LambdaTyping.Proofs.InferenceFormation
import LambdaTyping.Proofs.PrintedAnswers
import LambdaTyping.Proofs.LargerContexts
import LambdaTyping.Proofs.AppliedContexts
import LambdaTyping.Proofs.Reopening
import LambdaTyping.Proofs.SubstitutionLaws
import LambdaTyping.Proofs.ImplicitSystemF
import LambdaTyping.Proofs.SolvedRuns
import LambdaTyping.Proofs.SystemFInference
import LambdaTyping.Proofs.ReturningChecks
import LambdaTyping.Proofs.SimpleQuestions
import LambdaTyping.Proofs.Containment
import LambdaTyping.Proofs.GuardedShifts
import LambdaTyping.Proofs.GuardedRuns
import LambdaTyping.Proofs.CheckedScopes
import LambdaTyping.Proofs.AppliedTypes
import LambdaTyping.Proofs.AlphaCongruence
import LambdaTyping.Proofs.ScopeResolution
import LambdaTyping.Proofs.SurfaceText
import LambdaTyping.Proofs.Shorthands
import LambdaTyping.Proofs.TokenSpans
