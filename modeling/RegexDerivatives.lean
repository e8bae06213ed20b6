import RegexDerivatives.Word
import RegexDerivatives.Regex.Basic
import RegexDerivatives.Regex.Derivative
import RegexDerivatives.Regex.NormalForm
import RegexDerivatives.Regex.Language
import RegexDerivatives.Regex.Absorption
import RegexDerivatives.Regex.UnionCongruence
import RegexDerivatives.Regex.Text
import RegexDerivatives.Regex.Postorder
import RegexDerivatives.Regex.Program
import RegexDerivatives.Recognizer.Basic
import RegexDerivatives.Recognizer.Event
import RegexDerivatives.Recognizer.Scan
import RegexDerivatives.Recognizer.Session
import RegexDerivatives.Recognizer.Survey
import RegexDerivatives.Proofs.ResidualLanguage
import RegexDerivatives.Proofs.Recognition
import RegexDerivatives.Proofs.LateAbsorption
import RegexDerivatives.Proofs.ResidualGrowth
import RegexDerivatives.Proofs.SessionHistory
import RegexDerivatives.Proofs.EarlyStop
import RegexDerivatives.Proofs.ResidualClasses
import RegexDerivatives.Proofs.ViablePrefix
import RegexDerivatives.Proofs.UniqueReading
import RegexDerivatives.Proofs.Comparisons
import RegexDerivatives.Proofs.Denotation
import RegexDerivatives.Proofs.UniqueNormalForm
import RegexDerivatives.Proofs.EqualPatterns
import RegexDerivatives.Proofs.LongestWord
import RegexDerivatives.Proofs.SingleWord
import RegexDerivatives.Proofs.RepeatedWord
import RegexDerivatives.Proofs.GrowthRate
import RegexDerivatives.Proofs.SurveyedWords
