import TemplateLexer.Main
import TemplateLexer.Reader
import TemplateLexer.Proofs.Production
import TemplateLexer.Proofs.StepCompleteness
import TemplateLexer.Proofs.Source
import TemplateLexer.Proofs.Tiling
import TemplateLexer.Proofs.Sentence
import TemplateLexer.Proofs.SentencePieces
import TemplateLexer.Proofs.SentenceSoundness
import TemplateLexer.Proofs.Brackets
import TemplateLexer.Proofs.QuoteReduction
import TemplateLexer.Proofs.Template
import TemplateLexer.Proofs.TemplateReading
import TemplateLexer.Proofs.Scanner.Expression
import TemplateLexer.Proofs.Scanner.Markup
import TemplateLexer.Proofs.Scanner.Logic
import TemplateLexer.Proofs.Scanner.ExpressionRun
import TemplateLexer.Proofs.Scanner.Accord
import TemplateLexer.Proofs.Scanner.MarkupRun
import TemplateLexer.Proofs.Scanner.HeldText
import TemplateLexer.Proofs.Scanner.MarkupAccord
import TemplateLexer.Proofs.Scanner.Faultless
import TemplateLexer.Proofs.Lookahead
import TemplateLexer.Proofs.Concatenation
import TemplateLexer.Proofs.CoveredPart
import TemplateLexer.Proofs.ErrorLocation
import TemplateLexer.Proofs.Lenience
import TemplateLexer.Proofs.StrayBracket
import TemplateLexer.Proofs.Subtree
import TemplateLexer.Proofs.StyledRanges
import TemplateLexer.Proofs.AttributeValue
import TemplateLexer.Proofs.Embedding
import TemplateLexer.Proofs.ExpressionBoundary
import TemplateLexer.Proofs.LexemeClass
import TemplateLexer.Proofs.ExpressionOrder
import TemplateLexer.Proofs.InterpolationExtent
import TemplateLexer.Proofs.ClosedStrings
import TemplateLexer.Proofs.FileIndependence
import TemplateLexer.Proofs.NestingCalls
import TemplateLexer.Proofs.StreamGrowth
import TemplateLexer.Proofs.Reached
import TemplateLexer.Proofs.BareValueGrammar
import TemplateLexer.Proofs.CommentRecognition
import TemplateLexer.Proofs.SpanCalls
import TemplateLexer.Proofs.UsageErrors
import TemplateLexer.Proofs.NameSplitting
import TemplateLexer.Proofs.QuotedReading
import TemplateLexer.Proofs.TokenListing
import TemplateLexer.Proofs.ReaderOperations
import TemplateLexer.Proofs.Scanner.Motion
import TemplateLexer.Proofs.Scanner.Parts
import TemplateLexer.Proofs.Scanner.Termination
