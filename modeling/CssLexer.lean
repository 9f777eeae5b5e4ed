import CssLexer.Command
import CssLexer.Grammar
import CssLexer.Main
import CssLexer.Pool
import CssLexer.Proofs.Adjacency
import CssLexer.Proofs.Bytes.Calls
import CssLexer.Proofs.Bytes.Scanner
import CssLexer.Proofs.Command.Recovery
import CssLexer.Proofs.Command.Views
import CssLexer.Proofs.Decoding
import CssLexer.Proofs.Grammar.Denotation
import CssLexer.Proofs.Grammar.Name
import CssLexer.Proofs.Grammar.Url
import CssLexer.Proofs.Interleaving
import CssLexer.Proofs.LetterCase
import CssLexer.Proofs.LineEnds
import CssLexer.Proofs.Lineage
import CssLexer.Proofs.LogLineages
import CssLexer.Proofs.Lossless
import CssLexer.Proofs.MaximalMunch
import CssLexer.Proofs.Nonascii
import CssLexer.Proofs.Numerals
import CssLexer.Proofs.Phases
import CssLexer.Proofs.Places
import CssLexer.Proofs.PrefixStability
import CssLexer.Proofs.Restart
import CssLexer.Proofs.Separation
import CssLexer.Proofs.Standalone
import CssLexer.Proofs.Strict
import CssLexer.Proofs.Text.Format
import CssLexer.Proofs.Warnings
import CssLexer.Unescape
import CssLexer.Proofs.Grammar.Number
import CssLexer.Proofs.Grammar.UnicodeRange
import CssLexer.Proofs.Grammar.Comment
import CssLexer.Proofs.Grammar.Spelling
