import LineBasic.Main
import LineBasic.Proofs.Abandon
import LineBasic.Proofs.Assignments
import LineBasic.Proofs.Bisimilarity
import LineBasic.Proofs.BlockGrammar
import LineBasic.Proofs.CallLimits
import LineBasic.Proofs.Containers
import LineBasic.Proofs.CountedLoops
import LineBasic.Proofs.CursorBounds
import LineBasic.Proofs.Cuts
import LineBasic.Proofs.Desk
import LineBasic.Proofs.Discipline
import LineBasic.Proofs.Elements
import LineBasic.Proofs.Enclosing
import LineBasic.Proofs.Exchange
import LineBasic.Proofs.Frames
import LineBasic.Proofs.HandedOut
import LineBasic.Proofs.Images
import LineBasic.Proofs.Inlining
import LineBasic.Proofs.Integers
import LineBasic.Proofs.LetterCase
import LineBasic.Proofs.Lexical
import LineBasic.Proofs.LineFiles
import LineBasic.Proofs.Locals
import LineBasic.Proofs.Operators
import LineBasic.Proofs.Outlines
import LineBasic.Proofs.Powers
import LineBasic.Proofs.Precedence
import LineBasic.Proofs.Restored
import LineBasic.Proofs.SavedFiles
import LineBasic.Proofs.Spellings
import LineBasic.Proofs.Substrings
import LineBasic.Proofs.Termination
import LineBasic.Proofs.Unfolding
