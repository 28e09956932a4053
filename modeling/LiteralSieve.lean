import LiteralSieve.Automaton.Check
import LiteralSieve.Automaton.Outline
import LiteralSieve.Matcher.Scan
import LiteralSieve.Store.ByteStore
import LiteralSieve.Proofs.Enumeration
import LiteralSieve.Proofs.Matcher.OneShots
import LiteralSieve.Proofs.Matcher.Parts
import LiteralSieve.Proofs.Matcher.Soundness
import LiteralSieve.Proofs.Automaton.Decoding
import LiteralSieve.Proofs.Pattern.Hereditary
import LiteralSieve.Proofs.Pattern.Unfoldings
import LiteralSieve.Proofs.Decompositions
import LiteralSieve.Proofs.Automaton.OrderedTable
import LiteralSieve.Proofs.Matcher.Refusals
import LiteralSieve.Proofs.Spellings
import LiteralSieve.Proofs.Matcher.Independence
import LiteralSieve.Proofs.Matcher.KeywordSearch
import LiteralSieve.Proofs.Automaton.CaseBlindness
import LiteralSieve.Proofs.Matcher.CaseBlindness
import LiteralSieve.Proofs.Pattern.Passes
import LiteralSieve.Proofs.Preservation
import LiteralSieve.Proofs.Forest.Addresses
import LiteralSieve.Proofs.Forest.Drafts
import LiteralSieve.Proofs.Forest.Flattening
import LiteralSieve.Proofs.Forest.Joining
import LiteralSieve.Proofs.Forest.Reading
import LiteralSieve.Proofs.Forest.StoredTrees
import LiteralSieve.Proofs.GreedyUnfoldings
import LiteralSieve.Proofs.WellFormedness
import LiteralSieve.Proofs.Automaton.Resolution
import LiteralSieve.Proofs.LongLiterals
import LiteralSieve.Proofs.Content
import LiteralSieve.Proofs.Normalization
import LiteralSieve.Proofs.BranchCounts
import LiteralSieve.Proofs.LetterBoundaries
import LiteralSieve.Proofs.Pattern.FaultSigns
import LiteralSieve.Proofs.Pattern.Parentheses
import LiteralSieve.Proofs.Pattern.Intervals
import LiteralSieve.Proofs.Pattern.Characters
import LiteralSieve.Proofs.LayoutAndComments
import LiteralSieve.Proofs.LiteralPatterns
import LiteralSieve.Proofs.BracketClasses
import LiteralSieve.Proofs.ByteWords
import LiteralSieve.Proofs.StoredStrings
import LiteralSieve.Proofs.SuccessivePlaces
import LiteralSieve.Proofs.BoundedWalks
