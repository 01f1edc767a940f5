import TreeQuery.Binary64.Basic
import TreeQuery.Binary64.Shortest
import TreeQuery.Command.Options
import TreeQuery.Command.Report
import TreeQuery.Json.Read
import TreeQuery.Json.Value
import TreeQuery.Json.Write
import TreeQuery.Main
import TreeQuery.Match
import TreeQuery.Query
import TreeQuery.Selector.Bytes
import TreeQuery.Selector.Chain
import TreeQuery.Selector.Cursor
import TreeQuery.Selector.Error
import TreeQuery.Selector.Matcher
import TreeQuery.Selector.Nth
import TreeQuery.Selector.Parse
import TreeQuery.Selector.PseudoClass
import TreeQuery.Selector.Render
import TreeQuery.Selector.Scan
import TreeQuery.Text.WhiteSpace
import TreeQuery.Tree.Basic
import TreeQuery.Tree.Load
import TreeQuery.Tree.Pseudo
import TreeQuery.Proofs.Arena
import TreeQuery.Proofs.ArenaWalks
import TreeQuery.Proofs.Compiled
import TreeQuery.Proofs.MatchWalks
import TreeQuery.Proofs.Searches
import TreeQuery.Proofs.NameText
import TreeQuery.Proofs.Balanced
import TreeQuery.Proofs.ChainShape
import TreeQuery.Proofs.ChainText
import TreeQuery.Proofs.NthFormula
import TreeQuery.Proofs.Loading
import TreeQuery.Proofs.SelectorTokens
import TreeQuery.Proofs.SelectorGrammar
import TreeQuery.Proofs.SelectorParsing
import TreeQuery.Proofs.Preorder
import TreeQuery.Proofs.ChildPositions
import TreeQuery.Proofs.CompoundParsing
import TreeQuery.Proofs.CursorSteps
import TreeQuery.Proofs.ReaderProgress
import TreeQuery.Proofs.WalkBounds
import TreeQuery.Proofs.ByteScanning
import TreeQuery.Proofs.ByteNesting
