import Gavea.BracketPairs.CombineTextEditInfos
import Gavea.BracketPairs.Concat23Trees
import Gavea.Edits.Ranges
import Gavea.Edits.TextEditCompose
import Gavea.Ipc.Answers
import Gavea.Ipc.Cancellation
import Gavea.Ipc.Delivery
import Gavea.AgentHost.OptimisticValue
import Gavea.AgentHost.Subscribers
import Gavea.WebPubSub.Lossless
import Gavea.ViewLayout.Viewport
import Gavea.EditStack.SingleModelEditStackElement
import Gavea.MutationLog.Persistence
import Gavea.UserDataSync.Convergence
import Gavea.PieceTree.BuilderCorrect
import Gavea.Keybinding.Resolver
import Gavea.Uri.RoundTrip
import Gavea.MergeEditor.SetState
import Gavea.EditorGroup.Restart
import Gavea.JsonRpc.Answering
import Gavea.Sse.SSEParser
import Gavea.LineBreaks.Rewrap
import Gavea.LineDecorations.Normalizing
import Gavea.ListView.RangeMap
import Gavea.Folding.FoldingRegions
import Gavea.Folding.SanitizeAndMerge
import Gavea.MapCaches.Caches
import Gavea.LineProjection.Projection
import Gavea.Base.BinaryIndexOf
import Gavea.ContiguousTokens.Consistency
import Gavea.SparseTokens.Overlay
import Gavea.SparseTokens.ReplacesRange
import Gavea.Diff.ExtendedWords
import Gavea.Diff.Levenshtein
import Gavea.IntervalTree.IntervalTree
import Gavea.Edits.MapPosition
import Gavea.PrefixSum.Agreement
import Gavea.PrefixTree.PlainMap
import Gavea.Snippet.Escape
import Gavea.Wire.Requests
