import Sicada.DeterminizeAcyclic
import Sicada.Decode.PosteriorsExact
import Sicada.Decode.AlignTies
import Sicada.Decode.PruneExact
import Sicada.Decode.Ctc
import Sicada.Decode.DenseProperties
import Sicada.ReplaceExact
import Sicada.CacheExact
import Sicada.EditFstExact
import Sicada.DifferenceExact
import Sicada.EncodeExact
import Sicada.CheckSums
import Sicada.CompactExact
import Sicada.MultiEpsExact
import Sicada.AccumulatorExact
import Sicada.Isomorphic
import Sicada.ReverseExact
import Sicada.SynchronizeExact
import Sicada.CcComponents
import Sicada.ComposeTablesExact
import Mathlib.Data.Finset.Sort
import Sicada.ShortestDistanceRetained
import Sicada.RmFinalEpsilonKeeps
import Sicada.Condense
import Sicada.VisitExact
import Sicada.MergeFst
import Sicada.ReplaceUtilConnect
import Sicada.Decode.CompactLatticeExact
import Sicada.Weights.SetWeightExact
import Sicada.Weights.CompositeExact
import Sicada.Weights.GallicWeightExact
import Sicada.Weights.UnionWeightRuns
import Sicada.ArcArena
import Sicada.SymbolTableOps
import Sicada.UnionFindExact
import Sicada.IntervalSetExact
import Sicada.BiTablesExact
import Sicada.CompactSet
import Sicada.QueueWrappers
import Sicada.StringFstExact
import Sicada.Weights.WeightTextExact
import Sicada.ComposeAssoc
import Sicada.Intersect
import Sicada.LabelMaps
