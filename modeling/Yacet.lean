import Yacet.SoloSession
import Yacet.SwapThreads
import Yacet.SwapPull
import Yacet.Arguments
import Yacet.PrintMode
import Yacet.IntervalHeap
import Yacet.PushOrder
import Yacet.Validity
import Yacet.Sessions
import Yacet.ThreadJoins
import Yacet.Flags
import Yacet.AmortizedList
import Yacet.Together
import Yacet.IntervalDecision
import Yacet.NewRange
import Yacet.Pcq
import Yacet.Bo
import Yacet.LockedTable
import Yacet.RangeFetch
import Yacet.OracleText
import Yacet.FileArgs
import Yacet.LockPath
import Yacet.SelectNodes
import Yacet.Regions
import Yacet.Unflagged
import Yacet.InsertOutcome
import Yacet.ThreadProgress
import Yacet.BoRange
import Yacet.IntervalPieces
import Yacet.PrintFile
import Yacet.PrintRange
import Yacet.HeldText
import Yacet.MarkedPrint
import Yacet.PrintThreads
import Yacet.Editor
