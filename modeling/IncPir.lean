import IncPir.RoundHints
import IncPir.Incremental
import IncPir.Overlap
import IncPir.SlotKeys
import IncPir.Resetup
import IncPir.SampleLaw
import IncPir.IndexArithmetic
import IncPir.NetServer
import IncPir.QueryShape
import IncPir.Server
import IncPir.OfflineEval
import IncPir.RefreshEval
import IncPir.Edits
import IncPir.Hiding
import IncPir.Ck.Client
import IncPir.Ck.Leaves
import IncPir.Ck.Points
import IncPir.Ck.SetKeys
import IncPir.Ck.Eval
import IncPir.Dpf.Load
import IncPir.Drift
import IncPir.Ck.Drift
