import Mpc.Gates
import Mpc.Lib.Masked
import Mpc.Circuit
import Mpc.Privacy
import Mpc.Eqz
import Mpc.Dpf.Eval
import Mpc.Dpf.Gen
import Mpc.Dpf.Serialize
import Mpc.Lib.Select
import Mpc.Oram.Keys
import Mpc.Oram.Locoram
import Mpc.Oram.Run
import Mpc.Oram.Database
import Mpc.Oram.Copies
import Mpc.Oram.Selection
import Mpc.Oram.Cancel
import Mpc.Oram.Read
import Mpc.Dotproduct
import Mpc.Lib.Double
import Mpc.Dpf.Sizes
import Mpc.Dpf.Interval
import Mpc.Tape
import Mpc.Replay
import Mpc.Lib.BitPack
import Mpc.Ot
import Mpc.Concurrent
import Mpc.Lib.Halves
import Mpc.Mod128
import Mpc.Lib.Trace
import Mpc.OtWorker
import Mpc.Lib.Outcome
import Mpc.Outcome
import Mpc.Oram.Access
import Mpc.Oram.Atomic
import Mpc.Oram.InRange
import Mpc.Dpf.Decode
import Mpc.Dealer
import Mpc.Truncated
import Mpc.Lib.Balance
import Mpc.Narrow
import Mpc.OtPairing
import Mpc.MixedDot
import Mpc.Prg
import Mpc.Dpf.Index
import Mpc.Dpf.ControlBits
import Mpc.Oram.SelectionBits
import Mpc.DealerTraffic
import Mpc.Lib.Dial
import Mpc.Lib.Talk
import Mpc.Messages
import Mpc.Oram.Session
import Mpc.Startup
import Mpc.Aes
import Mpc.Files
import Mpc.Lib.Split
import Mpc.Preproc
import Mpc.Blinded
import Mpc.DpfMain
