import Tflib.Ae.Backend
import Tflib.Ae.Epoll
import Tflib.Ae.Evport
import Tflib.Ae.FileEvents
import Tflib.Ae.Kqueue
import Tflib.Ae.Process
import Tflib.Ae.Select
import Tflib.Ae.TimeEvents
import Tflib.Ae.TimerList
import Tflib.Conf.Comment
import Tflib.Conf.File
import Tflib.Conf.Groups
import Tflib.Conf.Header
import Tflib.Conf.Pair
import Tflib.Conf.ParseLine
import Tflib.Conf.Reading
import Tflib.Core.Base64
import Tflib.Core.BitMoves
import Tflib.Core.Blocks
import Tflib.Core.Bytes
import Tflib.Core.CString
import Tflib.Core.Calls
import Tflib.Core.Chars
import Tflib.Core.Countdown
import Tflib.Core.Escape
import Tflib.Core.Feistel
import Tflib.Core.FileTree
import Tflib.Core.Framing
import Tflib.Core.Ledger
import Tflib.Core.Lifetimes
import Tflib.Core.Machine
import Tflib.Core.Mixing
import Tflib.Core.Observe
import Tflib.Core.Ordering
import Tflib.Core.Pool
import Tflib.Core.Region
import Tflib.Core.Split
import Tflib.Core.Trim
import Tflib.Core.Writes
import Tflib.Data.Escapes
import Tflib.Data.Format
import Tflib.Data.List
import Tflib.Data.Numeric
import Tflib.Data.Printf
import Tflib.Data.Search
import Tflib.Data.Sequence
import Tflib.Data.Serial
import Tflib.Data.Str
import Tflib.Data.Strsep
import Tflib.Expert.Base64
import Tflib.Expert.D3des
import Tflib.Expert.DesComplement
import Tflib.Expert.DesInverse
import Tflib.Expert.DesKeys
import Tflib.Expert.DesModes
import Tflib.Expert.DesPassword
import Tflib.Expert.DesRefine
import Tflib.Expert.DesSchedule
import Tflib.Expert.DesStandard
import Tflib.Expert.DesWidth
import Tflib.Expert.Hash
import Tflib.Expert.Md5
import Tflib.Expert.Md5Digest
import Tflib.Expert.Md5Standard
import Tflib.Expert.Md5Stream
import Tflib.Expert.Md5Transform
import Tflib.Expert.Md5Words
import Tflib.File.Copy
import Tflib.File.Lines
import Tflib.File.Remove
import Tflib.File.Transfer
import Tflib.File.Whole
import Tflib.Ipc.Queue
import Tflib.Ipc.Shm
import Tflib.Nac.Connections
import Tflib.Nac.Effect
import Tflib.Nac.Handlers
import Tflib.Nac.Initialize
import Tflib.Nac.Leftover
import Tflib.Nac.Limits
import Tflib.Nac.Lookup
import Tflib.Nac.Loop
import Tflib.Nac.Main
import Tflib.Nac.Pipe
import Tflib.Nac.Refine
import Tflib.Nac.Relay
import Tflib.Nac.Request
import Tflib.Nac.Response
import Tflib.Nac.Settings
import Tflib.Nac.Shutdown
import Tflib.Nac.Startup
import Tflib.Nac.State
import Tflib.Nac.Stream
import Tflib.Nac.Table
import Tflib.Nac.Ticks
import Tflib.Nac.Timers
import Tflib.Nac.Traffic
import Tflib.Nac.Turns
import Tflib.Nac.Watched
import Tflib.Socket.InetAton
import Tflib.Socket.Net
import Tflib.Socket.Open
import Tflib.Socket.Retry
import Tflib.Socket.Transfer
import Tflib.Util.Affix
import Tflib.Util.Compare
import Tflib.Util.Hexadecimal
import Tflib.Util.IsNum
import Tflib.Util.Log
import Tflib.Util.Malloc
import Tflib.Util.Nibbles
import Tflib.Util.Numbers
import Tflib.Util.Numerals
import Tflib.Util.Rate
import Tflib.Util.RateNew
import Tflib.Util.Split
import Tflib.Util.Strings
import Tflib.Util.TrimInPlace
import Tflib.Util.VarNum
import Tflib.Util.VarNumRange
