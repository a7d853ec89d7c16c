import Swh.Common
import Swh.Transcript
import Swh.AnsiseqParams
import Swh.AnsiseqDecode
import Swh.AnsiseqNumbers
import Swh.Fsm
import Swh.Hp
import Swh.Chunking
import Swh.Program
import Swh.CmdoutGrammar
import Swh.InitGrammar
import Swh.Sc
import Swh.ScView
import Swh.Core
import Swh.CoreView
import Swh.Consistency
import Swh.Transmission
import Swh.InitPhase
import Swh.Buffers
import Swh.UcIa
import Swh.UcIaStream
import Swh.Wire
import Swh.BusyLoop
import Swh.Timing
import Swh.Handover
import Swh.Answer
import Swh.Echo
import Swh.Session
import Swh.Growbuf
import Swh.Hexdump
import Swh.Display
import Swh.Dialogue
import Swh.Memory
import Swh.History
import Swh.FsmTable
import Swh.Journal
import Swh.System
import Swh.Logbook
import Swh.Spawn
import Swh.Log
import Swh.Init
