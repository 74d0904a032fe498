import WsServer.Base.Scanf
import WsServer.Base.Printf
import WsServer.Base.Strtok
import WsServer.Base.Program
import WsServer.Base.Consuming
import WsServer.Base.Machine
import WsServer.Base.SlotTable
import WsServer.Context
import WsServer.CanBus
import WsServer.Wiggle
import WsServer.FiringSequence
import WsServer.Process
import WsServer.Control
import WsServer.Command
import WsServer.WsBridge
import WsServer.System
import WsServer.BlockParse
import WsServer.WorkerRun
import WsServer.WorkerTrace
import WsServer.WiggleSlots
import WsServer.WiggleMap
import WsServer.WiggleTrace
import WsServer.HandlerActions
import WsServer.SystemStep
import WsServer.WiggleIds
import WsServer.Numerals
import WsServer.FaceValue
import WsServer.Ownership
import WsServer.OneSequence
import WsServer.AbortScope
import WsServer.AbortStop
import WsServer.ModeGate
import WsServer.SerialRun
import WsServer.HotfireQuiet
import WsServer.Interlock
import WsServer.CanPrefix
import WsServer.Base.ScanfMatch
import WsServer.BlockGrammar
import WsServer.ModeRace
import WsServer.Base.CBuffer
import WsServer.Base.HexText
import WsServer.CanUpdates
import WsServer.Dispatch
import WsServer.HeaderGate
import WsServer.Base.Runs
import WsServer.WiggleRoom
import WsServer.AllOrNothing
import WsServer.CommandMeaning
import WsServer.CommandOutcome
import WsServer.TestingMode
import WsServer.TrailingInput
import WsServer.Lifetime
import WsServer.TearDown
import WsServer.WiggleLedger
import WsServer.ShutdownWiggles
import WsServer.WiggleExit
import WsServer.ModeFrame
import WsServer.CanDrain
import WsServer.CanCodec
import WsServer.Base.LinkedList
import WsServer.ClientRegistry
import WsServer.StateNews
import WsServer.WorkerClient
import WsServer.Base.ByteFile
import WsServer.Logger
import WsServer.CyclicLog
import WsServer.Base.Lines
import WsServer.CyclicRecord
import WsServer.CsvLog
import WsServer.Base.Fgets
import WsServer.Base.Strto
import WsServer.Config
import WsServer.LogDeletion
import WsServer.ConfigFile
import WsServer.ConfigNumbers
import WsServer.ConfigPrecedence
import WsServer.Base.Periodic
import WsServer.Heartbeat
import WsServer.MessageBuilder
import WsServer.FailureReport
import WsServer.LaunchedSequences
import WsServer.ActOrigin
import WsServer.Base.Part
import WsServer.MainLoop
import WsServer.Provenance
import WsServer.SilentModes
import WsServer.LoopDelivery
import WsServer.LoopLatency
import WsServer.HeldResources
import WsServer.AtomicSections
import WsServer.DeadlockFree
import WsServer.Answers
import WsServer.AuditFile
import WsServer.Controller
import WsServer.ControllerRefinement
import WsServer.ControllerRuns
