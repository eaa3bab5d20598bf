import Okm6ullOta.PowerCutScripts
import Okm6ullOta.LabelledRuns
import Okm6ullOta.TextNumerals
import Okm6ullOta.TrialUpdates
import Okm6ullOta.BootEnvironment
import Okm6ullOta.UBootCommands
import Okm6ullOta.BootScript
import Okm6ullOta.BootLog
import Okm6ullOta.BootSteps
import Okm6ullOta.BoardRuns
import Okm6ullOta.SlotSafety
import Okm6ullOta.TrialCounter
import Okm6ullOta.TrialBudgets
import Okm6ullOta.CommandLines
import Okm6ullOta.HandOff
import Okm6ullOta.LegacyMirror
import Okm6ullOta.RollbackPaths
import Okm6ullOta.BootCounters
import Okm6ullOta.AppRollback
import Okm6ullOta.LineEdits
import Okm6ullOta.UBootMakefile
import Okm6ullOta.DdrRegisters
import Okm6ullOta.PollingLoops
import Okm6ullOta.PowerKey
import Okm6ullOta.SlotReport
import Okm6ullOta.SteadyBoots
import Okm6ullOta.ExhaustedTrials
import Okm6ullOta.ReorderWindows
import Okm6ullOta.RxReorder
import Okm6ullOta.EfuseLog
import Okm6ullOta.EfuseMapWrite
import Okm6ullOta.RxOrder
import Okm6ullOta.Aes128
import Okm6ullOta.ByteMemory
import Okm6ullOta.Ccmp
import Okm6ullOta.Crc32
import Okm6ullOta.FeistelSteps
import Okm6ullOta.FrameDelivery
import Okm6ullOta.PacketDelivery
import Okm6ullOta.Recovery
import Okm6ullOta.CircularBuffer
import Okm6ullOta.InfoElements
import Okm6ullOta.StationTable
import Okm6ullOta.StationAids
