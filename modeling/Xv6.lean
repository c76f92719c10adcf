import Xv6.Soundness.Lighting.Invariant
import Xv6.Soundness.Lighting.Noninterference
import Xv6.Soundness.Lighting.PolicyAgreement
import Xv6.Soundness.Lighting.OnTime
import Xv6.Soundness.Lighting.StaleSample
import Xv6.Soundness.Lighting.EnergyBudget
import Xv6.Soundness.Lighting.EnergyReport
import Xv6.Soundness.Fs.CommitIsolation
import Xv6.Soundness.Fs.BufferCache
import Xv6.Soundness.Fs.CommitBuffers
import Xv6.Soundness.Fs.DirectoryMap
import Xv6.Soundness.Fs.ChunkedWrite
import Xv6.Soundness.Fs.SharedDescriptor
import Xv6.Soundness.Fs.ReadCount
import Xv6.Soundness.Fs.CacheList
import Xv6.Soundness.Fs.BlockScan
import Xv6.Soundness.Fs.ChunkReservation
import Xv6.Soundness.Fs.FailedWrite
import Xv6.Soundness.Fs.InodeTable
import Xv6.Soundness.Fs.OrphanReclaim
import Xv6.Soundness.Fs.PathResolution
import Xv6.Soundness.Fs.FailedNaming
import Xv6.Soundness.Fs.FirstImage
import Xv6.Soundness.Fs.CrashConsistency
import Xv6.Soundness.Dev.LineDiscipline
import Xv6.Soundness.Dev.Transmit
import Xv6.Soundness.Proc.Kill
import Xv6.Soundness.Proc.SleepLock
import Xv6.Soundness.Proc.InterruptNesting
import Xv6.Soundness.Proc.ExitWait
import Xv6.Soundness.Ipc.PipeWakeups
import Xv6.Soundness.Vm.FlatMap
import Xv6.Soundness.Vm.ForkIsolation
import Xv6.Soundness.Vm.UserCopies
import Xv6.Soundness.Vm.ExecAtomicity
import Xv6.Soundness.User.ShellWords
import Xv6.Soundness.User.GrepMatch
import Xv6.Soundness.User.GrepLines
import Xv6.Soundness.User.Memmove
import Xv6.Soundness.User.Roomctl
import Xv6.Soundness.User.HeapMemory
import Xv6.Soundness.Printf
