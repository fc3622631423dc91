import AdvancedOperatingSystems.SecureBoot.Measured
import AdvancedOperatingSystems.TrapEmulate.CsrAccess
import AdvancedOperatingSystems.TrapEmulate.HostSafety
import AdvancedOperatingSystems.TrapEmulate.Isolation
import AdvancedOperatingSystems.TrapEmulate.Privilege
import AdvancedOperatingSystems.TrapEmulate.TrapReturn
import AdvancedOperatingSystems.TrapEmulate.Wait
import AdvancedOperatingSystems.UlThread.Identity
import AdvancedOperatingSystems.UlThread.RoundRobin
import AdvancedOperatingSystems.UlThread.Priority
import AdvancedOperatingSystems.UlThread.Fcfs
import AdvancedOperatingSystems.DemandPaging.Swapping
import AdvancedOperatingSystems.DemandPaging.Resolve
import AdvancedOperatingSystems.DemandPaging.KernelWrites
import AdvancedOperatingSystems.DemandPaging.Inherit
import AdvancedOperatingSystems.DemandPaging.CowFault
import AdvancedOperatingSystems.DemandPaging.LoadOrder
import AdvancedOperatingSystems.UlThread.ContextSwitch
import AdvancedOperatingSystems.TrapEmulate.Fetch
import AdvancedOperatingSystems.TrapEmulate.Decoding
import AdvancedOperatingSystems.TrapEmulate.CsrFile
import AdvancedOperatingSystems.TrapEmulate.ActiveTable
import AdvancedOperatingSystems.DemandPaging.ExecFailure
import AdvancedOperatingSystems.DemandPaging.Buffers
import AdvancedOperatingSystems.DemandPaging.ProgramFile
import AdvancedOperatingSystems.VmExec.Atomic
import AdvancedOperatingSystems.TrapEmulate.CsrLookup
import AdvancedOperatingSystems.SecureBoot.Partition
import AdvancedOperatingSystems.SecureBoot.Loaded
import AdvancedOperatingSystems.DemandPaging.Recording
import AdvancedOperatingSystems.UlThread.Resumption
import AdvancedOperatingSystems.DemandPaging.Grouping
import AdvancedOperatingSystems.DemandPaging.SwapArea
import AdvancedOperatingSystems.DemandPaging.DemandLoad
import AdvancedOperatingSystems.FileSystem.Reservation
import AdvancedOperatingSystems.FileSystem.CacheRuns
import AdvancedOperatingSystems.FileSystem.Pipe
import AdvancedOperatingSystems.SecureBoot.Digest
import AdvancedOperatingSystems.FileSystem.Filewrite
import AdvancedOperatingSystems.FileSystem.Operation
