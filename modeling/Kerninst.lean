import Kerninst.Function.EdgeCountsRuns
import Kerninst.Outlining.EntryFirst
import Kerninst.Sparc.CondBranch1Free
import Kerninst.Sparc.CondBranch2Free
import Kerninst.Sparc.Jmpl
import Kerninst.X86.Relocate
import Kerninst.Function.RegAnalysis
import Kerninst.Dataflow.LiveRegs
import Kerninst.Replace.ReplaceFunction
import Kerninst.Replace.ReplaceFunctionCall
import Kerninst.Undo.SolarisPokes
import Kerninst.Undo.LinuxPokes
import Kerninst.Driver.VtimersFollow
import Kerninst.Sparc.OneJump
import Kerninst.Reloc.ResolvedTwice
import Kerninst.Bucket.Conserved
import Kerninst.Visi.RightTime
import Kerninst.CodeObject.InterProcCondBranch
import Kerninst.Driver.AllocReqs
import Kerninst.Power.BranchEncoding
import Kerninst.Bucket.Reset
import Kerninst.Driver.PeekBlock
import Kerninst.Codegen.Location
import Kerninst.Reloc.OneAddress
import Kerninst.PatchHeap.OutOfMemory
import Kerninst.Function.RemainingFlow
import Kerninst.X86.RegSet
import Kerninst.Util.BlockHeap
