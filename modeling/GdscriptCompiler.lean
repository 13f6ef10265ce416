import GdscriptCompiler.Riscv.RelaxCorrect
import GdscriptCompiler.Riscv.ConstantPool
import GdscriptCompiler.Riscv.IntGlobals
import GdscriptCompiler.Riscv.RegisterAllocator
import GdscriptCompiler.Metadata.ScriptConstants
import GdscriptCompiler.Optimizer.FusedBranch
import GdscriptCompiler.Optimizer.ConstantFoldingCorrect
import GdscriptCompiler.Optimizer.Pipeline
import GdscriptCompiler.Codegen.ContainerWalks
import GdscriptCompiler.Codegen.MatchNarrowing
import GdscriptCompiler.Lexing.Strings
import GdscriptCompiler.Lexing.LineEndings
import GdscriptCompiler.Codegen.Constants
import GdscriptCompiler.Program.Chain
import GdscriptCompiler.Program.Traits
import GdscriptCompiler.Parsing.Clone
import GdscriptCompiler.Planning.Liveness
import GdscriptCompiler.Planning.TypedInts
import GdscriptCompiler.Planning.Nonnegative
import GdscriptCompiler.Planning.GlobalHandles
