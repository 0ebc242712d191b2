import TapeLang.Main
import TapeLang.Module.Execution
import TapeLang.Block.Evaluation
import TapeLang.X86.Disassembly
import TapeLang.Proofs.Source.Rendering
import TapeLang.Proofs.Assembly.Disassembly
import TapeLang.Proofs.Source.Brackets
import TapeLang.Proofs.Source.Tree
import TapeLang.Proofs.Source.Concatenation
import TapeLang.Proofs.Native.Refinement
import TapeLang.Proofs.Module.Refinement
import TapeLang.Proofs.Module.Inspection
import TapeLang.Proofs.Session.History
import TapeLang.Proofs.Native.Addresses
import TapeLang.Proofs.Native.Targets
import TapeLang.Proofs.Native.Contract
import TapeLang.Proofs.Native.CellAccess
import TapeLang.Proofs.Module.ArbitraryFiles
import TapeLang.Proofs.Module.DamagedFiles
import TapeLang.Proofs.Module.Layout
import TapeLang.Proofs.Channel.History
import TapeLang.Proofs.Interpreter.Faults
import TapeLang.Proofs.Interpreter.LargerTape
import TapeLang.Proofs.Interpreter.Interruption
import TapeLang.Proofs.Interpreter.FailingOutput
import TapeLang.Proofs.FileTree.Installation
import TapeLang.Proofs.Module.Acceptance
import TapeLang.Proofs.Module.Emission
import TapeLang.Proofs.Module.Naming
import TapeLang.Proofs.Program.Matching
import TapeLang.Proofs.Tape.Model
import TapeLang.Proofs.Module.NoteSequences
