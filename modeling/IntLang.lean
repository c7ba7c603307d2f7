import IntLang.Main
import IntLang.CommandLine.Hierarchy
import IntLang.Machine.Run
import IntLang.Ir.Generator
import IntLang.Proofs.Ir.Execution
import IntLang.Proofs.Ir.Preservation
import IntLang.Proofs.Parser.FirstFault
import IntLang.Proofs.Asm.NormalForm
import IntLang.Proofs.Independence
import IntLang.Proofs.Ir.Branches
import IntLang.Proofs.Asm.Rejection
import IntLang.Proofs.Machine.Footprint
import IntLang.Proofs.Asm.Footprint
import IntLang.Proofs.Convention
import IntLang.Proofs.Parser.Phrase
import IntLang.Proofs.Diagnosis
import IntLang.Proofs.Ascent
import IntLang.Proofs.Asm.Annotation
import IntLang.Proofs.CommandLine.Effects
import IntLang.Proofs.Ir.Slots
import IntLang.Proofs.Token.Printing
import IntLang.Proofs.Asm.Effect
import IntLang.Proofs.Asm.Frame
import IntLang.Proofs.Machine.Limit
import IntLang.Proofs.Machine.Atomicity
import IntLang.Proofs.Machine.History
import IntLang.Proofs.Ir.Renaming
import IntLang.Proofs.Ir.Generator
import IntLang.Proofs.Parser.Origin
import IntLang.Proofs.Parser.Exhaustion
import IntLang.Proofs.Token.Progress
import IntLang.Proofs.Numeral
import IntLang.Proofs.Asm.WideOperand
import IntLang.Proofs.Parser.Progress
import IntLang.Proofs.Machine.Division
