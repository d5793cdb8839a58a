import Disasm6502.Decoder.OperandAt
import Disasm6502.Main
import Disasm6502.Proofs.InstructionCode
import Disasm6502.Proofs.InstructionStream
import Disasm6502.Proofs.DecoderRun
import Disasm6502.Proofs.RoundTrip
import Disasm6502.Proofs.Boundary
import Disasm6502.Proofs.Numeral
import Disasm6502.Proofs.InstructionText
import Disasm6502.Proofs.OpcodeAlias
import Disasm6502.Proofs.ListingText
import Disasm6502.Proofs.Composition
import Disasm6502.Proofs.DecoderCalls
import Disasm6502.Proofs.ImageSections
import Disasm6502.Proofs.RunStages
import Disasm6502.Proofs.RunOutput
import Disasm6502.Proofs.LogGroups
import Disasm6502.Proofs.RunCourse
import Disasm6502.Proofs.RunLog
import Disasm6502.Proofs.PrgListing
import Disasm6502.Proofs.Verbosity
import Disasm6502.Proofs.ListingAddresses
import Disasm6502.Proofs.MissingBytes
import Disasm6502.Proofs.Fence
import Disasm6502.Proofs.AddressColumn
import Disasm6502.Proofs.ListingRows
import Disasm6502.Proofs.OperandByte
import Disasm6502.Proofs.HeaderBits
import Disasm6502.Proofs.ImageErrors
import Disasm6502.Proofs.LoggedResults
import Disasm6502.Proofs.TextLines
import Disasm6502.Proofs.Highlighting
import Disasm6502.Proofs.Echo
import Disasm6502.Proofs.LogTail
import Disasm6502.Proofs.ModeSets
import Disasm6502.Proofs.OperandOutcome
import Disasm6502.Proofs.DecodeWork
import Disasm6502.Proofs.ArgumentOrder
