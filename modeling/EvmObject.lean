import EvmObject.BigEndian.Lemmas
import EvmObject.CommandLine
import EvmObject.Host.Record
import EvmObject.Host.Script
import EvmObject.Main
import EvmObject.Proofs.CallBracket
import EvmObject.Proofs.CallChain
import EvmObject.Proofs.CallRoom
import EvmObject.Proofs.Headroom
import EvmObject.Proofs.Legality
import EvmObject.Proofs.LimitCuts
import EvmObject.Proofs.Metering
import EvmObject.Proofs.Noninterference
import EvmObject.Proofs.Seam
import EvmObject.Proofs.Soundness
import EvmObject.Word.Lemmas
import EvmObject.Proofs.Assembly
import EvmObject.Proofs.StraightLine
import EvmObject.Proofs.LineText
import EvmObject.Proofs.Listing
import EvmObject.Proofs.Agreement
import EvmObject.Proofs.ImplicitStop
import EvmObject.Proofs.Admission
import EvmObject.Proofs.Arity
import EvmObject.Proofs.FaultPlace
import EvmObject.Proofs.CallRules
import EvmObject.Proofs.Inlining
import EvmObject.Proofs.DefectOrder
import EvmObject.Proofs.FirstFailure
import EvmObject.Proofs.Allowance
import EvmObject.Proofs.SweepCodec
import EvmObject.Proofs.TableJump
import EvmObject.Proofs.Inspection
import EvmObject.Proofs.HexWriting
import EvmObject.Proofs.WordText
import EvmObject.Proofs.StackCalls
import EvmObject.Proofs.CursorReads
import EvmObject.Proofs.ListingText
