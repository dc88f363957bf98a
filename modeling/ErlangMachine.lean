import ErlangMachine.Main
import ErlangMachine.Proofs.Frames
import ErlangMachine.Proofs.NestedCalls
import ErlangMachine.Proofs.Preemption
import ErlangMachine.Proofs.Construction
import ErlangMachine.Proofs.ListingText
import ErlangMachine.Proofs.Reraising
import ErlangMachine.Proofs.HandlerChain
import ErlangMachine.Proofs.WriteOnce
import ErlangMachine.Proofs.FiniteRuns
import ErlangMachine.Proofs.References
import ErlangMachine.Proofs.Receiving
import ErlangMachine.Proofs.Appending
import ErlangMachine.Proofs.FloatSegments
import ErlangMachine.Proofs.UtfReaders
import ErlangMachine.Proofs.ExactIntegers
import ErlangMachine.Proofs.SharedConstants
import ErlangMachine.Proofs.Recognition
import ErlangMachine.Proofs.Windows
import ErlangMachine.Proofs.Disbelief
import ErlangMachine.Proofs.Tuples
import ErlangMachine.Proofs.Traces
import ErlangMachine.Proofs.Successors
import ErlangMachine.Proofs.TuplePositions
