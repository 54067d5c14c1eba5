import HeapFlow.Expectation
import HeapFlow.Main
import HeapFlow.Proofs.Asking
import HeapFlow.Proofs.Checking
import HeapFlow.Proofs.ClassOrder
import HeapFlow.Proofs.Copying
import HeapFlow.Proofs.Covering
import HeapFlow.Proofs.Cycles
import HeapFlow.Proofs.Dumping
import HeapFlow.Proofs.EntryOrder
import HeapFlow.Proofs.Filing
import HeapFlow.Proofs.Finalizing
import HeapFlow.Proofs.InitializedClasses
import HeapFlow.Proofs.Initializing
import HeapFlow.Proofs.Instantiation
import HeapFlow.Proofs.Interning
import HeapFlow.Proofs.Queueing
import HeapFlow.Proofs.Saturation
import HeapFlow.Proofs.Serving
import HeapFlow.Proofs.Sharing
import HeapFlow.Proofs.Spelling
import HeapFlow.Proofs.Subtyping
import HeapFlow.Proofs.Threading
import HeapFlow.Proofs.Widening
