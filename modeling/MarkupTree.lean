import MarkupTree.Node.Build
import MarkupTree.Session
import MarkupTree.Value
import MarkupTree.Printer
import MarkupTree.Proofs.Extensional
import MarkupTree.Proofs.Structure
import MarkupTree.Proofs.Comparison
import MarkupTree.Proofs.Printing
import MarkupTree.Proofs.Rendering
import MarkupTree.Proofs.Walking
import MarkupTree.Proofs.Schedules
import MarkupTree.Proofs.Preorder
import MarkupTree.Proofs.Tracking
import MarkupTree.Proofs.Record
import MarkupTree.Proofs.LineCount
import MarkupTree.Proofs.Observation
import MarkupTree.Proofs.Opening
import MarkupTree.Proofs.LineReading
import MarkupTree.Proofs.Reading
import MarkupTree.Proofs.Values
import MarkupTree.Proofs.SharedSink
import MarkupTree.Proofs.DocumentOrder
import MarkupTree.Proofs.MarginFaults
import MarkupTree.Proofs.Replacement
import MarkupTree.Proofs.Building
import MarkupTree.Proofs.Contexts
import MarkupTree.Proofs.ProperParts
import MarkupTree.Proofs.PlacedFrames
import MarkupTree.Proofs.Bracketing
import MarkupTree.Proofs.ClassTokens
import MarkupTree.Proofs.PairWrites
import MarkupTree.Proofs.WalkStack
import MarkupTree.Proofs.ComparedPlaces
import MarkupTree.Proofs.PrinterStack
