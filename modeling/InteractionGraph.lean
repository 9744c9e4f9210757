import InteractionGraph.Session
import InteractionGraph.Settings.Text
import InteractionGraph.Proofs.Heap.History
import InteractionGraph.Proofs.Inject.Outcome
import InteractionGraph.Proofs.Inject.Checked
import InteractionGraph.Proofs.Inject.Capacity
import InteractionGraph.Proofs.Inject.Visited
import InteractionGraph.Proofs.Inject.Floating
import InteractionGraph.Proofs.Inject.Renaming
import InteractionGraph.Proofs.Tree.Walk
import InteractionGraph.Proofs.Book.References
import InteractionGraph.Proofs.Book.Segments
import InteractionGraph.Proofs.Constructor.Merging
import InteractionGraph.Proofs.Grammar.Ambiguity
import InteractionGraph.Proofs.Grammar.ArmOrder
import InteractionGraph.Proofs.Grammar.Phases
import InteractionGraph.Proofs.Grammar.WellFormed
import InteractionGraph.Proofs.Grammar.Words
import InteractionGraph.Proofs.Report.Quiet
import InteractionGraph.Proofs.Grammar.Delimited
import InteractionGraph.Proofs.Grammar.Room
import InteractionGraph.Proofs.Word.Fields
import InteractionGraph.Proofs.Word.Text
