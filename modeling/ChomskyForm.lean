import ChomskyForm.Grammar.Language
import ChomskyForm.Main
import ChomskyForm.NormalForm.Shape
import ChomskyForm.Proofs.Analysis.Nullable
import ChomskyForm.Proofs.Conversion.Distinct
import ChomskyForm.Proofs.Conversion.Ending
import ChomskyForm.Proofs.Conversion.Printed
import ChomskyForm.Proofs.Conversion.Repeated
import ChomskyForm.Proofs.Conversion.RoundTrip
import ChomskyForm.Proofs.Conversion.Twice
import ChomskyForm.Proofs.Conversion.Warnings
import ChomskyForm.Proofs.Conversion.Words
import ChomskyForm.Proofs.Extension
import ChomskyForm.Proofs.GrammarFile.Fault
import ChomskyForm.Proofs.GrammarFile.Report
import ChomskyForm.Proofs.GrammarFile.Spacing
import ChomskyForm.Proofs.Passes
import ChomskyForm.Proofs.Printout
import ChomskyForm.Proofs.Sessions
import ChomskyForm.Proofs.Stages.Demand
import ChomskyForm.Proofs.Stages.Instances
import ChomskyForm.Proofs.Stages.Occurring
import ChomskyForm.Proofs.Stages.Unchanged
import ChomskyForm.Proofs.Stages.Uncut
import ChomskyForm.Proofs.Stages.UnitChain
import ChomskyForm.Proofs.Stages.Unlifted
