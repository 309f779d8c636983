import PotExtract.Main
import PotExtract.Proofs.Calendar.Epoch
import PotExtract.Proofs.Calendar.ReadBack
import PotExtract.Proofs.Call.Comments
import PotExtract.Proofs.Call.LineEndings
import PotExtract.Proofs.Call.LineOrder
import PotExtract.Proofs.Call.Outcome
import PotExtract.Proofs.Call.Written
import PotExtract.Proofs.Catalog.Balance
import PotExtract.Proofs.Catalog.Grouping
import PotExtract.Proofs.Catalog.Order
import PotExtract.Proofs.Catalog.Valid
import PotExtract.Proofs.Checked.Escapes
import PotExtract.Proofs.Checked.Extract
import PotExtract.Proofs.Command.Init
import PotExtract.Proofs.Config.Overridden
import PotExtract.Proofs.Config.ReadBack
import PotExtract.Proofs.Scan.Ignored
import PotExtract.Proofs.Scan.Moved
import PotExtract.Proofs.Scan.Once
import PotExtract.Proofs.Source.Escapes
import PotExtract.Proofs.Source.Slices
import PotExtract.Proofs.Template.FieldLines
import PotExtract.Proofs.Template.HeaderNames
import PotExtract.Proofs.Template.Preamble
import PotExtract.Proofs.Template.ReadBack
import PotExtract.Proofs.Template.References
