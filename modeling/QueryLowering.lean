import QueryLowering.Sql.Codec
import QueryLowering.Main
import QueryLowering.Proofs.CteOrder
import QueryLowering.Proofs.Unions
import QueryLowering.Proofs.Comments
import QueryLowering.Proofs.Grouping
import QueryLowering.Proofs.Codec
import QueryLowering.Proofs.ExplicitJoins
import QueryLowering.Proofs.Anchors
import QueryLowering.Proofs.Pages
import QueryLowering.Proofs.Targets
import QueryLowering.Proofs.Patterns
import QueryLowering.Proofs.Conditions
import QueryLowering.Proofs.Existence
import QueryLowering.Proofs.Aggregates
import QueryLowering.Proofs.NormalForms
import QueryLowering.Proofs.Objects
import QueryLowering.Proofs.ParameterLists
import QueryLowering.Proofs.KeyEqualities
import QueryLowering.Proofs.QuotedText
