import FilterSynthesis.Decimal.Reader
import FilterSynthesis.Design.Record
import FilterSynthesis.Design.Synthesis
import FilterSynthesis.Json.Floating
import FilterSynthesis.Proofs.Design.Application
import FilterSynthesis.Proofs.Design.Poles
import FilterSynthesis.Proofs.Design.PolynomialText
import FilterSynthesis.Proofs.Design.Record
import FilterSynthesis.Proofs.Design.Relevance
import FilterSynthesis.Proofs.Design.Synthesis
import FilterSynthesis.Proofs.DigitalFilter.Feeding
import FilterSynthesis.Proofs.DigitalFilter.Phaseless
import FilterSynthesis.Proofs.Expression.Closing
import FilterSynthesis.Proofs.Expression.Coefficients
import FilterSynthesis.Proofs.Expression.Evaluation
import FilterSynthesis.Proofs.Expression.Height
import FilterSynthesis.Proofs.Expression.NumberText
import FilterSynthesis.Proofs.Expression.Operations
import FilterSynthesis.Proofs.Expression.TermList
import FilterSynthesis.Proofs.Laurent.Accumulation
import FilterSynthesis.Proofs.Laurent.Power
import FilterSynthesis.Proofs.TransferFunction.Response
import FilterSynthesis.Proofs.TransferFunction.RoundTrip
import FilterSynthesis.Proofs.TransferFunction.Stability
import FilterSynthesis.Scalar.Floating
