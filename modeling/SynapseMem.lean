import SynapseMem.Decimal.Reader
import SynapseMem.Weights.Report
import SynapseMem.Weights.Image
import SynapseMem.Summary
import SynapseMem.Spikes.Fifo
import SynapseMem.Viewer.Screen
import SynapseMem.Config
import SynapseMem.Command.Run
import SynapseMem.Main
import SynapseMem.Proofs.Binary64.Exactness
import SynapseMem.Proofs.Fixed.HalfEven
import SynapseMem.Proofs.Fixed.Quantization
import SynapseMem.Proofs.Fixed.Tokens
import SynapseMem.Proofs.Tensor.Nested
import SynapseMem.Proofs.Tensor.Rectangular
import SynapseMem.Proofs.Steps
import SynapseMem.Proofs.Weights.Export
import SynapseMem.Proofs.Weights.Image
import SynapseMem.Proofs.Weights.Decoration
import SynapseMem.Proofs.Weights.RoundTrip
import SynapseMem.Proofs.Spikes.Dump
import SynapseMem.Proofs.Spikes.Validation
import SynapseMem.Proofs.Spikes.Fifo
import SynapseMem.Proofs.Files
import SynapseMem.Proofs.Weights.Safety
import SynapseMem.Proofs.Weights.Errors
import SynapseMem.Proofs.Viewer.Runs
import SynapseMem.Proofs.Weights.Policies
import SynapseMem.Proofs.Command.Transactions
import SynapseMem.Proofs.Fixed.Decoding
import SynapseMem.Proofs.Fixed.Limits
import SynapseMem.Proofs.Weights.Accounting
import SynapseMem.Proofs.Fixed.Comparison
import SynapseMem.Proofs.Fixed.Grammar
import SynapseMem.Proofs.Spikes.Tiling
import SynapseMem.Proofs.Spikes.Requests
import SynapseMem.Proofs.Binary64.Quotients
import SynapseMem.Proofs.Spikes.Rates
import SynapseMem.Proofs.Viewer.Grids
import SynapseMem.Proofs.Viewer.Shades
import SynapseMem.Proofs.Fixed.Padding
import SynapseMem.Proofs.Binary64.Fractions
import SynapseMem.Proofs.Weights.Statistics
import SynapseMem.Proofs.Summary
