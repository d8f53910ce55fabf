import StackFront.Main
import StackFront.Program.Checked
import StackFront.Session.Request
import StackFront.Proofs.Exploration
import StackFront.Proofs.Path.NormalForm
import StackFront.Proofs.Walk.Outcome
import StackFront.Proofs.Walk.DepthFirst
import StackFront.Proofs.Walk.Referrers
import StackFront.Proofs.Graph.Reachability
import StackFront.Proofs.Session.Keys
import StackFront.Proofs.Session.Loaders
import StackFront.Proofs.Session.Relocation
import StackFront.Proofs.Session.Retention
import StackFront.Proofs.Session.Transparency
import StackFront.Proofs.Enrichment.Links
import StackFront.Proofs.Enrichment.Memo
import StackFront.Proofs.Program.Layout
import StackFront.Proofs.Program.RoundTrip
import StackFront.Proofs.Program.WrittenForm
import StackFront.Proofs.Image.Payload
import StackFront.Proofs.Image.Points
import StackFront.Proofs.Image.Rebuilding
import StackFront.Proofs.Path.Stepwise
import StackFront.Proofs.Image.Sameness
import StackFront.Proofs.Image.Envelope
import StackFront.Proofs.Image.Files
import StackFront.Proofs.Analysis.Cycles
import StackFront.Proofs.Analysis.Digraph
import StackFront.Proofs.Path.Shape
import StackFront.Proofs.Path.Spelling
import StackFront.Proofs.Enrichment.Turns
import StackFront.Proofs.Program.Refusal
import StackFront.Proofs.Walk.Pops
import StackFront.Proofs.Session.Entry
import StackFront.Proofs.Session.Failures
import StackFront.Proofs.CommandLine.Methods
import StackFront.Proofs.CommandLine.Endings
import StackFront.Proofs.Op.Tokens
import StackFront.Proofs.Analysis.Profile
import StackFront.Proofs.Drawing.Identifiers
import StackFront.Proofs.Drawing.Labels
