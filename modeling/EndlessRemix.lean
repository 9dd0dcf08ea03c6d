import EndlessRemix.Analysis.Basic
import EndlessRemix.Analysis.Beats
import EndlessRemix.Analysis.BitReversal
import EndlessRemix.Analysis.Downmix
import EndlessRemix.Analysis.Feature
import EndlessRemix.Analysis.Loudness
import EndlessRemix.Analysis.Onset
import EndlessRemix.Analysis.Transform
import EndlessRemix.Audio.Buffer
import EndlessRemix.Audio.Sample
import EndlessRemix.Beat.Basic
import EndlessRemix.Beat.Distance
import EndlessRemix.Beat.Graph
import EndlessRemix.Beat.Sequence
import EndlessRemix.Beat.Store
import EndlessRemix.Command.Arguments
import EndlessRemix.Command.Flag
import EndlessRemix.Command.Run
import EndlessRemix.Command.Token
import EndlessRemix.ErrorKind
import EndlessRemix.Files
import EndlessRemix.Journal
import EndlessRemix.Log
import EndlessRemix.Main
import EndlessRemix.Number.Datum
import EndlessRemix.Number.Double
import EndlessRemix.Number.Numeral
import EndlessRemix.Number.Scalar
import EndlessRemix.Number.Shortest
import EndlessRemix.Number.Text
import EndlessRemix.Number.Whole
import EndlessRemix.Options.Basic
import EndlessRemix.Options.Resolve
import EndlessRemix.Proofs.Analysis.Beats
import EndlessRemix.Proofs.Analysis.BitReversal
import EndlessRemix.Proofs.Analysis.Causality
import EndlessRemix.Proofs.Analysis.Chroma
import EndlessRemix.Proofs.Analysis.Click
import EndlessRemix.Proofs.Analysis.Contract
import EndlessRemix.Proofs.Analysis.Fourier
import EndlessRemix.Proofs.Analysis.Onset
import EndlessRemix.Proofs.Analysis.Selection
import EndlessRemix.Proofs.Analysis.Spacing
import EndlessRemix.Proofs.Analysis.Timbre
import EndlessRemix.Proofs.Analysis.Times
import EndlessRemix.Proofs.Analysis.Window
import EndlessRemix.Proofs.Audio.Buffer
import EndlessRemix.Proofs.Audio.Sample
import EndlessRemix.Proofs.Beat.Bar
import EndlessRemix.Proofs.Beat.Distance
import EndlessRemix.Proofs.Beat.Edges
import EndlessRemix.Proofs.Beat.History
import EndlessRemix.Proofs.Beat.Neighbors
import EndlessRemix.Proofs.Beat.Relax
import EndlessRemix.Proofs.Beat.Sequence
import EndlessRemix.Proofs.Beat.Store
import EndlessRemix.Proofs.Beat.Summary
import EndlessRemix.Proofs.Beat.Unweighted
import EndlessRemix.Proofs.Command.Arguments
import EndlessRemix.Proofs.Command.Outcome
import EndlessRemix.Proofs.Command.Replay
import EndlessRemix.Proofs.Command.Words
import EndlessRemix.Proofs.Except
import EndlessRemix.Proofs.Files
import EndlessRemix.Proofs.Number.Accuracy
import EndlessRemix.Proofs.Number.Exact
import EndlessRemix.Proofs.Number.Extremes
import EndlessRemix.Proofs.Number.Integer
import EndlessRemix.Proofs.Number.Monotone
import EndlessRemix.Proofs.Number.Nearest
import EndlessRemix.Proofs.Number.Order
import EndlessRemix.Proofs.Number.Packing
import EndlessRemix.Proofs.Number.Range
import EndlessRemix.Proofs.Number.Reals
import EndlessRemix.Proofs.Number.Remainder
import EndlessRemix.Proofs.Number.Rounding
import EndlessRemix.Proofs.Number.Shortest
import EndlessRemix.Proofs.Number.Sign
import EndlessRemix.Proofs.Number.Size
import EndlessRemix.Proofs.Number.Storing
import EndlessRemix.Proofs.Number.Symmetry
import EndlessRemix.Proofs.Number.Text
import EndlessRemix.Proofs.Number.Unsigned
import EndlessRemix.Proofs.Number.Value
import EndlessRemix.Proofs.Number.Word
import EndlessRemix.Proofs.Options.Ranges
import EndlessRemix.Proofs.Options.Resolve
import EndlessRemix.Proofs.Random
import EndlessRemix.Proofs.Random.Period
import EndlessRemix.Proofs.Random.Uniform
import EndlessRemix.Proofs.Remix.Analyzed
import EndlessRemix.Proofs.Remix.Course
import EndlessRemix.Proofs.Remix.Degenerate
import EndlessRemix.Proofs.Remix.Failure
import EndlessRemix.Proofs.Remix.Make
import EndlessRemix.Proofs.Remix.Neighbors
import EndlessRemix.Proofs.Remix.Replay
import EndlessRemix.Proofs.Walk.Bar
import EndlessRemix.Proofs.Walk.Course
import EndlessRemix.Proofs.Walk.Extension
import EndlessRemix.Proofs.Walk.Overlap
import EndlessRemix.Proofs.Walk.Overshoot
import EndlessRemix.Proofs.Walk.Playback
import EndlessRemix.Proofs.Walk.Progress
import EndlessRemix.Proofs.Walk.Provenance
import EndlessRemix.Proofs.Walk.Sequential
import EndlessRemix.Proofs.Walk.Span
import EndlessRemix.Proofs.Walk.Track
import EndlessRemix.Proofs.Walk.Trail
import EndlessRemix.Proofs.Wave.Chunks
import EndlessRemix.Proofs.Wave.Integers
import EndlessRemix.Proofs.Wave.Layout
import EndlessRemix.Proofs.Wave.Level
import EndlessRemix.Proofs.Wave.Limits
import EndlessRemix.Proofs.Wave.Reading
import EndlessRemix.Proofs.Wave.Resave
import EndlessRemix.Proofs.Wave.RoundTrip
import EndlessRemix.Proofs.Wave.Truncation
import EndlessRemix.Random
import EndlessRemix.Remix.Error
import EndlessRemix.Remix.Make
import EndlessRemix.Text.Quoted
import EndlessRemix.Walk.Path
import EndlessRemix.Walk.Render
import EndlessRemix.Walk.Span
import EndlessRemix.Walk.Track
import EndlessRemix.Wave.Bytes
import EndlessRemix.Wave.Chunk
import EndlessRemix.Wave.Decode
import EndlessRemix.Wave.Encode
import EndlessRemix.Wave.Format
